import MixedInteger.Proofs.Doubles
import MixedInteger.Proofs.Runs

/-!
Weights that leave the order of a set open. Sorting goes by one order and the neighbours are compared by another
equality, which has two zeros in common and knows no value of what is no number; still it finds exactly the sets in
which two positions have one weight. Lowering that keeps the sets warns of the first of them, and only sets that came
from outside can be among them.
-/

namespace MixedInteger

namespace Sos1

/-- Two positions have one weight. -/
def HasEqualWeights (s : Sos1 Float) : Prop :=
  ∃ (i j : Nat) (x y : Float), i ≠ j ∧ s.weights[i]? = some x ∧ s.weights[j]? = some y ∧ Double.SameNumber x y

/-- In a sorted list what is equal is together: whatever stands between two equal numbers is equal to them. -/
theorem hasEqualNeighbours_iff {xs : List Float} (sorted : xs.Pairwise fun x y => Double.rank x ≤ Double.rank y) :
    hasEqualNeighbours xs = false ↔ xs.Pairwise fun x y => (x == y) = false := by
  induction xs with
  | nil => exact iff_of_true rfl .nil
  | cons x rest ih =>
    obtain ⟨first, others⟩ := List.pairwise_cons.mp sorted
    rw [List.pairwise_cons, ← ih others]
    cases rest with
    | nil => exact iff_of_true rfl ⟨fun _ => nofun, rfl⟩
    | cons y rest =>
      rw [hasEqualNeighbours, Bool.or_eq_false_iff]
      refine and_congr_left fun _ => ⟨fun apart z hz => ?_, fun apart => apart y List.mem_cons_self⟩
      rcases List.mem_cons.mp hz with rfl | hz
      · exact apart
      · refine Bool.eq_false_iff.mpr fun same => ?_
        have beyond := (List.pairwise_cons.mp others).1 z hz
        rw [Double.beq_of_between (first y List.mem_cons_self) beyond same] at apart
        cases apart

theorem weights_sorted (s : Sos1 Float) :
    (s.weights.mergeSort Scalar.precedes).Pairwise fun x y => Double.rank x ≤ Double.rank y := by
  have transitive (x y z : Float) (hxy : decide (Double.rank x ≤ Double.rank y) = true)
      (hyz : decide (Double.rank y ≤ Double.rank z) = true) : decide (Double.rank x ≤ Double.rank z) = true :=
    decide_eq_true (UInt64.le_trans (of_decide_eq_true hxy) (of_decide_eq_true hyz))
  have total (x y : Float) :
      (decide (Double.rank x ≤ Double.rank y) || decide (Double.rank y ≤ Double.rank x)) = true := by
    rw [Bool.or_eq_true, decide_eq_true_iff, decide_eq_true_iff]
    exact UInt64.le_total _ _
  exact (List.pairwise_mergeSort transitive total s.weights).imp of_decide_eq_true

theorem hasDuplicateWeights_iff (s : Sos1 Float) : s.hasDuplicateWeights = true ↔ s.HasEqualWeights := by
  have symmetric (x y : Float) (apart : (x == y) = false) : (y == x) = false := BEq.comm.trans apart
  have pairwise : s.hasDuplicateWeights = false ↔ s.weights.Pairwise fun x y => (x == y) = false :=
    (hasEqualNeighbours_iff s.weights_sorted).trans
      ((List.mergeSort_perm s.weights _).pairwise_iff fun {x y} => symmetric x y)
  rw [← not_iff_not, Bool.not_eq_true, pairwise, List.pairwise_iff_getElem]
  constructor
  · rintro apart ⟨i, j, x, y, different, hx, hy, same⟩
    obtain ⟨hi, rfl⟩ := List.getElem?_eq_some_iff.mp hx
    obtain ⟨hj, rfl⟩ := List.getElem?_eq_some_iff.mp hy
    have equal := Double.beq_iff_sameNumber.mpr same
    rcases Nat.lt_or_gt_of_ne different with before | after
    · rw [apart i j hi hj before] at equal
      cases equal
    · rw [symmetric _ _ (apart j i hj hi after)] at equal
      cases equal
  · intro distinct i j hi hj before
    refine Bool.eq_false_iff.mpr fun equal => distinct ?_
    exact ⟨i, j, _, _, before.ne, List.getElem?_eq_getElem hi, List.getElem?_eq_getElem hj,
      Double.beq_iff_sameNumber.mp equal⟩

/-- Members that are counted from one have weights of their own, as long as doubles can count them. -/
theorem ofMembers_distinct {s : Sos1 Float} {members : List (Variable Float)} (few : members.length < 2 ^ 53)
    (weights : s.weights = (ofMembers members : Sos1 Float).weights) : ¬ s.HasEqualWeights := by
  have position {i : Nat} {x : Float} (hx : s.weights[i]? = some x) :
      Program.limit? x = some (.at (i + 1 : Nat)) := by
    rw [weights] at hx
    obtain ⟨k, hk, rfl⟩ := Option.map_eq_some_iff.mp ((List.getElem?_map ..).symm.trans hx)
    obtain ⟨inside, rfl⟩ := List.getElem?_eq_some_iff.mp hk
    rw [List.length_range] at inside
    rw [List.getElem_range]
    exact Double.limit?_of_toRat? (Double.toRat?_ofRat_natCast i.succ_pos (Nat.lt_of_le_of_lt inside few))
  rintro ⟨i, j, x, y, different, hx, hy, l, limit, limit'⟩
  obtain rfl := Option.some.inj ((position hx).symm.trans limit)
  have same := Option.some.inj ((position hy).symm.trans limit')
  rw [Program.Limit.at.injEq, Nat.cast_inj] at same
  exact different (Nat.succ.inj same).symm

end Sos1

section Warnings

variable {α : Type}

/-- The set that an event warns of. -/
def Event.warnsOf? : Event α → Option (Sos1 α)
  | duplicateWeights s => some s
  | _ => none

variable [Scalar α]

namespace Problem

/-- The sets that lowering warns of. -/
def warnings (p : Problem α) : List (Sos1 α) := p.lower.2.filterMap (·.warnsOf?)

theorem substituteAll_silent (p : Problem α) (passes : List Pass) :
    (p.substituteAll passes).2.filterMap (·.warnsOf?) = [] := by
  have onward (start : Problem α × List (Event α)) (silent : start.2.filterMap (·.warnsOf?) = []) :
      (passes.foldl (fun now pass => ((now.1.substitute pass).1, now.2 ++ (now.1.substitute pass).2))
        start).2.filterMap (·.warnsOf?) = [] := by
    induction passes generalizing start with
    | nil => exact silent
    | cons pass passes ih =>
      refine ih _ ?_
      rw [List.filterMap_append, silent]
      rfl
  exact onward (p, []) rfl

theorem warnings_eq {p : Problem α} (keeps : p.policy.keepsSos1 = true) :
    p.warnings = (p.lower.1.sos1s.find? (·.hasDuplicateWeights)).toList := by
  have reported (s : Option (Sos1 α)) :
      (s.map Event.duplicateWeights).toList.filterMap (·.warnsOf?) = s.toList := by
    cases s <;> rfl
  simp only [warnings, lower, keeps, ↓reduceIte]
  rw [List.filterMap_append, substituteAll_silent, reported]
  rfl

end Problem

/-- A set as lowering makes them: a few members, counted from one. -/
def Sos1.IsMade (s : Sos1 α) : Prop := s.members.length ≤ 3 ∧ s.weights = (ofMembers s.members : Sos1 α).weights

theorem Disjunction.Choice.sets_made {d : Disjunction α} {bigM : α} {k : Choice α} {s : Sos1 α}
    (hs : .sos1 s ∈ k.rows d bigM) : s.IsMade := by
  unfold rows at hs
  split at hs
  · simp only [equalityRows, exclusive, row, List.mem_cons, reduceCtorEq, List.not_mem_nil, false_or, or_false,
      Constraint.sos1.injEq] at hs
    subst hs
    exact ⟨Nat.le_refl 3, rfl⟩
  · simp only [inequalityRows, exclusive, row, List.mem_cons, reduceCtorEq, List.not_mem_nil, false_or, or_false,
      Constraint.sos1.injEq] at hs
    rcases hs with rfl | rfl
    · exact ⟨Nat.le_succ 2, rfl⟩
    · exact ⟨Nat.le_succ 2, rfl⟩

theorem Lowering.sets_made {bigM : α} {c : Constraint α} {vs : List (Variable α)} {rows : List (Constraint α)}
    (h : Lowering bigM c vs rows) {s : Sos1 α} (hs : .sos1 s ∈ rows) : s.IsMade := by
  cases h with
  | below | above | sos1 | binaryOr => simp at hs
  | apart excluding above below =>
    simp only [Comparison.separation, List.mem_cons, reduceCtorEq, List.not_mem_nil, false_or, or_false,
      Constraint.sos1.injEq] at hs
    subst hs
    exact ⟨Nat.le_succ 2, rfl⟩
  | disjunction d ks choices =>
    rcases List.mem_append.mp hs with hs | hs
    · obtain ⟨k, -, hs⟩ := List.mem_flatMap.mp hs
      exact Disjunction.Choice.sets_made hs
    · simp [Disjunction.closing, Disjunction.row] at hs

theorem Problem.after_sets (p : Problem α) (passes : List Pass) {s : Sos1 α}
    (hs : .sos1 s ∈ (p.after passes).constraints) : .sos1 s ∈ p.constraints ∨ s.IsMade := by
  refine p.after_keeps (P := fun q => ∀ t : Sos1 α, .sos1 t ∈ q.constraints → .sos1 t ∈ p.constraints ∨ t.IsMade)
    (fun _ => .inl) ?_ passes s hs
  intro q r pass kept ws passed known t ht
  rcases passed.mem_after ht with left | ⟨w, -, made⟩
  · exact known t (passed.kept_mem left)
  · exact .inr (w.lowers.sets_made made)

namespace Operation

/-- The constraints that an operation brings in from outside, those of a change that is refused excepted. -/
def supplies (a : Operation α) (p : Problem α) : List (Constraint α) :=
  match a with
  | change (.intake (.constraints cs)) => if (Intake.constraints cs).isAccepted p then cs else []
  | _ => []

/-- All that came in from outside. -/
def supplied (p : Problem α) : List (Operation α) → List (Constraint α)
  | [] => []
  | a :: as => a.supplies p ++ supplied (a.perform p) as

/-- An operation that is no intake brings in nothing but sets that lowering makes. -/
theorem perform_sets (a : Operation α) (p : Problem α) {s : Sos1 α} (hs : .sos1 s ∈ (a.perform p).constraints) :
    .sos1 s ∈ p.constraints ∨ .sos1 s ∈ a.supplies p ∨ s.IsMade := by
  have lowered (hs : .sos1 s ∈ p.lower.1.constraints) : .sos1 s ∈ p.constraints ∨ s.IsMade := by
    rw [p.lower_after] at hs
    exact p.after_sets p.policy.passes hs
  cases a with
  | change c =>
    rcases c.intake_or_rebound p with ⟨i, rfl⟩ | ⟨-, registry, rebound⟩
    · cases i with
      | objective e sense =>
        rw [perform, Change.outcome_intake] at hs
        split at hs <;> exact .inl hs
      | constraints cs =>
        rw [perform, Change.outcome_intake] at hs
        split at hs
        · rename_i accepted
          have supplies : (change (.intake (.constraints cs))).supplies p = cs := if_pos accepted
          have stored := (Problem.push_fold _ cs).1.mem_iff.mp hs
          rw [supplies]
          exact (List.mem_append.mp stored).imp_right .inl
        · exact .inl hs
    · rw [perform, rebound] at hs
      exact .inl hs
  | setSense | configure => exact .inl hs
  | setValues values => exact .inl hs
  | remove kind i => exact .inl ((p.without_removal kind i).mem_constraints hs)
  | substitute pass => exact (p.after_sets [pass] hs).imp_right .inr
  | lower => exact (lowered hs).imp_right .inr
  | build config =>
    rw [perform, Problem.assembly_frame] at hs
    exact (lowered hs).imp_right .inr

theorem performAll_sets (as : List (Operation α)) (p : Problem α) {s : Sos1 α}
    (hs : .sos1 s ∈ (performAll as p).constraints) :
    .sos1 s ∈ p.constraints ∨ .sos1 s ∈ supplied p as ∨ s.IsMade := by
  induction as generalizing p with
  | nil => exact .inl hs
  | cons a as ih =>
    rw [supplied, List.mem_append]
    rcases ih (a.perform p) hs with before | later | made
    · rcases a.perform_sets p before with known | now | made
      · exact .inl known
      · exact .inr (.inl (.inl now))
      · exact .inr (.inr made)
    · exact .inr (.inl (.inr later))
    · exact .inr (.inr made)

end Operation

end Warnings

open Problem

/-- Duplicate weights are found in exactly the sets that have them, sets that are counted from one have none, and
lowering that keeps the sets warns of the first set in store with two equal weights, which came from outside; where no
such set is kept it warns of nothing. -/
theorem Sos1.duplicates_found :
    (∀ s : Sos1 Float, s.hasDuplicateWeights = true ↔ s.HasEqualWeights) ∧
    (∀ members : List (Variable Float), members.length < 2 ^ 53 → (ofMembers members).hasDuplicateWeights = false) ∧
    ∀ as : List (Operation Float), let p := ofOperations as
      p.policy.keepsSos1 = true →
      (p.warnings = [] ∧ ∀ s ∈ p.lower.1.sos1s, ¬ s.HasEqualWeights) ∨
      ∃ before s after, p.lower.1.sos1s = before ++ s :: after ∧ s.HasEqualWeights ∧
        .sos1 s ∈ Operation.supplied .empty as ∧ (∀ t ∈ before, ¬ t.HasEqualWeights) ∧ p.warnings = [s] := by
  have clear {s : Sos1 Float} (none : s.hasDuplicateWeights = false) : ¬ s.HasEqualWeights :=
    fun equal => Bool.false_ne_true (none.symm.trans (s.hasDuplicateWeights_iff.mpr equal))
  have supplied {as : List (Operation Float)} {s : Sos1 Float} (hs : s ∈ (ofOperations as).lower.1.sos1s)
      (equal : s.HasEqualWeights) : .sos1 s ∈ Operation.supplied .empty as := by
    have unmade (made : s.IsMade) : False := ofMembers_distinct (Nat.lt_of_le_of_lt made.1 (by decide)) made.2 equal
    rcases Operation.lower.perform_sets (ofOperations as) (mem_constraints.mpr hs) with before | now | made
    · rcases Operation.performAll_sets as .empty before with start | brought | made
      · cases mem_constraints.mp start
      · exact brought
      · exact (unmade made).elim
    · cases now
    · exact (unmade made).elim
  refine ⟨hasDuplicateWeights_iff, fun members few => ?_, ?_⟩
  · rw [← Bool.not_eq_true, hasDuplicateWeights_iff]
    exact ofMembers_distinct few rfl
  · intro as p keeps
    rw [warnings_eq keeps]
    cases found : p.lower.1.sos1s.find? (·.hasDuplicateWeights) with
    | none =>
      rw [List.find?_eq_none] at found
      exact .inl ⟨rfl, fun s hs => clear (Bool.eq_false_iff.mpr (found s hs))⟩
    | some s =>
      obtain ⟨duplicate, before, after, sets, first⟩ := List.find?_eq_some_iff_append.mp found
      have equal := s.hasDuplicateWeights_iff.mp duplicate
      have kept : s ∈ p.lower.1.sos1s := sets ▸ List.mem_append_right _ List.mem_cons_self
      exact .inr ⟨before, s, after, sets, equal, supplied kept equal,
        fun t ht => clear ((Bool.not_eq_true' _).mp (first t ht)), rfl⟩

/-- Two sets are kept, one counted from one and one with the two zeros for weights. -/
def Operation.zeros : List (Operation Float) :=
  [.configure ⟨100, true, false⟩,
    .change (.intake (.constraints [.sos1 (.ofMembers [.real "x", .real "y"]),
      .sos1 (.weighted [.real "x", .real "z"] [0, -0])]))]

theorem Sos1.zeros_found :
    (ofMembers [.real "x", .real "y"] : Sos1 Float).hasDuplicateWeights = false ∧
      (ofOperations Operation.zeros).policy.keepsSos1 = true ∧
      (ofOperations Operation.zeros).warnings = [.weighted [.real "x", .real "z"] [0, -0]] := by
  obtain ⟨exactly, counted, warned⟩ := duplicates_found
  let one : Sos1 Float := .ofMembers [.real "x", .real "y"]
  let two : Sos1 Float := .weighted [.real "x", .real "z"] [0, -0]
  have sets : (ofOperations Operation.zeros).lower.1.sos1s = [one, two] := rfl
  have clear : one.hasDuplicateWeights = false := counted _ (by decide)
  have equal : two.HasEqualWeights :=
    ⟨0, 1, 0, -0, by decide, rfl, rfl, Double.beq_iff_sameNumber.mp (by decide +kernel)⟩
  refine ⟨clear, rfl, ?_⟩
  rcases warned Operation.zeros rfl with ⟨-, none⟩ | ⟨before, s, after, split, ambiguous, -, first, warns⟩
  · exact absurd equal (none two (sets ▸ List.mem_cons_of_mem _ List.mem_cons_self))
  · rw [warns]
    rw [sets] at split
    have other : s ≠ one := by
      rintro rfl
      exact Bool.false_ne_true (clear.symm.trans ((exactly one).mpr ambiguous))
    have found : s ∈ [one, two] := split ▸ List.mem_append_right before List.mem_cons_self
    rcases List.mem_cons.mp found with same | found
    · exact absurd same other
    · rw [List.mem_singleton.mp found]

end MixedInteger
