import Mathlib.Algebra.Order.Ring.Rat
import Mathlib.Algebra.Order.BigOperators.Group.List
import MixedInteger.Proofs.RowShape
import MixedInteger.Proofs.Separation

/-!
Values that meet the rows of a constraint meet the constraint, with some slack for every row.
-/

namespace MixedInteger

/-- Bits whose sum is positive are not all zero. -/
theorem exists_eq_one_of_sum_pos (xs : List Rat) (bits : ∀ x ∈ xs, IsBit x) (h : 0 < xs.sum) :
    ∃ x ∈ xs, x = 1 := by
  induction xs with
  | nil => simp at h
  | cons x xs ih =>
    rcases bits x (by simp) with hx | hx
    · rw [List.sum_cons, hx, zero_add] at h
      obtain ⟨y, hy, h1⟩ := ih (fun y hy => bits y (by simp [hy])) h
      exact ⟨y, by simp [hy], h1⟩
    · exact ⟨x, by simp, hx⟩

/-- Of bits whose sum is below two, at most one is on. -/
theorem pairwise_of_sum_lt_two (xs : List Rat) (bits : ∀ x ∈ xs, IsBit x) (h : xs.sum < 2) :
    xs.Pairwise fun x y => x = 0 ∨ y = 0 := by
  have nonneg : ∀ ys : List Rat, (∀ y ∈ ys, IsBit y) → 0 ≤ ys.sum := fun ys hy =>
    List.sum_nonneg fun y hm => (hy y hm).nonneg
  induction xs with
  | nil => exact .nil
  | cons x xs ih =>
    have tail : ∀ y ∈ xs, IsBit y := fun y hy => bits y (by simp [hy])
    have hx := bits x (by simp)
    rw [List.sum_cons] at h
    refine List.pairwise_cons.mpr ⟨fun y hy => ?_, ih tail (by linarith [hx.nonneg])⟩
    rcases hx with hx | hx
    · exact .inl hx
    · refine .inr ((tail y hy).resolve_right fun h1 => ?_)
      have := List.single_le_sum (fun z hz => (tail z hz).nonneg) y hy
      linarith

section Rows

variable {values : Assignment Rat} {t : Rat}

theorem Comparison.ofLinear_holdsApart {lhs : List (Term Rat)} {relation : Relation} {rhs margin : Rat}
    (h : relation ≠ .ne) : (Comparison.ofLinear lhs relation rhs margin).HoldsApart values t ↔
      relation.HoldsApart (sumTerms lhs values - rhs) margin t :=
  Comparison.holdsApart_iff h

namespace Disjunction

theorem row_holdsApart {d : Disjunction Rat} {lhs : List (Term Rat)} {relation : Relation} {rhs : Rat}
    (h : relation ≠ .ne) : (d.row lhs relation rhs).HoldsApart values t ↔
      relation.HoldsApart (sumTerms lhs values - rhs) d.margin t :=
  Comparison.holdsApart_iff h

theorem exclusive_holdsApart {d : Disjunction Rat} {bigM : Rat} {members : List (Variable Rat)} :
    (d.exclusive bigM members).HoldsApart values t ↔
      members.Pairwise fun v w => |values v.name| ≤ t ∨ |values w.name| ≤ t :=
  Sos1.isSatisfied_iff_pairwise

theorem slackSign_cases (r : Relation) : (slackSign r : Rat) = 1 ∨ (slackSign r : Rat) = -1 := by
  cases r <;> simp [slackSign]

/-- A slack variable near zero moves a row by no more than itself. -/
theorem abs_slackSign_mul (r : Relation) (x : Rat) : |slackSign r * x| = |x| := by
  rcases slackSign_cases r with h | h <;> simp [h]

/-- A row whose slack variable is near zero holds without it. -/
theorem relaxed_row {d : Disjunction Rat} {lhs : List (Term Rat)} {relation : Relation}
    {weight rhs : Rat} {v : Variable Rat} (canonical : relation ≠ .ne)
    (near : |weight * values v.name| ≤ t)
    (h : (d.row (Comparison.plusAuxiliary lhs weight v) relation rhs).HoldsApart values t) :
    relation.HoldsApart (sumTerms lhs values - rhs) d.margin (2 * t) := by
  have moved := (row_holdsApart canonical).mp h
  simp only [Comparison.plusAuxiliary, sumTerms_append, sumTerms_cons, sumTerms_nil, Term.eval_single,
    add_zero] at moved
  have back := moved.shift (d := -(weight * values v.name)) (t := t) (by rwa [abs_neg])
  have gap : sumTerms lhs values + weight * values v.name - rhs + -(weight * values v.name) =
      sumTerms lhs values - rhs := by ring
  rwa [gap, ← two_mul] at back

/-- The indicators of the two sides decide which of the slack variables is near zero. -/
theorem inequality_sound {d : Disjunction Rat} {bigM : Rat} {a : Alternative Rat}
    {on off phi psi : Variable Rat} (inequality : a.relation ≠ .eq ∧ a.relation ≠ .ne)
    (bits : IsBit (values on.name) ∧ IsBit (values off.name)) (ht : t < 1)
    (h : ∀ r ∈ d.inequalityRows bigM a on off phi psi, r.HoldsApart values t) :
    (values on.name = 1 → a.HoldsApart values d.margin (2 * t)) ∧
      (values on.name = 0 → a.FailsApart values d.margin (2 * t)) := by
  simp only [inequalityRows, List.forall_mem_cons] at h
  obtain ⟨one, alternative, complement, -, -, exclusiveOn, exclusiveOff, -⟩ := h
  have noNe : a.relation.complement ≠ .ne := by
    intro hc
    have := a.relation.complement_complement
    rw [hc] at this
    exact inequality.1 this.symm
  constructor
  · intro hon
    have apart := List.pairwise_pair.mp (exclusive_holdsApart.mp exclusiveOn)
    rw [hon, abs_one] at apart
    have near := apart.resolve_right (not_le.mpr ht)
    exact relaxed_row inequality.2 (by rwa [abs_slackSign_mul]) alternative
  · intro hon
    have total := (row_holdsApart (by decide)).mp one
    simp only [Relation.HoldsApart, sumTerms_cons, sumTerms_nil, Term.eval_single, one_mul, add_zero,
      hon, zero_add] at total
    have hoff : values off.name = 1 := bits.2.eq_one (by linarith [abs_le.mp total])
    have apart := List.pairwise_pair.mp (exclusive_holdsApart.mp exclusiveOff)
    rw [hoff, abs_one] at apart
    have near := apart.resolve_right (not_le.mpr ht)
    refine relaxed_row noNe ?_ complement
    rwa [neg_mul, abs_neg, abs_slackSign_mul]

/-- An indicator that is on leaves no slack on either side. -/
theorem equality_sound {d : Disjunction Rat} {bigM : Rat} {a : Alternative Rat}
    {on phi psi : Variable Rat} (equality : a.relation = .eq) (ht : t < 1)
    (h : ∀ r ∈ d.equalityRows bigM a on phi psi, r.HoldsApart values t) (hon : values on.name = 1) :
    a.HoldsApart values d.margin (2 * t) := by
  simp only [equalityRows, List.forall_mem_cons] at h
  obtain ⟨low, high, -, exclusive, -⟩ := h
  have apart := exclusive_holdsApart.mp exclusive
  simp only [List.pairwise_cons, List.mem_cons, List.not_mem_nil, or_false, forall_eq_or_imp,
    forall_eq, hon, abs_one] at apart
  obtain ⟨⟨-, phiNear⟩, psiNear, -⟩ := apart
  have above := relaxed_row (by decide) (by simpa using phiNear.resolve_right (not_le.mpr ht)) low
  have below := relaxed_row (by decide) (by simpa using psiNear.resolve_right (not_le.mpr ht)) high
  simp only [Relation.HoldsApart] at above below
  simp only [Alternative.HoldsApart, equality, Relation.HoldsApart]
  exact abs_le.mpr ⟨above, below⟩

/-- The indicator of a choice speaks for its alternative. -/
theorem Choice.sound {d : Disjunction Rat} {bigM : Rat} {k : Choice Rat}
    (noNe : k.alternative.relation ≠ .ne) (ht : t < 1)
    (bits : ∀ v ∈ k.auxiliaries bigM, v.domain = .binary → IsBit (values v.name))
    (h : ∀ r ∈ k.rows d bigM, r.HoldsApart values t) :
    (values k.on = 1 → k.alternative.HoldsApart values d.margin (2 * t)) ∧
      (k.alternative.relation ≠ .eq → values k.on = 0 →
        k.alternative.FailsApart values d.margin (2 * t)) := by
  by_cases equality : k.alternative.relation = .eq
  · rw [(of_equality equality d bigM).2] at h
    exact ⟨equality_sound equality ht h, fun hn => absurd equality hn⟩
  · rw [(of_inequality equality d bigM).1] at bits
    rw [(of_inequality equality d bigM).2] at h
    have both := inequality_sound ⟨equality, noNe⟩
      ⟨bits (.binary k.on) (by simp) rfl, bits (.binary k.off) (by simp) rfl⟩ ht h
    exact ⟨both.1, fun _ => both.2⟩

/-- The closing row puts some indicator on. -/
theorem exists_on_of_closing {d : Disjunction Rat} {ks : List (Choice Rat)}
    (bits : ∀ k ∈ ks, IsBit (values k.on)) (ht : t < 1) (h : (d.closing ks).HoldsApart values t) :
    ∃ k ∈ ks, values k.on = 1 := by
  have closed := (row_holdsApart (by decide)).mp h
  rw [sumTerms_map_weighted, one_mul] at closed
  change -t ≤ (ks.map fun k => values k.on).sum - 1 at closed
  obtain ⟨x, hx, hon⟩ := exists_eq_one_of_sum_pos (ks.map fun k => values k.on)
    (by
      intro x hx
      obtain ⟨k, hk, rfl⟩ := List.mem_map.mp hx
      exact bits k hk) (by linarith)
  obtain ⟨k, hk, rfl⟩ := List.mem_map.mp hx
  exact ⟨k, hk, hon⟩

/-- Some indicator is on, and each one that is off rules its alternative out. -/
theorem lower_sound {d : Disjunction Rat} {bigM : Rat} {ks : List (Choice Rat)}
    (choices : ks.map (·.alternative) = d.alternatives) (ht : t < 1)
    (bits : ∀ v ∈ ks.flatMap (·.auxiliaries bigM), v.domain = .binary → IsBit (values v.name))
    (h : ∀ r ∈ ks.flatMap (·.rows d bigM) ++ [d.closing ks], r.HoldsApart values t) :
    d.HoldsApart values (2 * t) := by
  have each : ∀ k ∈ ks, IsBit (values k.on) ∧
      (values k.on = 1 → k.alternative.HoldsApart values d.margin (2 * t)) ∧
      (k.alternative.relation ≠ .eq → values k.on = 0 →
        k.alternative.FailsApart values d.margin (2 * t)) := by
    intro k hk
    have known : ∀ v ∈ k.auxiliaries bigM, v.domain = .binary → IsBit (values v.name) := fun v hv =>
      bits v (List.mem_flatMap.mpr ⟨k, hk, hv⟩)
    have ha : k.alternative ∈ d.alternatives := choices ▸ List.mem_map_of_mem hk
    obtain ⟨c, -, ha⟩ := List.mem_flatMap.mp ha
    exact ⟨known _ (k.indicator_mem bigM) rfl, Choice.sound (alternative_relation ha) ht known fun r hr =>
      h r (List.mem_append_left _ (List.mem_flatMap.mpr ⟨k, hk, hr⟩))⟩
  constructor
  · obtain ⟨k, hk, hon⟩ := exists_on_of_closing (fun k hk => (each k hk).1) ht (h (d.closing ks) (by simp))
    exact ⟨k.alternative, choices ▸ List.mem_map_of_mem hk, (each k hk).2.1 hon⟩
  · intro a ha inequality
    rw [← choices] at ha
    obtain ⟨k, hk, rfl⟩ := List.mem_map.mp ha
    obtain ⟨bit, holds, fails⟩ := each k hk
    rcases bit with off | on
    · exact .inr (fails inequality off)
    · exact .inl (holds on)

end Disjunction

/-- The slack of one side of `≠` is near zero, and without it the row of the other side is out of reach. -/
theorem Comparison.separation_sound {c : Comparison Rat} (excluding : c.relation = .ne) {bigM : Rat}
    {above below : Variable Rat} (h : ∀ r ∈ c.separation bigM above below, r.HoldsApart values t) :
    (Constraint.comparison c).HoldsApart values t := by
  simp only [separation, List.forall_mem_cons] at h
  obtain ⟨-, exclusive, high, low, -⟩ := h
  have high := (holdsApart_iff (by simp [derived])).mp high
  have low := (holdsApart_iff (by simp [derived])).mp low
  simp only [Relation.HoldsApart, derived, gap, evalLhs, plusAuxiliary, sumTerms_append, sumTerms_cons,
    sumTerms_nil, Term.eval_single, add_zero, one_mul, neg_mul] at high low
  have apart : 2 * t ≥ c.margin - |c.gap values| := by
    rcases List.pairwise_pair.mp (Sos1.isSatisfied_iff_pairwise.mp exclusive) with near | near
    · have reach := le_abs_self (c.gap values)
      simp only [gap, evalLhs] at reach ⊢
      linarith [(abs_le.mp near).2]
    · have reach := neg_le_abs (c.gap values)
      simp only [gap, evalLhs] at reach ⊢
      linarith [(abs_le.mp near).2]
  simp only [Constraint.HoldsApart, HoldsApart, excluding, Relation.HoldsApart, ↓reduceIte]
  linarith

/-- A member whose switch is off is near zero, and at most one switch is on. -/
theorem Sos1.lower_sound {s : Sos1 Rat} {names : List String}
    (positions : names.length = s.members.length) (ht : t < 1)
    (bits : ∀ n ∈ names, IsBit (values n))
    (h : ∀ r ∈ s.rows (names.map .binary), r.HoldsApart values t) :
    s.isSatisfied values t = true := by
  let switched := s.members.zip (names.map (Variable.binary (α := Rat)))
  have members : switched.map Prod.fst = s.members := List.map_fst_zip (by simp [positions])
  have switches : switched.map Prod.snd = names.map .binary := List.map_snd_zip (by simp [positions])
  have off : ∀ k ∈ switched, values k.2.name = 0 → |values k.1.name| ≤ t := by
    intro k hk zero
    have rows : ∀ r ∈ s.switchedRows k.1 k.2, r.HoldsApart values t := fun r hr =>
      h r (List.mem_append_left _ (List.mem_flatMap.mpr ⟨k, hk, hr⟩))
    simp only [switchedRows, List.forall_mem_cons] at rows
    obtain ⟨high, low, -⟩ := rows
    have high := (Comparison.ofLinear_holdsApart (by decide)).mp high
    have low := (Comparison.ofLinear_holdsApart (by decide)).mp low
    simp only [Relation.HoldsApart, sumTerms_cons, sumTerms_nil, Term.eval_single, zero, mul_zero, one_mul,
      add_zero, sub_zero] at high low
    exact abs_le.mpr ⟨low, high⟩
  have total := (Comparison.ofLinear_holdsApart (by decide)).mp
    (h (.ofLinear ((names.map .binary).map (.single 1)) .le 1 s.margin) (by simp [rows]))
  rw [sumTerms_map_single, one_mul] at total
  have exclusive := pairwise_of_sum_lt_two ((names.map (Variable.binary (α := Rat))).map
    fun v => values v.name)
    (by simpa [Variable.binary] using bits)
    (by
      simp only [Relation.HoldsApart] at total
      linarith)
  rw [← switches, List.pairwise_map, List.pairwise_map] at exclusive
  rw [isSatisfied_iff_pairwise, ← members, List.pairwise_map]
  exact exclusive.imp_of_mem fun hk hl => Or.imp (off _ hk) (off _ hl)

/-- Over bits the result is on exactly when an operand is. -/
theorem BinaryOr.lower_sound {b : BinaryOr Rat} (ht0 : 0 ≤ t) (ht : t < 1)
    (bits : ∀ v ∈ b.occurrences, IsBit (values v.name)) (h : ∀ r ∈ b.lower, r.HoldsApart values t) :
    b.isSatisfied values t = true := by
  have operands : ∀ v ∈ b.operands, values v.name - t ≤ values b.result.name := by
    intro v hv
    have row := (Comparison.ofLinear_holdsApart (by decide)).mp
      (h (.ofLinear [.single 1 b.result, .single (-1) v] .ge 0 defaultMargin)
        (List.mem_append_left _ (List.mem_map_of_mem hv)))
    simp only [Relation.HoldsApart, sumTerms_cons, sumTerms_nil, Term.eval_single] at row
    linarith
  have total := (Comparison.ofLinear_holdsApart (by decide)).mp
    (h (.ofLinear (.single 1 b.result :: b.operands.map (.single (-1))) .le 0 defaultMargin)
      (List.mem_append_right _ List.mem_cons_self))
  have result : IsBit (values b.result.name) := bits _ (by simp [occurrences])
  have exact : values b.result.name = if b.operands.any (fun v => half < values v.name) then 1 else 0 := by
    split
    · rename_i on
      obtain ⟨v, hv, hon⟩ := List.any_eq_true.mp on
      have positive : half < values v.name := by simpa using hon
      have one : values v.name = 1 := (bits v (List.mem_append_left _ hv)).eq_one
        (lt_trans (by decide +kernel) positive)
      exact result.eq_one (by linarith [operands v hv])
    · rename_i off
      have zero : ∀ v ∈ b.operands, values v.name = 0 := by
        intro v hv
        refine (bits v (List.mem_append_left _ hv)).resolve_right fun one => off ?_
        refine List.any_eq_true.mpr ⟨v, hv, ?_⟩
        rw [one]
        decide +kernel
      have none : sumTerms (b.operands.map (.single (-1))) values = 0 := by
        rw [sumTerms_map_single, List.sum_eq_zero, mul_zero]
        intro x hx
        obtain ⟨v, hv, rfl⟩ := List.mem_map.mp hx
        exact zero v hv
      simp only [Relation.HoldsApart, sumTerms_cons, none, Term.eval_single] at total
      exact result.resolve_right fun one => by linarith
  simp only [isSatisfied, Scalar.abs_rat, decide_eq_true_eq]
  rw [← exact]
  simpa using ht0

end Rows

namespace Lowering

variable {bigM : Rat} {c : Constraint Rat} {vs : List (Variable Rat)} {rows : List (Constraint Rat)}
  {values : Assignment Rat} {t : Rat}

/-- What the rows say implies what they stand for. -/
theorem sound (h : Lowering bigM c vs rows) (ht0 : 0 ≤ t) (ht : t < 1) (links : c.LinksBits values)
    (bits : ∀ v ∈ vs, v.domain = .binary → IsBit (values v.name))
    (held : ∀ r ∈ rows, r.HoldsApart values t) : c.HoldsApart values t := by
  cases h with
  | below strict =>
    have row := (Comparison.holdsApart_iff (by simp)).mp (held _ List.mem_cons_self)
    simp only [Relation.HoldsApart, Comparison.gap, Comparison.evalLhs] at row
    refine (Comparison.holdsApart_iff (by simp [strict])).mpr ?_
    simp only [strict, Relation.HoldsApart, Comparison.gap, Comparison.evalLhs]
    linarith
  | above strict =>
    have row := (Comparison.holdsApart_iff (by simp)).mp (held _ List.mem_cons_self)
    simp only [Relation.HoldsApart, Comparison.gap, Comparison.evalLhs] at row
    refine (Comparison.holdsApart_iff (by simp [strict])).mpr ?_
    simp only [strict, Relation.HoldsApart, Comparison.gap, Comparison.evalLhs]
    linarith
  | apart excluding above below => exact Comparison.separation_sound excluding held
  | sos1 s names positions =>
    apply Sos1.lower_sound positions ht
    · intro n hn
      exact bits (.binary n) (List.mem_map_of_mem hn) rfl
    · intro r hr
      exact held _ (List.mem_map_of_mem hr)
  | binaryOr b =>
    apply BinaryOr.lower_sound ht0 ht links
    intro r hr
    exact held _ (List.mem_map_of_mem hr)
  | disjunction d ks choices => exact Disjunction.lower_sound choices ht bits held

/-- Lowering makes no links. -/
theorem rows_linksBits (h : Lowering bigM c vs rows) : ∀ r ∈ rows, r.LinksBits values := by
  intro r hr
  cases r with
  | binaryOr b =>
    obtain ⟨pass, -, feeds⟩ := h.left_to _ hr .binaryOrs rfl
    cases feeds
  | comparison | sos1 | disjunction => trivial

end Lowering
end MixedInteger
