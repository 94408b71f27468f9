import MixedInteger.Proofs.Checks
import MixedInteger.Proofs.Rewriting

/-!
The rows that lowering makes: which variables they use, that a problem may hold them, and which pass they
are left to.
-/

namespace MixedInteger

variable {α : Type}

namespace Term

@[simp] theorem occurrences_single (weight : α) (v : Variable α) :
    (Term.single weight v).occurrences = [v] := rfl

end Term

theorem Comparison.validate_ok {c : Comparison α} : c.validate = .ok () ↔ c.lhs ≠ [] := by
  cases h : c.lhs <;> simp [validate, h]

theorem Sos1.validate_ok {s : Sos1 α} :
    s.validate = .ok () ↔ s.members ≠ [] ∧ s.members.length = s.weights.length := by
  unfold validate
  split
  · simp_all
  · split <;> simp_all

theorem BinaryOr.validate_ok {b : BinaryOr α} :
    b.validate = .ok () ↔ b.operands ≠ [] ∧ ∀ v ∈ b.occurrences, v.domain = .binary := by
  unfold validate
  split
  · simp_all
  · split
    case h_1 v hv =>
      have hb := List.find?_some hv
      have hm := List.mem_of_find?_eq_some hv
      simp only [throw_ne_ok, false_iff, not_and]
      exact fun _ h => by simp [h v hm] at hb
    case h_2 hv =>
      simp_all

namespace Disjunction

@[simp] theorem occurrences_row (d : Disjunction α) (lhs : List (Term α)) (relation : Relation)
    (rhs : α) : (d.row lhs relation rhs).occurrences = lhs.flatMap Term.occurrences := rfl

@[simp] theorem occurrences_exclusive [Scalar α] (d : Disjunction α) (bigM : α)
    (members : List (Variable α)) :
    (d.exclusive bigM members).occurrences = members := rfl

theorem alternative_relation {c : Comparison α} {a : Alternative α} (h : a ∈ alternativesOf c) :
    a.relation ≠ .ne := by
  cases hr : c.relation <;> simp [alternativesOf, hr] at h
  case ne => rcases h with rfl | rfl <;> simp
  all_goals subst h; simp

theorem alternative_sides {c : Comparison α} {a : Alternative α} (h : a ∈ alternativesOf c) :
    a.lhs = c.lhs ∧ a.rhs = c.rhs := by
  cases hr : c.relation <;> simp [alternativesOf, hr] at h
  case ne => rcases h with rfl | rfl <;> exact ⟨rfl, rfl⟩
  all_goals subst h; exact ⟨rfl, rfl⟩

theorem alternatives_ne_nil {c : Comparison α} : alternativesOf c ≠ [] := by
  cases hr : c.relation <;> simp [alternativesOf, hr]

theorem alternative_occurrences {d : Disjunction α} {a : Alternative α} (h : a ∈ d.alternatives) :
    ∀ v ∈ a.lhs.flatMap Term.occurrences, v ∈ d.occurrences := by
  obtain ⟨c, hc, ha⟩ := List.mem_flatMap.mp h
  intro v hv
  rw [(alternative_sides ha).1] at hv
  exact List.mem_flatMap.mpr ⟨c, hc, hv⟩

theorem alternatives_map_ne_nil {d : Disjunction α} (h : d.disjuncts ≠ []) : d.alternatives ≠ [] := by
  intro hn
  obtain ⟨c, hc⟩ := List.exists_mem_of_ne_nil _ h
  obtain ⟨a, ha⟩ := List.exists_mem_of_ne_nil _ (alternatives_ne_nil (c := c))
  have : a ∈ d.alternatives := List.mem_flatMap.mpr ⟨c, hc, ha⟩
  rw [hn] at this
  exact List.not_mem_nil this

theorem validate_ok {d : Disjunction α} :
    d.validate = .ok () ↔ d.disjuncts ≠ [] ∧ ∀ c ∈ d.disjuncts, c.lhs ≠ [] := by
  cases h : d.disjuncts with
  | nil => simp [validate, h]
  | cons c cs =>
    have checks : d.validate = (c :: cs).forM Comparison.validate := by simp [validate, h]
    rw [checks, forM_ok]
    simp only [Comparison.validate_ok, ne_eq, reduceCtorEq, not_false_eq_true, true_and]

namespace Choice

variable [Scalar α]

theorem indicator_mem (bigM : α) (k : Choice α) : k.indicator ∈ k.auxiliaries bigM := by
  unfold auxiliaries
  split <;> simp [indicator]

theorem rows_occurrences (d : Disjunction α) (bigM : α) (k : Choice α) :
    ∀ r ∈ k.rows d bigM, ∀ v ∈ r.occurrences,
      v ∈ k.alternative.lhs.flatMap Term.occurrences ∨ v ∈ k.auxiliaries bigM := by
  intro r hr v hv
  unfold rows at hr
  unfold auxiliaries
  split at hr
  · simp only [equalityRows, List.mem_cons, List.not_mem_nil, or_false] at hr
    rcases hr with rfl | rfl | rfl | rfl <;>
      simp [Comparison.plusAuxiliary] at hv ⊢ <;> grind
  · simp only [inequalityRows, List.mem_cons, List.not_mem_nil, or_false] at hr
    rcases hr with rfl | rfl | rfl | rfl | rfl | rfl | rfl <;>
      simp [Comparison.plusAuxiliary] at hv ⊢ <;> grind

theorem auxiliaries_occur (d : Disjunction α) (bigM : α) (k : Choice α) :
    ∀ v ∈ k.auxiliaries bigM, ∃ r ∈ k.rows d bigM, v ∈ r.occurrences := by
  intro v hv
  unfold auxiliaries at hv
  unfold rows
  split at hv
  · refine ⟨d.exclusive bigM [.slack bigM k.phi, .slack bigM k.psi, .binary k.on],
      by simp [equalityRows], ?_⟩
    simp at hv ⊢
    tauto
  · simp only [List.mem_cons, List.not_mem_nil, or_false] at hv
    rcases hv with rfl | rfl | rfl | rfl
    · exact ⟨d.exclusive bigM [.slack bigM k.phi, .binary k.on], by simp [inequalityRows], by simp⟩
    · exact ⟨d.exclusive bigM [.slack bigM k.psi, .binary k.off], by simp [inequalityRows], by simp⟩
    · exact ⟨d.exclusive bigM [.slack bigM k.phi, .binary k.on], by simp [inequalityRows], by simp⟩
    · exact ⟨d.exclusive bigM [.slack bigM k.psi, .binary k.off], by simp [inequalityRows], by simp⟩

theorem rows_valid (d : Disjunction α) (bigM : α) (k : Choice α) :
    ∀ r ∈ k.rows d bigM, r.validate = .ok () := by
  intro r hr
  have row (lhs : List (Term α)) (t : Term α) (relation : Relation) (rhs : α) :
      (d.row (lhs ++ [t]) relation rhs).validate = .ok () :=
    Comparison.validate_ok.mpr (by simp [Comparison.ofLinear])
  have exclusive (v : Variable α) (vs : List (Variable α)) :
      (d.exclusive bigM (v :: vs)).validate = .ok () :=
    Sos1.validate_ok.mpr (by simp [Sos1.ofMembers, Sos1.weighted])
  unfold rows at hr
  split at hr
  · simp only [equalityRows, List.mem_cons, List.not_mem_nil, or_false] at hr
    rcases hr with rfl | rfl | rfl | rfl
    exacts [row _ _ _ _, row _ _ _ _, row [_, _] _ _ _, exclusive _ _]
  · simp only [inequalityRows, List.mem_cons, List.not_mem_nil, or_false] at hr
    rcases hr with rfl | rfl | rfl | rfl | rfl | rfl | rfl
    exacts [row [_] _ _ _, row _ _ _ _, row _ _ _ _, row [_] _ _ _, row [_] _ _ _, exclusive _ _,
      exclusive _ _]

end Choice
end Disjunction

/-- A pass makes constraints that another has to take out. -/
inductive Pass.Feeds : Pass → Pass → Prop where
  | disjunctionsRelations : Feeds .disjunctions .relations
  | disjunctionsSos1s : Feeds .disjunctions .sos1s
  | relationsSos1s : Feeds .relations .sos1s

variable [Scalar α]

/-- The rows of a set: two for each switched member, and the limit on the switches. -/
theorem Sos1.mem_rows {s : Sos1 α} {switches : List (Variable α)} {r : Comparison α}
    (h : r ∈ s.rows switches) :
    (∃ m ∈ s.members, ∃ w ∈ switches,
      r = .ofLinear [.single 1 m, .single (-s.bound) w] .le 0 s.margin ∨
        r = .ofLinear [.single 1 m, .single s.bound w] .ge 0 s.margin) ∨
      r = .ofLinear (switches.map (.single 1)) .le 1 s.margin := by
  rcases List.mem_append.mp h with h | h
  · obtain ⟨⟨m, w⟩, hz, h⟩ := List.mem_flatMap.mp h
    obtain ⟨hm, hw⟩ := List.of_mem_zip hz
    exact .inl ⟨m, hm, w, hw, by simpa [switchedRows] using h⟩
  · exact .inr (List.mem_singleton.mp h)

/-- Two rows for each position, and the limit on the switches. -/
theorem Sos1.length_rows (s : Sos1 α) {switches : List (Variable α)}
    (positions : switches.length = s.members.length) :
    (s.rows switches).length = 2 * s.members.length + 1 := by
  simp only [rows, switchedRows, List.length_append, List.length_flatMap, List.length_cons, List.length_nil,
    List.map_const', List.sum_replicate_nat, List.length_zip, positions, Nat.min_self]
  omega

theorem Sos1.rows_canonical (s : Sos1 α) {switches : List (Variable α)} :
    ∀ r ∈ s.rows switches, r.relation.isCanonical = true := by
  intro r hr
  rcases mem_rows hr with ⟨m, -, w, -, rfl | rfl⟩ | rfl <;> rfl

/-- The rows of a link: one for each operand, and one for all of them. -/
theorem BinaryOr.mem_lower {b : BinaryOr α} {r : Comparison α} (h : r ∈ b.lower) :
    (∃ v ∈ b.operands, r = .ofLinear [.single 1 b.result, .single (-1) v] .ge 0 defaultMargin) ∨
      r = .ofLinear (.single 1 b.result :: b.operands.map (.single (-1))) .le 0 defaultMargin := by
  rcases List.mem_append.mp h with h | h
  · obtain ⟨v, hv, rfl⟩ := List.mem_map.mp h
    exact .inl ⟨v, hv, rfl⟩
  · exact .inr (List.mem_singleton.mp h)

theorem BinaryOr.lower_canonical (b : BinaryOr α) : ∀ r ∈ b.lower, r.relation.isCanonical = true := by
  intro r hr
  rcases mem_lower hr with ⟨v, -, rfl⟩ | rfl <;> rfl

namespace Lowering

variable {bigM : α} {c : Constraint α} {vs : List (Variable α)} {rows : List (Constraint α)}

/-- Rows use the variables of what they stand for, and auxiliaries. -/
theorem occurrences (h : Lowering bigM c vs rows) :
    ∀ r ∈ rows, ∀ v ∈ r.occurrences, v ∈ c.occurrences ∨ v ∈ vs := by
  intro r hr v hv
  cases h with
  | below strict | above strict =>
    simp only [List.mem_singleton] at hr
    subst hr
    exact .inl hv
  | apart excluding above below =>
    simp only [Comparison.separation, List.mem_cons, List.not_mem_nil, or_false] at hr
    rcases hr with rfl | rfl | rfl | rfl <;>
      simp [Constraint.occurrences, Comparison.occurrences, Comparison.derived, Sos1.ofMembers,
        Sos1.weighted, Comparison.plusAuxiliary] at hv ⊢ <;> grind
  | sos1 s names positions =>
    obtain ⟨row, hrow, rfl⟩ := List.mem_map.mp hr
    rcases Sos1.mem_rows hrow with ⟨m, hm, w, hw, rfl | rfl⟩ | rfl
    · simp [Constraint.occurrences, Comparison.occurrences, Comparison.ofLinear] at hv ⊢
      grind
    · simp [Constraint.occurrences, Comparison.occurrences, Comparison.ofLinear] at hv ⊢
      grind
    · simp [Constraint.occurrences, Comparison.occurrences, Comparison.ofLinear,
        List.flatMap_map] at hv ⊢
      grind
  | binaryOr b =>
    obtain ⟨row, hrow, rfl⟩ := List.mem_map.mp hr
    rcases BinaryOr.mem_lower hrow with ⟨w, hw, rfl⟩ | rfl <;>
      simp [Constraint.occurrences, Comparison.occurrences, Comparison.ofLinear, BinaryOr.occurrences,
        List.flatMap_map] at hv ⊢ <;> grind
  | disjunction d ks choices =>
    rcases List.mem_append.mp hr with hr | hr
    · obtain ⟨k, hk, hr⟩ := List.mem_flatMap.mp hr
      rcases k.rows_occurrences d bigM r hr v hv with hv | hv
      · have ha : k.alternative ∈ d.alternatives := choices ▸ List.mem_map_of_mem hk
        exact .inl (Disjunction.alternative_occurrences ha v hv)
      · exact .inr (List.mem_flatMap.mpr ⟨k, hk, hv⟩)
    · simp only [List.mem_singleton] at hr
      subst hr
      simp only [Disjunction.closing, Disjunction.occurrences_row, List.flatMap_map,
        Term.occurrences_single, List.mem_flatMap, List.mem_singleton] at hv
      obtain ⟨k, hk, rfl⟩ := hv
      exact .inr (List.mem_flatMap.mpr ⟨k, hk, k.indicator_mem bigM⟩)

/-- No auxiliary is drawn in vain. -/
theorem auxiliaries_occur (h : Lowering bigM c vs rows) :
    ∀ v ∈ vs, ∃ r ∈ rows, v ∈ r.occurrences := by
  intro v hv
  cases h with
  | below strict | above strict | binaryOr b => simp at hv
  | apart excluding above below =>
    refine ⟨_, List.mem_cons_self, ?_⟩
    simpa [Constraint.occurrences, Comparison.occurrences, Comparison.derived] using hv
  | sos1 s names positions =>
    refine ⟨_, List.mem_map_of_mem (List.mem_append_right _ List.mem_cons_self), ?_⟩
    simpa [Constraint.occurrences, Comparison.occurrences, Comparison.ofLinear, List.flatMap_map,
      ← List.map_eq_flatMap] using hv
  | disjunction d ks choices =>
    obtain ⟨k, hk, hv⟩ := List.mem_flatMap.mp hv
    obtain ⟨r, hr, hv⟩ := k.auxiliaries_occur d bigM v hv
    exact ⟨r, List.mem_append_left _ (List.mem_flatMap.mpr ⟨k, hk, hr⟩), hv⟩

/-- What a problem could hold turns into what it can hold. -/
theorem valid (h : Lowering bigM c vs rows) (hc : c.validate = .ok ()) :
    ∀ r ∈ rows, r.validate = .ok () := by
  intro r hr
  cases h with
  | below strict | above strict =>
    simp only [List.mem_singleton] at hr
    subst hr
    exact Comparison.validate_ok.mpr (Comparison.validate_ok.mp hc :)
  | apart excluding above below =>
    simp only [Comparison.separation, List.mem_cons, List.not_mem_nil, or_false] at hr
    rcases hr with rfl | rfl | rfl | rfl
    case inr.inl =>
      exact Sos1.validate_ok.mpr ⟨by simp [Sos1.ofMembers, Sos1.weighted],
        by simp [Sos1.ofMembers, Sos1.weighted]⟩
    all_goals
      exact Comparison.validate_ok.mpr (by simp [Comparison.derived, Comparison.plusAuxiliary])
  | sos1 s names positions =>
    obtain ⟨row, hrow, rfl⟩ := List.mem_map.mp hr
    obtain ⟨hm, -⟩ := Sos1.validate_ok.mp hc
    have hn : names ≠ [] := by
      rintro rfl
      exact hm (List.eq_nil_of_length_eq_zero positions.symm)
    refine Comparison.validate_ok.mpr ?_
    rcases Sos1.mem_rows hrow with ⟨m, -, w, -, rfl | rfl⟩ | rfl
    · simp [Comparison.ofLinear]
    · simp [Comparison.ofLinear]
    · simpa [Comparison.ofLinear] using hn
  | binaryOr b =>
    obtain ⟨row, hrow, rfl⟩ := List.mem_map.mp hr
    refine Comparison.validate_ok.mpr ?_
    rcases BinaryOr.mem_lower hrow with ⟨w, -, rfl⟩ | rfl <;> simp [Comparison.ofLinear]
  | disjunction d ks choices =>
    rcases List.mem_append.mp hr with hr | hr
    · obtain ⟨k, -, hr⟩ := List.mem_flatMap.mp hr
      exact k.rows_valid d bigM r hr
    · simp only [List.mem_singleton] at hr
      subst hr
      have hk : ks ≠ [] := by
        rintro rfl
        exact Disjunction.alternatives_map_ne_nil (Disjunction.validate_ok.mp hc).1 choices.symm
      exact Comparison.validate_ok.mpr (by simpa [Comparison.ofLinear] using hk)

/-- Rows are left to later passes only. -/
theorem left_to (h : Lowering bigM c vs rows) :
    ∀ r ∈ rows, ∀ later, r.takenBy = some later →
      ∃ pass, c.takenBy = some pass ∧ pass.Feeds later := by
  intro r hr later hl
  cases h with
  | below strict | above strict =>
    simp only [List.mem_singleton] at hr
    subst hr
    simp [Constraint.takenBy, Relation.isCanonical] at hl
  | apart excluding above below =>
    refine ⟨.relations, by simp [Constraint.takenBy, excluding, Relation.isCanonical], ?_⟩
    simp only [Comparison.separation, List.mem_cons, List.not_mem_nil, or_false] at hr
    rcases hr with rfl | rfl | rfl | rfl <;>
      simp [Constraint.takenBy, Comparison.derived, Relation.isCanonical] at hl
    subst hl
    exact .relationsSos1s
  | sos1 s names positions =>
    obtain ⟨row, hrow, rfl⟩ := List.mem_map.mp hr
    simp [Constraint.takenBy, s.rows_canonical row hrow] at hl
  | binaryOr b =>
    obtain ⟨row, hrow, rfl⟩ := List.mem_map.mp hr
    simp [Constraint.takenBy, b.lower_canonical row hrow] at hl
  | disjunction d ks choices =>
    refine ⟨.disjunctions, rfl, ?_⟩
    cases r with
    | comparison c =>
      simp only [Constraint.takenBy] at hl
      split at hl
      · simp at hl
      · exact Option.some.inj hl ▸ .disjunctionsRelations
    | sos1 s => exact Option.some.inj hl ▸ .disjunctionsSos1s
    | disjunction d' | binaryOr b =>
      rcases List.mem_append.mp hr with hr | hr
      · obtain ⟨k, -, hr⟩ := List.mem_flatMap.mp hr
        simp only [Disjunction.Choice.rows] at hr
        split at hr <;> simp [Disjunction.equalityRows, Disjunction.inequalityRows, Disjunction.row,
          Disjunction.exclusive] at hr
      · simp [Disjunction.closing, Disjunction.row] at hr

end Lowering
end MixedInteger
