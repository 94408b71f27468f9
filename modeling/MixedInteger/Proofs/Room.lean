import MixedInteger.Proofs.RowShape
import MixedInteger.Proofs.Separation

/-!
Room: values that satisfy a constraint in such a way that its rows can follow. They stay out of the gaps that
strictness leaves and within the reach of the slack variables.
-/

namespace MixedInteger

/-- Strictly between the two sides that a margin separates, where neither the relation nor its complement can
be met. An equality asks for no separation. -/
def Relation.InGap (r : Relation) (gap margin : Rat) : Prop :=
  match r with
  | lt | ge => -margin < gap ∧ gap < 0
  | le | gt => 0 < gap ∧ gap < margin
  | eq => False
  | ne => (-margin < gap ∧ gap < 0) ∨ (0 < gap ∧ gap < margin)

/-- Satisfied, and for `≠` within the reach of both slack variables. -/
structure Comparison.HasRoom (bigM : Rat) (values : Assignment Rat) (c : Comparison Rat) : Prop where
  holds : c.HoldsApart values 0
  reach : c.relation = .ne → 0 < c.margin ∧ |c.gap values| ≤ bigM - c.margin

/-- At most one position is away from zero, and no further than the bound. -/
structure Sos1.HasRoom (values : Assignment Rat) (s : Sos1 Rat) : Prop where
  exclusive : s.isSatisfied values 0 = true
  reach : ∀ v ∈ s.members, values v.name ≠ 0 → |values v.name| ≤ s.bound

/-- Some disjunct holds, all of them are in reach, and none is in its gap. -/
structure Disjunction.HasRoom (bigM : Rat) (values : Assignment Rat) (d : Disjunction Rat) : Prop where
  margin : 0 < d.margin ∧ d.margin ≤ 1 / 2
  chosen : ∃ c ∈ d.disjuncts, c.relation.HoldsApart (c.gap values) d.margin 0
  reach : ∀ c ∈ d.disjuncts, |c.gap values| ≤ bigM - d.margin
  clear : ∀ c ∈ d.disjuncts, ¬c.relation.InGap (c.gap values) d.margin

def Constraint.HasRoom (bigM : Rat) (values : Assignment Rat) : Constraint Rat → Prop
  | comparison c => c.HasRoom bigM values
  | sos1 s => s.HasRoom values
  | disjunction d => d.HasRoom bigM values
  | binaryOr b => b.isSatisfied values 0 = true

section Congruence

variable {values other : Assignment Rat} {bigM : Rat}

theorem Comparison.gap_congr {c : Comparison Rat}
    (h : ∀ v ∈ c.occurrences, other v.name = values v.name) : c.gap other = c.gap values := by
  unfold gap evalLhs
  rw [sumTerms_congr h]

theorem Comparison.isSatisfied_congr {c : Comparison Rat} {tolerance : Rat}
    (h : ∀ v ∈ c.occurrences, other v.name = values v.name) :
    c.isSatisfied other tolerance = c.isSatisfied values tolerance := by
  unfold isSatisfied evalLhs
  rw [sumTerms_congr h]

theorem Comparison.HasRoom.congr {c : Comparison Rat} (room : c.HasRoom bigM values)
    (h : ∀ v ∈ c.occurrences, other v.name = values v.name) : c.HasRoom bigM other := by
  have gaps := c.gap_congr h
  constructor
  · rw [HoldsApart, gaps]
    exact room.holds
  · rw [gaps]
    exact room.reach

theorem Sos1.HasRoom.congr {s : Sos1 Rat} (room : s.HasRoom values)
    (h : ∀ v ∈ s.members, other v.name = values v.name) : s.HasRoom other := by
  constructor
  · rw [isSatisfied_iff_pairwise]
    refine (isSatisfied_iff_pairwise.mp room.exclusive).imp_of_mem ?_
    intro v w hv hw near
    rwa [h v hv, h w hw]
  · intro v hv
    rw [h v hv]
    exact room.reach v hv

theorem Disjunction.HasRoom.congr {d : Disjunction Rat} (room : d.HasRoom bigM values)
    (h : ∀ v ∈ d.occurrences, other v.name = values v.name) : d.HasRoom bigM other := by
  have gaps : ∀ c ∈ d.disjuncts, c.gap other = c.gap values := by
    intro c hc
    apply Comparison.gap_congr
    intro v hv
    exact h v (List.mem_flatMap.mpr ⟨c, hc, hv⟩)
  refine ⟨room.margin, ?_, ?_, ?_⟩
  · obtain ⟨c, hc, holds⟩ := room.chosen
    exact ⟨c, hc, (gaps c hc).symm ▸ holds⟩
  · intro c hc
    rw [gaps c hc]
    exact room.reach c hc
  · intro c hc
    rw [gaps c hc]
    exact room.clear c hc

theorem BinaryOr.isSatisfied_congr {b : BinaryOr Rat} {tolerance : Rat}
    (h : ∀ v ∈ b.occurrences, other v.name = values v.name) :
    b.isSatisfied other tolerance = b.isSatisfied values tolerance := by
  have result : other b.result.name = values b.result.name := h _ (by simp [occurrences])
  have operands : b.operands.any (fun v => half < other v.name) =
      b.operands.any (fun v => half < values v.name) := by
    rw [Bool.eq_iff_iff, List.any_eq_true, List.any_eq_true]
    refine exists_congr fun v => and_congr_right fun hv => ?_
    rw [h v (List.mem_append_left _ hv)]
  simp only [isSatisfied, result, operands]

/-- Room is a matter of the variables that occur. -/
theorem Constraint.HasRoom.congr {c : Constraint Rat} (room : c.HasRoom bigM values)
    (h : ∀ v ∈ c.occurrences, other v.name = values v.name) : c.HasRoom bigM other := by
  cases c with
  | comparison c => exact Comparison.HasRoom.congr room h
  | sos1 s => exact Sos1.HasRoom.congr room h
  | disjunction d => exact Disjunction.HasRoom.congr room h
  | binaryOr b => exact (BinaryOr.isSatisfied_congr h).trans room

/-- So is satisfaction. -/
theorem Constraint.isSatisfied_congr {c : Constraint Rat} {tolerance : Rat}
    (h : ∀ v ∈ c.occurrences, other v.name = values v.name) :
    c.isSatisfied other tolerance = c.isSatisfied values tolerance := by
  cases c with
  | comparison c => exact Comparison.isSatisfied_congr h
  | sos1 s =>
    simp only [isSatisfied, Sos1.isSatisfied]
    rw [List.countP_congr fun v hv => by rw [h v hv]]
  | disjunction d =>
    simp only [isSatisfied, Disjunction.isSatisfied]
    rw [Bool.eq_iff_iff, List.any_eq_true, List.any_eq_true]
    refine exists_congr fun c => and_congr_right fun hc => ?_
    rw [Comparison.isSatisfied_congr fun v hv => h v (List.mem_flatMap.mpr ⟨c, hc, hv⟩)]
  | binaryOr b => exact BinaryOr.isSatisfied_congr h

theorem Constraint.LinksBits.congr {c : Constraint Rat} (links : c.LinksBits values)
    (h : ∀ v ∈ c.occurrences, other v.name = values v.name) : c.LinksBits other := by
  cases c with
  | binaryOr b =>
    intro v hv
    rw [h v hv]
    exact links v hv
  | comparison | sos1 | disjunction => trivial

end Congruence

namespace Relation

/-- Outside its gap a relation holds or fails clearly. -/
theorem not_inGap_iff {r : Relation} (h : r ≠ .eq ∧ r ≠ .ne) {gap margin : Rat} :
    ¬r.InGap gap margin ↔ r.HoldsApart gap margin 0 ∨ r.complement.HoldsApart gap margin 0 := by
  cases r with
  | eq => exact absurd rfl h.1
  | ne => exact absurd rfl h.2
  | lt | le | ge | gt =>
    simp only [InGap, HoldsApart, complement]
    grind

end Relation

namespace Disjunction

variable {values : Assignment Rat}

theorem alternatives_chosen_iff {c : Comparison Rat} {margin : Rat} :
    (∃ a ∈ alternativesOf c, a.HoldsApart values margin 0) ↔
      c.relation.HoldsApart (c.gap values) margin 0 := by
  cases hr : c.relation with
  | ne =>
    simp only [alternativesOf, hr, List.mem_cons, List.not_mem_nil, or_false, exists_eq_or_imp,
      exists_eq_left, Alternative.HoldsApart, Alternative.gap, Relation.HoldsApart, Comparison.gap,
      Comparison.evalLhs, sub_zero, zero_sub, le_abs']
    grind
  | lt | le | eq | ge | gt =>
    simp only [alternativesOf, hr, List.mem_singleton, exists_eq_left]
    exact Iff.rfl

theorem alternatives_clear_iff {c : Comparison Rat} {margin : Rat} :
    (∀ a ∈ alternativesOf c, a.relation ≠ .eq →
      a.HoldsApart values margin 0 ∨ a.FailsApart values margin 0) ↔
      ¬c.relation.InGap (c.gap values) margin := by
  cases hr : c.relation with
  | ne =>
    simp only [alternativesOf, hr, List.mem_cons, List.not_mem_nil, or_false, forall_eq_or_imp, forall_eq,
      ne_eq, reduceCtorEq, not_false_eq_true, forall_const, Alternative.HoldsApart,
      Alternative.FailsApart, Alternative.gap, Relation.complement, Relation.HoldsApart, Comparison.gap,
      Comparison.evalLhs, Relation.InGap]
    grind
  | eq => simp [alternativesOf, hr, Relation.InGap]
  | lt | le | ge | gt =>
    simp only [alternativesOf, hr, List.mem_singleton, forall_eq, ne_eq, reduceCtorEq, not_false_eq_true,
      forall_const]
    exact (Relation.not_inGap_iff (by simp)).symm

/-- Without slack a disjunction is held when a disjunct holds and none is in its gap. -/
theorem holdsApart_zero_iff {d : Disjunction Rat} : d.HoldsApart values 0 ↔
    (∃ c ∈ d.disjuncts, c.relation.HoldsApart (c.gap values) d.margin 0) ∧
      ∀ c ∈ d.disjuncts, ¬c.relation.InGap (c.gap values) d.margin := by
  constructor
  · intro h
    constructor
    · obtain ⟨a, ha, holds⟩ := h.chosen
      obtain ⟨c, hc, ha⟩ := List.mem_flatMap.mp ha
      exact ⟨c, hc, alternatives_chosen_iff.mp ⟨a, ha, holds⟩⟩
    · intro c hc
      apply alternatives_clear_iff.mp
      intro a ha
      exact h.clear a (List.mem_flatMap.mpr ⟨c, hc, ha⟩)
  · rintro ⟨⟨c, hc, holds⟩, clear⟩
    constructor
    · obtain ⟨a, ha, holds⟩ := alternatives_chosen_iff.mpr holds
      exact ⟨a, List.mem_flatMap.mpr ⟨c, hc, ha⟩, holds⟩
    · intro a ha
      obtain ⟨c, hc, ha⟩ := List.mem_flatMap.mp ha
      exact alternatives_clear_iff.mpr (clear c hc) a ha

end Disjunction
end MixedInteger
