import MixedInteger.Proofs.Completeness

/-!
Disjunctions that grow. A further disjunct is a further way to satisfy the disjunction, but its rows also keep
the values out of its gap, whether or not anybody relies on it.
-/

namespace MixedInteger

theorem Variable.Allows.isBit {v : Variable Rat} {x : Rat} (h : v.Allows x) (binary : v.domain = .binary) :
    IsBit x := by
  have takes := h.1
  rwa [Takes, binary] at takes

/-- The passes that a problem without links needs. -/
def Pass.withoutLinks : List Pass := [.disjunctions, .relations, .sos1s]

/-- Some fitting values of the auxiliaries satisfy all that the passes make of a problem. -/
def Problem.Completable (p : Problem Rat) (values : Assignment Rat) : Prop :=
  ∃ other, (∀ name ∈ p.registry.names, other name = values name) ∧
    (∀ v ∈ (p.after Pass.withoutLinks).registered, v.name ∉ p.registry.names →
      v.Allows (other v.name)) ∧
    ∀ c ∈ (p.after Pass.withoutLinks).constraints, c.isSatisfied other 0 = true

namespace Disjunction

variable {policy : LoweringPolicy Rat} {d : Disjunction Rat} {p : Problem Rat} {values : Assignment Rat}

/-- A disjunction alone can be completed when a disjunct holds and none is in its gap. -/
theorem completable_iff (posted : (Problem.withPolicy policy).add (.disjunction d) = .ok p)
    (big : 1 ≤ policy.bigM) (small : 0 < d.margin ∧ d.margin ≤ 1 / 2)
    (reach : ∀ c ∈ d.disjuncts, |c.gap values| + d.margin ≤ policy.bigM) :
    p.Completable values ↔ (∃ c ∈ d.disjuncts, c.relation.HoldsApart (c.gap values) d.margin 0) ∧
      ∀ c ∈ d.disjuncts, ¬c.relation.InGap (c.gap values) d.margin := by
  have grounded : p.Grounded :=
    (Reachable.step (.step .start (.configured _ policy)) (.posted posted)).grounded
  obtain ⟨staged, -, -, -, joined, hpolicy, -⟩ := Problem.addAll_ok posted
  have only : ∀ c ∈ p.constraints, c = .disjunction d := by
    intro c hc
    simpa [Problem.withPolicy, Problem.constraints] using joined.mem_iff.mp hc
  have present : Constraint.disjunction d ∈ p.constraints := joined.mem_iff.mpr (by simp)
  have links (other : Assignment Rat) : ∀ c ∈ p.constraints, c.LinksBits other := by
    intro c hc
    rw [only c hc]
    trivial
  have ordered : [.disjunctions, .relations].Sublist Pass.withoutLinks := by decide
  have lowered := p.after_lowered ordered
  constructor
  · rintro ⟨other, old, allowed, met⟩
    have bits : p.NewBits (p.after Pass.withoutLinks) other := fun v hv new =>
      (allowed v hv new).isBit
    have held := Problem.after_sound grounded Pass.withoutLinks le_rfl zero_lt_one (links other) bits
      (fun c hc => (lowered c hc).holdsApart_iff.mpr (met c hc)) _ present
    simp only [Constraint.HoldsApart, mul_zero] at held
    have gaps : ∀ c ∈ d.disjuncts, c.gap other = c.gap values := by
      intro c hc
      apply c.gap_congr
      intro v hv
      have known := grounded.known _ present v (List.mem_flatMap.mpr ⟨c, hc, hv⟩)
      exact old _ (known.mem_names grounded.registry)
    obtain ⟨⟨c, hc, holds⟩, clear⟩ := holdsApart_zero_iff.mp held
    refine ⟨⟨c, hc, gaps c hc ▸ holds⟩, ?_⟩
    intro c hc
    rw [← gaps c hc]
    exact clear c hc
  · rintro ⟨chosen, clear⟩
    have room : ∀ c ∈ p.constraints, c.HasRoom p.policy.bigM values := by
      intro c hc
      rw [only c hc, hpolicy]
      refine ⟨small, chosen, ?_, clear⟩
      intro c hc
      change |c.gap values| ≤ policy.bigM - d.margin
      linarith [reach c hc]
    have big : 1 ≤ p.policy.bigM := by rwa [hpolicy]
    obtain ⟨other, extended, met⟩ :=
      Problem.after_complete grounded Pass.withoutLinks big (links values) room
    exact ⟨other, extended.old, extended.new, fun c hc => (met c hc).isSatisfied (lowered c hc)⟩

/-- Appending a disjunct keeps a point exactly when the point is outside the gap of the new disjunct. -/
theorem push_completable_iff {d' : Disjunction Rat} {c : Comparison Rat} {p' : Problem Rat}
    (pushed : d.push c = .ok d') (posted : (Problem.withPolicy policy).add (.disjunction d) = .ok p)
    (posted' : (Problem.withPolicy policy).add (.disjunction d') = .ok p') (big : 1 ≤ policy.bigM)
    (small : 0 < d.margin ∧ d.margin ≤ 1 / 2)
    (reach : ∀ a ∈ d'.disjuncts, |a.gap values| + d.margin ≤ policy.bigM)
    (completable : p.Completable values) :
    p'.Completable values ↔ ¬c.relation.InGap (c.gap values) d.margin := by
  have grown : d' = { d with disjuncts := d.disjuncts ++ [c] } := by
    unfold push at pushed
    split at pushed
    · exact (Except.ok.inj pushed).symm
    · simp [throw, throwThe, MonadExceptOf.throw] at pushed
  subst grown
  have reach' : ∀ a ∈ d.disjuncts, |a.gap values| + d.margin ≤ policy.bigM := fun a ha =>
    reach a (List.mem_append_left _ ha)
  obtain ⟨⟨a, ha, holds⟩, clear⟩ := (completable_iff posted big small reach').mp completable
  rw [completable_iff posted' big small reach]
  constructor
  · rintro ⟨-, clear'⟩
    exact clear' c (by simp)
  · intro outside
    refine ⟨⟨a, List.mem_append_left _ ha, holds⟩, ?_⟩
    intro b hb
    rcases List.mem_append.mp hb with hb | hb
    · exact clear b hb
    · rw [List.mem_singleton.mp hb]
      exact outside

/-- A single variable from some bound on. -/
def fromOn (bound : Rat) : Comparison Rat := .ofLinear [.single 1 (.real "x")] .ge bound defaultMargin

def nonnegative : Disjunction Rat := ⟨[fromOn 0], 1 / 4⟩

theorem nonnegative_push_completable : ∃ d' p', nonnegative.push (fromOn 5) = .ok d' ∧
    (Problem.withPolicy .default).add (.disjunction d') = .ok p' ∧ p'.Completable fun _ => 7 := by
  have posted : (Problem.withPolicy .default).add (.disjunction nonnegative) = .ok _ := rfl
  have pushed : nonnegative.push (fromOn 5) = .ok ⟨[fromOn 0, fromOn 5], 1 / 4⟩ := rfl
  have posted' : (Problem.withPolicy .default).add (.disjunction ⟨[fromOn 0, fromOn 5], 1 / 4⟩) =
    .ok _ := rfl
  have big : (1 : Rat) ≤ LoweringPolicy.default.bigM := by decide +kernel
  have small : 0 < nonnegative.margin ∧ nonnegative.margin ≤ 1 / 2 := by decide +kernel
  refine ⟨_, _, pushed, posted', ?_⟩
  refine (push_completable_iff pushed posted posted' big small ?_ ?_).mpr ?_
  · simp only [← Scalar.abs_rat]
    decide +kernel
  · refine (completable_iff posted big small ?_).mpr ⟨⟨fromOn 0, by simp [nonnegative], ?_⟩, ?_⟩
    · simp only [← Scalar.abs_rat]
      decide +kernel
    · simp only [fromOn, Comparison.ofLinear, Relation.HoldsApart]
      decide +kernel
    · simp only [nonnegative, fromOn, Comparison.ofLinear, List.forall_mem_singleton, Relation.InGap]
      decide +kernel
  · simp only [fromOn, Comparison.ofLinear, Relation.InGap]
    decide +kernel

/-- A point that satisfies the first disjunct clearly is lost to the gap of a second one. -/
theorem nonnegative_push_incompletable : ∃ d' p p', nonnegative.push (fromOn 5) = .ok d' ∧
    (Problem.withPolicy .default).add (.disjunction nonnegative) = .ok p ∧
    (Problem.withPolicy .default).add (.disjunction d') = .ok p' ∧
    (∀ a ∈ d'.disjuncts, |a.gap fun _ => 39 / 8| + 1 / 4 ≤
      (LoweringPolicy.default : LoweringPolicy Rat).bigM) ∧
    (p.Completable fun _ => 39 / 8) ∧ ¬p'.Completable fun _ => 39 / 8 := by
  have posted : (Problem.withPolicy .default).add (.disjunction nonnegative) = .ok _ := rfl
  have posted' : (Problem.withPolicy .default).add (.disjunction ⟨[fromOn 0, fromOn 5], 1 / 4⟩) =
    .ok _ := rfl
  have big : (1 : Rat) ≤ LoweringPolicy.default.bigM := by decide +kernel
  have small : 0 < nonnegative.margin ∧ nonnegative.margin ≤ 1 / 2 := by decide +kernel
  have reach : ∀ a ∈ [fromOn 0, fromOn 5], |a.gap fun _ => 39 / 8| + 1 / 4 ≤
      (LoweringPolicy.default : LoweringPolicy Rat).bigM := by
    simp only [← Scalar.abs_rat]
    decide +kernel
  refine ⟨⟨[fromOn 0, fromOn 5], 1 / 4⟩, _, _, rfl, posted, posted', reach, ?_, ?_⟩
  · refine (completable_iff posted big small ?_).mpr ⟨⟨fromOn 0, by simp [nonnegative], ?_⟩, ?_⟩
    · exact fun a ha => reach a (by simp_all [nonnegative])
    · simp only [fromOn, Comparison.ofLinear, Relation.HoldsApart]
      decide +kernel
    · simp only [nonnegative, fromOn, Comparison.ofLinear, List.forall_mem_singleton, Relation.InGap]
      decide +kernel
  · rw [completable_iff posted' big small reach]
    rintro ⟨-, clear⟩
    refine clear (fromOn 5) (by simp) ?_
    simp only [fromOn, Comparison.ofLinear, Relation.InGap]
    decide +kernel

end Disjunction
end MixedInteger
