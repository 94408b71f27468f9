import MixedInteger.Proofs.Auxiliaries
import MixedInteger.Proofs.Convergence
import MixedInteger.Proofs.RowCompleteness
import MixedInteger.Proofs.Soundness

/-!
Completeness of lowering: values with room for every constraint of a problem extend to the lowered problem, on
the variables that lowering registered and on nothing else.
-/

namespace MixedInteger

namespace Problem

/-- The variables that came later have fitting values, and nothing else changed. -/
structure Extension (p q : Problem Rat) (values other : Assignment Rat) : Prop where
  old : ∀ name ∈ p.registry.names, other name = values name
  outside : ∀ name, name ∉ q.registry.names → other name = values name
  new : ∀ v ∈ q.registered, v.name ∉ p.registry.names → v.Allows (other v.name)

theorem Extension.trans {p q r : Problem Rat} {one two three : Assignment Rat}
    (first : p.Extension q one two) (second : q.Extension r two three) (earlier : p.Continues q)
    (later : q.Continues r) (consistent : r.registry.Consistent) : p.Extension r one three := by
  have names {p q : Problem Rat} (h : p.Continues q) : p.registry.names ⊆ q.registry.names :=
    List.map_subset _ h.subset
  refine ⟨?_, ?_, ?_⟩
  · intro name hn
    rw [second.old name (names earlier hn), first.old name hn]
  · intro name hn
    rw [second.outside name hn, first.outside name fun h => hn (names later h)]
  · intro v hv new
    by_cases known : v.name ∈ q.registry.names
    · rw [second.old _ known]
      exact first.new v (later.registered consistent hv known) new
    · exact second.new v hv known

end Problem

namespace Rewriting

variable {bigM : Rat}

/-- Every row has room, with fitting values of the auxiliaries. -/
structure Met (w : Rewriting bigM) (values : Assignment Rat) : Prop where
  rows : ∀ r ∈ w.rows, r.HasRoom bigM values
  allowed : ∀ v ∈ w.auxiliaries, v.Allows (values v.name)

theorem Met.congr {w : Rewriting bigM} {one two : Assignment Rat} (h : w.Met one)
    (same : ∀ v ∈ w.source.occurrences ++ w.auxiliaries, two v.name = one v.name) : w.Met two := by
  constructor
  · intro r hr
    apply (h.rows r hr).congr
    intro v hv
    exact same v (List.mem_append.mpr (w.lowers.occurrences r hr v hv))
  · intro v hv
    rw [same v (List.mem_append_right _ hv)]
    exact h.allowed v hv

end Rewriting

namespace Passed

variable {p q : Problem Rat} {pass : Pass} {kept : List (Constraint Rat)}
  {ws : List (Rewriting p.policy.bigM)} {values : Assignment Rat}

/-- Values with room before a pass extend to values with room after it. -/
theorem complete (h : Passed p pass kept ws q) (hp : p.Grounded) (big : 1 ≤ p.policy.bigM)
    (links : ∀ c ∈ p.constraints, c.LinksBits values)
    (room : ∀ c ∈ p.constraints, c.HasRoom p.policy.bigM values) :
    ∃ other, p.Extension q values other ∧ (∀ c ∈ q.constraints, c.LinksBits other) ∧
      ∀ c ∈ q.constraints, c.HasRoom p.policy.bigM other := by
  have known : ∀ c ∈ p.constraints, ∀ v ∈ c.occurrences, v.name ∈ p.registry.names :=
    fun c hc v hv => (hp.known c hc v hv).mem_names hp.registry
  have own : ∀ w ∈ ws, ∀ v ∈ w.source.occurrences ++ w.auxiliaries,
      v ∈ w.auxiliaries ∨ v.name ∈ p.registry.names := by
    intro w hw v hv
    rcases List.mem_append.mp hv with hv | hv
    · exact .inr (known _ (h.source_mem hw) v hv)
    · exact .inl hv
  obtain ⟨other, agree, met⟩ := Assignment.exists_joint ws (·.auxiliaries)
    (fun w => w.source.occurrences ++ w.auxiliaries) Rewriting.Met (· ∈ p.registry.names) values
    h.drawn.nodup h.drawn.free own (fun w _ one two same met => met.congr same) (by
      -- Room was had before the pass, and the rewriting of other constraints does not touch it.
      intro w hw distinct one fixed
      have same : ∀ v ∈ w.source.occurrences, one v.name = values v.name := fun v hv =>
        fixed _ (known _ (h.source_mem hw) v hv)
      have unread : ∀ v ∈ w.source.occurrences, v.name ∉ w.auxiliaries.map (·.name) := by
        intro v hv hm
        obtain ⟨u, hu, he⟩ := List.mem_map.mp hm
        exact h.drawn.free u (List.mem_flatMap.mpr ⟨w, hw, hu⟩) (he ▸ known _ (h.source_mem hw) v hv)
      obtain ⟨two, agree, rows, allowed⟩ := w.lowers.complete big distinct unread
        ((links _ (h.source_mem hw)).congr same) ((room _ (h.source_mem hw)).congr same)
      exact ⟨two, agree, rows, allowed⟩)
  have old : ∀ name ∈ p.registry.names, other name = values name := by
    intro name hn
    apply agree
    intro hm
    obtain ⟨v, hv, rfl⟩ := List.mem_map.mp hm
    exact h.drawn.free v hv hn
  refine ⟨other, ⟨old, ?_, ?_⟩, ?_, ?_⟩
  · intro name hn
    apply agree
    intro hm
    obtain ⟨v, hv, rfl⟩ := List.mem_map.mp hm
    exact hn (h.auxiliary_registered hp v hv)
  · intro v hv new
    obtain ⟨w, hw, hv⟩ := List.mem_flatMap.mp (h.new_auxiliary hp hv new)
    exact (met w hw).allowed v hv
  · apply h.linksBits
    intro c hc
    exact (links c hc).congr fun v hv => old _ (known c hc v hv)
  · intro c hc
    rcases h.mem_after hc with hk | ⟨w, hw, hr⟩
    · have hc := h.kept_mem hk
      exact (room c hc).congr fun v hv => old _ (known c hc v hv)
    · exact (met w hw).rows c hr

end Passed

namespace Problem

/-- A disjunction is not left, nor is a relation that only lowering understands. -/
theorem after_lowered {α : Type} [Scalar α] (p : Problem α) {passes : List Pass}
    (ordered : [.disjunctions, .relations].Sublist passes) :
    ∀ c ∈ (p.after passes).constraints, c.IsLowered := by
  obtain ⟨disjunctions, relations⟩ := p.after_clear_relations ordered
  intro c hc
  cases c with
  | comparison c => exact clear_iff.mp relations c (mem_constraints.mp hc)
  | disjunction d => exact disjunctions _ hc rfl
  | sos1 | binaryOr => trivial

theorem lower_constraints {α : Type} [Scalar α] (p : Problem α) :
    ∀ c ∈ p.lower.1.constraints, c.IsLowered :=
  isLowered_constraints p.lower_isLowered

variable {p : Problem Rat} {values : Assignment Rat}

theorem after_complete (hp : p.Grounded) (passes : List Pass) (big : 1 ≤ p.policy.bigM)
    (links : ∀ c ∈ p.constraints, c.LinksBits values)
    (room : ∀ c ∈ p.constraints, c.HasRoom p.policy.bigM values) :
    ∃ other, p.Extension (p.after passes) values other ∧
      ∀ c ∈ (p.after passes).constraints, c.HasRoom p.policy.bigM other := by
  induction passes generalizing p values with
  | nil =>
    refine ⟨values, ⟨fun _ _ => rfl, fun _ _ => rfl, ?_⟩, room⟩
    intro v hv new
    exact absurd (Registry.Knows.mem_names hp.registry ⟨v, hv, rfl, rfl⟩) new
  | cons pass passes ih =>
    obtain ⟨kept, ws, passed⟩ := p.substitute_passed pass
    obtain ⟨one, extends_one, links, room⟩ := passed.complete hp big links room
    rw [← passed.policy] at big room
    obtain ⟨two, extends_two, room⟩ := ih (passed.grounded hp) big links room
    rw [passed.policy] at room
    have consistent := ((passed.grounded hp).after passes).1.registry
    have extended :=
      extends_one.trans extends_two passed.continues (after_continues _ passes) consistent
    exact ⟨two, extended, room⟩

end Problem

/-- In a lowered problem, room is more than satisfaction. -/
theorem Constraint.HasRoom.isSatisfied {c : Constraint Rat} {bigM : Rat} {values : Assignment Rat}
    (room : c.HasRoom bigM values) (lowered : c.IsLowered) : c.isSatisfied values 0 = true := by
  apply lowered.holdsApart_iff.mp
  cases c with
  | comparison c => exact Comparison.HasRoom.holds room
  | sos1 s => exact Sos1.HasRoom.exclusive room
  | disjunction d => exact False.elim lowered
  | binaryOr b => exact room

/-- Lowering cuts off no values with room: they extend to values of the lowered problem. -/
theorem Reachable.lower_extends {p : Problem Rat} (reachable : Reachable p) (big : 1 ≤ p.policy.bigM)
    {values : Assignment Rat} (bits : p.BitsOn values)
    (room : ∀ c ∈ p.constraints, c.HasRoom p.policy.bigM values) :
    ∃ other, p.Extension p.lower.1 values other ∧
      ∀ c ∈ p.lower.1.constraints, c.isSatisfied other 0 = true := by
  have grounded := reachable.grounded
  obtain ⟨other, extended, met⟩ :=
    Problem.after_complete grounded p.policy.passes big (grounded.linksBits bits) room
  refine ⟨other, ?_, ?_⟩
  · rw [Problem.lower_after]
    exact ⟨extended.old, extended.outside, extended.new⟩
  · intro c hc
    have lowered := p.lower_constraints c hc
    rw [Problem.lower_after] at hc
    exact (met c hc).isSatisfied lowered

/-- A problem that holds one disequality, with values away from zero. -/
def Problem.nonzero : Problem Rat :=
  { Problem.empty.push .nonzero with registry := Registry.empty.insert (.real "x") }

theorem Problem.nonzero_extends :
    ∃ other, Problem.nonzero.Extension Problem.nonzero.lower.1 (fun _ => 1) other ∧
      ∀ c ∈ Problem.nonzero.lower.1.constraints, c.isSatisfied other 0 = true := by
  have taken : Problem.empty.addAll [Constraint.nonzero] = .ok Problem.nonzero := rfl
  apply (Reachable.step .start (.posted taken)).lower_extends
  · decide +kernel
  · simp only [Problem.BitsOn, IsBit]
    decide +kernel
  · intro c hc
    have single : c = .nonzero := List.mem_singleton.mp hc
    rw [single]
    refine ⟨?_, fun _ => ⟨?_, ?_⟩⟩
    · simp only [Comparison.HoldsApart, Relation.HoldsApart, Comparison.ofLinear, ← Scalar.abs_rat]
      decide +kernel
    · decide +kernel
    · rw [← Scalar.abs_rat]
      decide +kernel

end MixedInteger
