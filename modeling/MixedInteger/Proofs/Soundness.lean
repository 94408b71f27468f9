import MixedInteger.Proofs.Reachable
import MixedInteger.Proofs.RowSoundness

/-!
Soundness of lowering over whole histories: values that meet what a problem has become meet everything it
ever accepted.
-/

namespace MixedInteger

namespace Problem

variable {p q r : Problem Rat} {values : Assignment Rat} {t : Rat}

/-- Every binary variable has one of its two values. -/
def BitsOn (p : Problem Rat) (values : Assignment Rat) : Prop :=
  ∀ v ∈ p.registered, v.domain = .binary → IsBit (values v.name)

/-- The binary variables that came later have one of their two values. -/
def NewBits (p q : Problem Rat) (values : Assignment Rat) : Prop :=
  ∀ v ∈ q.registered, v.name ∉ p.registry.names → v.domain = .binary → IsBit (values v.name)

theorem BitsOn.newBits (h : q.BitsOn values) : p.NewBits q values :=
  fun v hv _ => h v hv

theorem BitsOn.earlier (h : q.BitsOn values) (grows : p.Extends q) :
    p.BitsOn values := by
  intro v hv hb
  obtain ⟨w, hw, hn, hd⟩ := grows.knows v ⟨v, hv, rfl, rfl⟩
  exact hn ▸ h w hw (hd.trans hb)

theorem NewBits.earlier (h : p.NewBits r values) (grows : q.Extends r) :
    p.NewBits q values := by
  intro v hv new hb
  obtain ⟨w, hw, hn, hd⟩ := grows.knows v ⟨v, hv, rfl, rfl⟩
  exact hn ▸ h w hw (hn.symm ▸ new) (hd.trans hb)

theorem NewBits.later (h : p.NewBits r values) (grows : p.Extends q) :
    q.NewBits r values :=
  fun v hv new => h v hv fun old => new (grows.names.subset old)

/-- Links are made of binary variables that the registry knows. -/
theorem Grounded.linksBits (h : p.Grounded) (bits : p.BitsOn values) :
    ∀ c ∈ p.constraints, c.LinksBits values := by
  intro c hc
  cases c with
  | comparison | sos1 | disjunction => trivial
  | binaryOr b =>
    intro v hv
    have binary := (BinaryOr.validate_ok.mp (h.valid _ hc)).2 v hv
    obtain ⟨w, hw, hn, hd⟩ := h.known _ hc v hv
    exact hn ▸ bits w hw (hd.trans binary)

end Problem

namespace Passed

variable {p q : Problem Rat} {pass : Pass} {kept : List (Constraint Rat)}
  {ws : List (Rewriting p.policy.bigM)} {values : Assignment Rat} {t : Rat}

theorem linksBits (h : Passed p pass kept ws q) (links : ∀ c ∈ p.constraints, c.LinksBits values) :
    ∀ c ∈ q.constraints, c.LinksBits values := by
  intro c hc
  rcases h.mem_after hc with hk | ⟨w, hw, hr⟩
  · exact links c (h.kept_mem hk)
  · exact w.lowers.rows_linksBits c hr

/-- What was kept is held as before, and what was taken out is held through its rows. -/
theorem sound (h : Passed p pass kept ws q) (hp : p.Grounded) (ht0 : 0 ≤ t) (ht : t < 1)
    (links : ∀ c ∈ p.constraints, c.LinksBits values) (bits : p.NewBits q values)
    (held : ∀ c ∈ q.constraints, c.HoldsApart values t) :
    ∀ c ∈ p.constraints, c.HoldsApart values t := by
  intro c hc
  rcases List.mem_append.mp (h.before.mem_iff.mp hc) with hk | hs
  · exact held c (h.after.mem_iff.mpr (List.mem_append_left _ hk))
  · obtain ⟨w, hw, rfl⟩ := List.mem_map.mp hs
    apply w.lowers.sound ht0 ht (links _ hc)
    · intro v hv binary
      have new := h.drawn.free v (List.mem_flatMap.mpr ⟨w, hw, hv⟩)
      obtain ⟨row, hrow, hocc⟩ := w.lowers.auxiliaries_occur v hv
      obtain ⟨u, hu, hn, hd⟩ := h.rows_known hp hw hrow v hocc
      exact hn ▸ bits u hu (hn.symm ▸ new) (hd.trans binary)
    · intro row hrow
      exact held row (h.row_mem hw hrow)

end Passed

namespace Problem

variable {p q : Problem Rat} {values : Assignment Rat} {t : Rat}

/-- Passes in any order and number are sound. -/
theorem after_sound (hp : p.Grounded) (passes : List Pass) (ht0 : 0 ≤ t) (ht : t < 1)
    (links : ∀ c ∈ p.constraints, c.LinksBits values) (bits : p.NewBits (p.after passes) values)
    (held : ∀ c ∈ (p.after passes).constraints, c.HoldsApart values t) :
    ∀ c ∈ p.constraints, c.HoldsApart values t := by
  induction passes generalizing p with
  | nil => exact held
  | cons pass passes ih =>
    obtain ⟨kept, ws, passed⟩ := p.substitute_passed pass
    apply passed.sound hp ht0 ht links
    · exact bits.earlier ((passed.grounded hp).after passes).2
    · exact ih (passed.grounded hp) (passed.linksBits links) (bits.later passed.grows) held

theorem lower_sound (hp : p.Grounded) (ht0 : 0 ≤ t) (ht : t < 1) (bits : p.lower.1.BitsOn values)
    (held : ∀ c ∈ p.lower.1.constraints, c.HoldsApart values t) :
    ∀ c ∈ p.constraints, c.HoldsApart values t := by
  rw [lower_after] at bits held
  have old := bits.earlier (hp.after p.policy.passes).2
  exact after_sound hp p.policy.passes ht0 ht (hp.linksBits old) bits.newBits held

/-- What a step leaves is held only if all that was there and all that was accepted is. -/
theorem step_sound {cs : List (Constraint Rat)} (hp : p.Grounded) (step : Step p cs q) (ht0 : 0 ≤ t)
    (ht : t < 1) (bits : q.BitsOn values) (held : ∀ c ∈ q.constraints, c.HoldsApart values t) :
    ∀ c ∈ p.constraints ++ cs, c.HoldsApart values t := by
  -- Links are read over bits already before the step: their variables are not new.
  have before := hp.linksBits (bits.earlier (hp.step step).2)
  cases step with
  | posted ok =>
    obtain ⟨staged, -, -, -, joined, -⟩ := addAll_ok ok
    intro c hc
    exact held c (joined.mem_iff.mpr hc)
  | substituted pass =>
    rw [List.append_nil]
    exact after_sound hp [pass] ht0 ht before bits.newBits held
  | lowered =>
    rw [List.append_nil]
    exact lower_sound hp ht0 ht bits held
  | built config =>
    rw [List.append_nil]
    rcases assembly_problem config p with hq | ⟨low, high, hq⟩
    · rw [hq] at bits held
      exact lower_sound hp ht0 ht bits held
    · have grows := (hp.lower.1.applyGlobalBounds hq).2
      rw [applyGlobalBounds_ok hq] at held
      exact lower_sound hp ht0 ht (bits.earlier grows) held
  | objective ok =>
    obtain ⟨staged, -, rfl⟩ := setObjective_ok ok
    rw [List.append_nil]
    exact held
  | globalBounds ok =>
    rw [applyGlobalBounds_ok ok] at held
    rw [List.append_nil]
    exact held
  | boundsChanged ok =>
    obtain ⟨v, w, -, -, -, rfl⟩ := changeBounds?_ok ok
    rw [List.append_nil]
    exact held
  | valueStored ok =>
    obtain ⟨v, -, rfl⟩ := setValue_ok ok
    rw [List.append_nil]
    exact held
  | sense | configured | valuesStored =>
    rw [List.append_nil]
    exact held

end Problem

/-- Everything ever accepted is held wherever the problem as it stands is. -/
theorem History.sound {accepted : List (Constraint Rat)} {p : Problem Rat} (history : History accepted p)
    {values : Assignment Rat} {t : Rat} (ht0 : 0 ≤ t) (ht : t < 1) (bits : p.BitsOn values)
    (held : ∀ c ∈ p.constraints, c.HoldsApart values t) : ∀ c ∈ accepted, c.HoldsApart values t := by
  induction history with
  | start => simp
  | @step accepted cs p q history step ih =>
    have hp := history.reachable.grounded
    have all := Problem.step_sound hp step ht0 ht bits held
    have earlier := ih (bits.earlier (hp.step step).2) fun c hc => all c (List.mem_append_left _ hc)
    intro c hc
    rcases List.mem_append.mp hc with hc | hc
    · exact earlier c hc
    · exact all c (List.mem_append_right _ hc)

theorem Problem.isLowered_constraints {α : Type} {p : Problem α} (h : p.isLowered = true) :
    ∀ c ∈ p.constraints, c.IsLowered := by
  simp only [isLowered, Bool.and_eq_true, List.isEmpty_iff, List.all_eq_true] at h
  obtain ⟨⟨⟨⟨none, canonical⟩, -⟩, -⟩, -⟩ := h
  intro c hc
  rw [mem_constraints] at hc
  cases c with
  | comparison c => exact canonical c hc
  | disjunction d => simp [none] at hc
  | sos1 | binaryOr => trivial

/-- A search that misses each row of a lowered problem by at most the tolerance misses every accepted
constraint by at most twice that, if the separations are wide enough to survive it. -/
theorem History.accepted_satisfied {accepted : List (Constraint Rat)} {p : Problem Rat}
    (history : History accepted p) (lowered : p.isLowered = true) {t : Rat} (ht0 : 0 ≤ t) (ht : t < 1)
    (wider : ∀ c ∈ accepted, c.Wider (4 * t)) {values : Assignment Rat} (bits : p.BitsOn values)
    (held : ∀ c ∈ p.constraints, c.isSatisfied values t = true) :
    ∀ c ∈ accepted, c.isSatisfied values (2 * t) = true := by
  have apart : ∀ c ∈ p.constraints, c.HoldsApart values t := fun c hc =>
    (Problem.isLowered_constraints lowered c hc).holdsApart_iff.mpr (held c hc)
  intro c hc
  exact (history.sound ht0 ht bits apart c hc).isSatisfied ht0 (wider c hc)

/-- One variable that keeps half a unit away from zero. -/
def Constraint.nonzero : Constraint Rat :=
  .comparison (.ofLinear [.single 1 (.real "x")] .ne 0 (1 / 2))

theorem History.nonzero_satisfied :
    Constraint.nonzero.isSatisfied (fun name => if name = "x" ∨ name = "sos_binary#3" then 1 else
      if name = "psi_prime#1" then 3 / 2 else 0) (2 * (1 / 16)) = true := by
  have taken : Problem.empty.addAll [Constraint.nonzero] = .ok _ := rfl
  have history := History.step (.step .start (.posted taken)) (.lowered _)
  refine history.accepted_satisfied (t := 1 / 16) ?_ ?_ ?_ ?_ ?_ ?_ _ (by simp)
  · decide +kernel
  · decide +kernel
  · decide +kernel
  · intro c hc
    simp only [List.nil_append, List.append_nil, List.mem_singleton] at hc
    subst hc
    intro _
    decide +kernel
  · simp only [Problem.BitsOn, IsBit]
    decide +kernel
  · decide +kernel

end MixedInteger
