import MixedInteger.Proofs.Completeness
import MixedInteger.Solver.Session

/-!
Values in store: what writes them, and what leaves them alone.
-/

namespace MixedInteger

namespace Rational

/-- Rounding starts from an integer only to return to it. -/
theorem floor_add_half (n : Int) : ((n : Rat) + 1 / 2).floor = n := by
  apply Int.le_antisymm
  · apply Int.lt_add_one_iff.mp
    rw [Rat.floor_lt_iff, Int.cast_add, Int.cast_one]
    linarith
  · rw [Rat.le_floor_iff]
    linarith

theorem roundHalfAway_int (n : Int) : roundHalfAway (n : Rat) = n := by
  unfold roundHalfAway
  split
  · have reflected := floor_add_half (-n)
    rw [Int.cast_neg] at reflected
    rw [reflected, Int.neg_neg]
  · exact floor_add_half n

end Rational

namespace Variable

/-- A value that the variable takes is stored as it is. -/
theorem fit_of_takes {v : Variable Rat} {x : Rat} (h : v.Takes x) : v.fit x = x := by
  unfold Takes at h
  unfold fit
  cases hd : v.domain with
  | binary =>
    rw [hd] at h
    rcases h with rfl | rfl <;> decide +kernel
  | integer =>
    rw [hd] at h
    obtain ⟨⟨n, rfl⟩, -⟩ := h
    exact congrArg Int.cast (Rational.roundHalfAway_int n)
  | real => rfl

/-- The variable without what is stored in it. -/
def decision (v : Variable Rat) : Variable Rat := { v with value := 0 }

theorem name_of_decision {v w : Variable Rat} (h : v.decision = w.decision) : v.name = w.name := by
  have names := congrArg Variable.name h
  exact names

theorem takes_decision {v : Variable Rat} {x : Rat} : v.decision.Takes x ↔ v.Takes x := Iff.rfl

theorem exists_decision {vs ws : List (Variable Rat)} (same : ws.map decision = vs.map decision)
    {v : Variable Rat} (hv : v ∈ vs) : ∃ w ∈ ws, w.decision = v.decision := by
  have hm : v.decision ∈ ws.map decision := same ▸ List.mem_map_of_mem hv
  exact List.mem_map.mp hm

theorem takes_of_decisions {vs ws : List (Variable Rat)} (same : ws.map decision = vs.map decision)
    {values : Assignment Rat} (takes : ∀ w ∈ ws, w.Takes (values w.name)) :
    ∀ v ∈ vs, v.Takes (values v.name) := by
  intro v hv
  obtain ⟨w, hw, same⟩ := exists_decision same hv
  rw [← takes_decision, ← same, ← name_of_decision same]
  exact takes w hw

end Variable

namespace Registry

variable {α : Type}

theorem get?_replace (r : Registry α) (name other : String) (w : Variable α) :
    (r.replace name w).get? other = if other = name then (r.get? other).map fun _ => w else r.get? other := by
  have found : (r.replace name w).find? other =
      (r.find? other).map fun e => if e.declared.name == name then { e with current := w } else e := by
    unfold find? replace
    rw [List.find?_map]
    congr 2
    funext e
    simp only [Function.comp]
    split <;> rfl
  unfold get?
  rw [found]
  cases hf : r.find? other with
  | none => simp
  | some e =>
    have named : e.declared.name = other := by simpa using List.find?_some hf
    by_cases same : other = name <;> simp [named, same]

theorem get?_mapCurrent (r : Registry α) (f : Variable α → Variable α) (name : String) :
    (r.mapCurrent f).get? name = (r.get? name).map f := by
  unfold get? find? mapCurrent
  rw [List.find?_map, Option.map_map, Option.map_map]
  rfl

/-- Earlier entries are found first. -/
theorem get?_of_prefix {r s : Registry α} (h : r.entries <+: s.entries) {name : String}
    (known : name ∈ r.names) : s.get? name = r.get? name := by
  obtain ⟨more, append⟩ := h
  have found : r.find? name ≠ none := fun hn => find?_eq_none_iff.mp hn known
  unfold get? find? at *
  rw [← append, List.find?_append]
  cases hf : r.entries.find? (·.declared.name == name) with
  | none => exact absurd hf found
  | some e => rfl

end Registry

namespace Problem

variable {p q r : Problem Rat}

theorem Continues.stored (h : p.Continues q) {name : String} (known : name ∈ p.registry.names) :
    q.stored name = p.stored name := by
  simp only [Problem.stored, lookup, Registry.get?_of_prefix h known]

/-- Nothing but stored values differs. -/
structure Revalued (p q : Problem Rat) : Prop where
  constraints : q.constraints = p.constraints
  objective : q.objective = p.objective
  sense : q.sense = p.sense
  names : q.registry.names = p.registry.names
  decisions : q.registered.map Variable.decision = p.registered.map Variable.decision
  consistent : p.registry.Consistent → q.registry.Consistent

namespace Revalued

theorem refl (p : Problem Rat) : p.Revalued p := ⟨rfl, rfl, rfl, rfl, rfl, id⟩

theorem trans (h : p.Revalued q) (h' : q.Revalued r) : p.Revalued r :=
  ⟨h'.constraints.trans h.constraints, h'.objective.trans h.objective, h'.sense.trans h.sense,
    h'.names.trans h.names, h'.decisions.trans h.decisions, fun c => h'.consistent (h.consistent c)⟩

/-- The same values are taken before and after. -/
theorem takes_iff (h : p.Revalued q) (values : Assignment Rat) :
    (∀ w ∈ q.registered, w.Takes (values w.name)) ↔
      ∀ v ∈ p.registered, v.Takes (values v.name) :=
  ⟨Variable.takes_of_decisions h.decisions, Variable.takes_of_decisions h.decisions.symm⟩

end Revalued

/-- Storing a value that the variable takes changes that value and nothing else. -/
theorem setValue_known (consistent : p.registry.Consistent) {v : Variable Rat} (hv : v ∈ p.registered)
    {x : Rat} (takes : v.Takes x) :
    ∃ q, p.setValue v.name x = .ok q ∧ p.Revalued q ∧ q.stored v.name = x ∧
      ∀ name, name ≠ v.name → q.stored name = p.stored name := by
  have found : p.lookup v.name = some v := consistent.get?_eq_some.mpr ⟨hv, rfl⟩
  have stored : v.store x = { v with value := x } := by rw [Variable.store, Variable.fit_of_takes takes]
  refine ⟨{ p with registry := p.registry.replace v.name (v.store x) }, ?_,
    ⟨rfl, rfl, rfl, ?_, ?_, ?_⟩, ?_, ?_⟩
  · simp only [setValue, found]
    rfl
  · exact p.registry.names_replace v.name (v.store x)
  · simp only [registered, Registry.toList, Registry.replace, List.map_map]
    apply List.map_congr_left
    intro e he
    simp only [Function.comp]
    split
    · rename_i same
      rw [stored, consistent.current_eq found he (beq_iff_eq.mp same)]
      rfl
    · rfl
  · intro _
    have keeps : (v.store x).name = v.name ∧ (v.store x).domain = v.domain := ⟨rfl, rfl⟩
    exact (consistent.replace found keeps).1
  · simp only [Problem.stored, lookup, Registry.get?_replace, ↓reduceIte]
    rw [show p.registry.get? v.name = some v from found, stored]
    rfl
  · intro name other
    simp only [Problem.stored, lookup, Registry.get?_replace, other, ↓reduceIte]

end Problem

/-- Values that the variables take are all written, and read back as they are. -/
theorem Solver.writeBack_ok (pairs : List (String × Rat)) {p : Problem Rat}
    (consistent : p.registry.Consistent) (distinct : (pairs.map (·.1)).Nodup)
    (takes : ∀ k ∈ pairs, ∃ v ∈ p.registered, v.name = k.1 ∧ v.Takes k.2) :
    ∃ q, writeBack pairs p = (.ok (), q) ∧ p.Revalued q ∧ (∀ k ∈ pairs, q.stored k.1 = k.2) ∧
      ∀ name, name ∉ pairs.map (·.1) → q.stored name = p.stored name := by
  induction pairs generalizing p with
  | nil => exact ⟨p, rfl, .refl p, by simp, fun _ _ => rfl⟩
  | cons k rest ih =>
    obtain ⟨name, x⟩ := k
    obtain ⟨new, others⟩ := List.nodup_cons.mp distinct
    obtain ⟨v, hv, rfl, taken⟩ := takes _ List.mem_cons_self
    obtain ⟨one, written_one, revalued, stored, kept⟩ := Problem.setValue_known consistent hv taken
    have takes' : ∀ k ∈ rest, ∃ v ∈ one.registered, v.name = k.1 ∧ v.Takes k.2 := by
      intro k hk
      obtain ⟨u, hu, hn, ht⟩ := takes k (List.mem_cons_of_mem _ hk)
      obtain ⟨w, hw, same⟩ := Variable.exists_decision revalued.decisions hu
      refine ⟨w, hw, (Variable.name_of_decision same).trans hn, ?_⟩
      rw [← Variable.takes_decision, same]
      exact ht
    obtain ⟨two, written, revalued', stored', kept'⟩ :=
      ih (revalued.consistent consistent) others takes'
    refine ⟨two, ?_, revalued.trans revalued', ?_, ?_⟩
    · simp only [writeBack, written_one]
      exact written
    · intro k hk
      rcases List.mem_cons.mp hk with rfl | hk
      · exact (kept' v.name new).trans stored
      · exact stored' k hk
    · intro name hn
      rw [List.map_cons, List.mem_cons, not_or] at hn
      exact (kept' name hn.2).trans (kept name hn.1)

end MixedInteger
