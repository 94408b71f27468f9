import MixedInteger.Proofs.Auxiliaries
import MixedInteger.Proofs.Runs
import MixedInteger.Proofs.WriteBack

/-!
Changes of variables in use, before or after lowering. Passes read the names of a registry and no variable in use, and
the auxiliaries they add have bounds that a global override leaves alone, so late changes come to what early ones do.
-/

namespace MixedInteger

variable {α : Type}

namespace Variable

/-- A global override has nothing to replace. -/
def Firm (v : Variable α) : Prop := v.domain = .binary ∨ v.lower.isDefault = false ∧ v.upper.isDefault = false

theorem Firm.overrideBounds {v : Variable α} (h : v.Firm) (low high : α) : v.overrideBounds low high = v := by
  unfold Variable.overrideBounds
  split
  · rfl
  · rename_i counted
    obtain ⟨lower, upper⟩ := h.resolve_left counted
    simp only [Bound.override, lower, upper, Bool.false_eq_true, ↓reduceIte]

/-- A variable later on: it is firm, and has the same bounds unless they were changed by its name. -/
structure Stays (v w : Variable α) (rebound : Prop) : Prop where
  firm : w.Firm
  bounds : ¬rebound → w.lower = v.lower ∧ w.upper = v.upper

theorem Stays.self {v : Variable α} (firm : v.Firm) (rebound : Prop) : v.Stays v rebound :=
  ⟨firm, fun _ => ⟨rfl, rfl⟩⟩

end Variable

/-- Firm variables that enter later are not recast. -/
def Registry.Spares (r : Registry α) (f : Registration α → Variable α) : Prop :=
  ∀ v : Variable α, v.Firm → v.name ∉ r.names → f ⟨v, v⟩ = v

theorem Problem.Continues.lookup {p q : Problem α} {name : String} {v : Variable α} (h : p.Continues q)
    (found : p.lookup name = some v) : q.lookup name = some v := by
  have known : name ∈ p.registry.names := by
    by_contra unknown
    rw [Problem.lookup, Registry.get?_eq_none_iff.mpr unknown] at found
    cases found
  exact (Registry.get?_of_prefix h known).trans found

namespace Problem

def recast (p : Problem α) (f : Registration α → Variable α) : Problem α :=
  { p with registry := p.registry.recast f }

theorem recast_push (p : Problem α) (c : Constraint α) (f : Registration α → Variable α) :
    (p.recast f).push c = (p.push c).recast f := by
  cases c <;> rfl

theorem recast_insertProduced {p : Problem α} {f : Registration α → Variable α} {c : Constraint α}
    (spared : ∀ v ∈ c.occurrences, v.name ∉ p.registry.names → f ⟨v, v⟩ = v) :
    (p.recast f).insertProduced c = (p.insertProduced c).recast f := by
  rw [insertProduced, insertProduced, ← recast_push]
  simp only [recast, Registry.recast_insertAll spared]

theorem insertProduced_registry (p : Problem α) (c : Constraint α) :
    (p.insertProduced c).registry = p.registry.insertAll c.occurrences := (push_frame _ c).1

theorem recast_insertAllProduced {p : Problem α} {f : Registration α → Variable α} {cs : List (Constraint α)}
    (spared : ∀ v ∈ cs.flatMap Constraint.occurrences, v.name ∉ p.registry.names → f ⟨v, v⟩ = v) :
    cs.foldl insertProduced (p.recast f) = (cs.foldl insertProduced p).recast f := by
  induction cs generalizing p with
  | nil => rfl
  | cons c cs ih =>
    rw [List.flatMap_cons, List.forall_mem_append] at spared
    obtain ⟨now, later⟩ := spared
    rw [List.foldl_cons, recast_insertProduced now]
    refine ih fun v hv new => later v hv fun old => new ?_
    rw [insertProduced_registry]
    exact (p.registry.grows_insertAll c.occurrences).names.subset old

end Problem

variable [Scalar α]

namespace Variable

/-- An auxiliary as lowering makes it. -/
def IsAuxiliary (bigM : α) (v : Variable α) : Prop := v = .binary v.name ∨ v = .slack bigM v.name

variable {v : Variable α}

theorem IsAuxiliary.firm {bigM : α} (h : v.IsAuxiliary bigM) : v.Firm := by
  rcases h with h | h
  · exact .inl (congrArg Variable.domain h)
  · exact .inr ⟨congrArg (·.lower.isDefault) h, congrArg (·.upper.isDefault) h⟩

theorem Firm.store (h : v.Firm) (x : α) : (v.store x).Firm := h

theorem Firm.changeBounds {w : Variable α} (h : v.Firm) {change : BoundChange α}
    (ok : v.changeBounds change = .ok w) : w.Firm := by
  refine h.imp (fun binary => (Problem.changeBounds_ok ok).2.trans binary) fun ⟨lower, upper⟩ => ?_
  cases change
  all_goals
    simp only [Variable.changeBounds, setLower, setUpper, setBounds, bind_eq_ok, pure_eq_ok] at ok
    obtain ⟨-, -, rfl⟩ := ok
  · exact ⟨rfl, upper⟩
  · exact ⟨lower, rfl⟩
  · exact ⟨rfl, rfl⟩

end Variable

theorem Lowering.isAuxiliary {bigM : α} {c : Constraint α} {vs : List (Variable α)} {rows : List (Constraint α)}
    (h : Lowering bigM c vs rows) : ∀ v ∈ vs, v.IsAuxiliary bigM := by
  have binary (name : String) : (Variable.binary name : Variable α).IsAuxiliary bigM := .inl rfl
  have slack (name : String) : (Variable.slack bigM name).IsAuxiliary bigM := .inr rfl
  cases h with
  | below strict | above strict | binaryOr b => exact fun _ => nofun
  | apart excluding above below => simp [slack]
  | sos1 s names positions => simp [binary]
  | disjunction d ks choices =>
    intro v hv
    obtain ⟨k, -, hv⟩ := List.mem_flatMap.mp hv
    by_cases equality : k.alternative.relation = .eq
    · rw [(Disjunction.Choice.of_equality equality d bigM).1] at hv
      simp only [List.mem_cons, List.not_mem_nil, or_false] at hv
      rcases hv with rfl | rfl | rfl
      exacts [binary _, slack _, slack _]
    · rw [(Disjunction.Choice.of_inequality equality d bigM).1] at hv
      simp only [List.mem_cons, List.not_mem_nil, or_false] at hv
      rcases hv with rfl | rfl | rfl | rfl
      exacts [binary _, binary _, slack _, slack _]

theorem Rewriting.isAuxiliary {bigM : α} (ws : List (Rewriting bigM)) :
    ∀ v ∈ ws.flatMap (·.auxiliaries), v.IsAuxiliary bigM := by
  intro v hv
  obtain ⟨w, -, hv⟩ := List.mem_flatMap.mp hv
  exact w.lowers.isAuxiliary v hv

namespace Problem

variable {p : Problem α} {f : Registration α → Variable α}

theorem recast_replacement (p : Problem α) (f : Registration α → Variable α) (pass : Pass) :
    (p.recast f).replacement pass = { p.replacement pass with rest := (p.replacement pass).rest.recast f } := by
  have drawn {β : Type} (names : Naming β) : (p.recast f).draw names = p.draw names := by
    simp only [draw, recast, Registry.names_recast]
  cases pass
  · simp only [replacement, replaceDisjunctions, drawn]
    rfl
  · simp only [replacement, replaceRelations, drawn]
    rfl
  · rfl
  · simp only [replacement, replaceSos1s, drawn]
    rfl

/-- What a pass produces is among the constraints afterwards, so its new variables are firm. -/
theorem Grounded.produced_firm (h : p.Grounded) (pass : Pass) :
    ∀ v ∈ (p.replacement pass).produced.flatMap Constraint.occurrences, v.name ∉ p.registry.names → v.Firm := by
  intro v hv new
  obtain ⟨c, hc, hv⟩ := List.mem_flatMap.mp hv
  obtain ⟨kept, ws, passed⟩ := p.substitute_passed pass
  have stored : c ∈ (p.substitute pass).1.constraints :=
    ((p.replacement pass).rest.insertProduced_fold (p.replacement pass).produced).1.mem_iff.mpr
      (List.mem_append_right _ hc)
  exact (Rewriting.isAuxiliary ws v (passed.auxiliary_of_new h stored hv new)).firm

theorem Grounded.recast_substitute (h : p.Grounded) (spares : p.registry.Spares f) (pass : Pass) :
    ((p.recast f).substitute pass).1 = (p.substitute pass).1.recast f := by
  have registry : (p.replacement pass).rest.registry = p.registry := by
    cases pass <;> rfl
  have inserted : (p.replacement pass).produced.foldl insertProduced ((p.replacement pass).rest.recast f) =
      ((p.replacement pass).produced.foldl insertProduced (p.replacement pass).rest).recast f := by
    refine recast_insertAllProduced fun v hv new => ?_
    rw [registry] at new
    exact spares v (h.produced_firm pass v hv new) new
  simp only [substitute, recast_replacement, inserted]
  rfl

theorem Grounded.recast_after (h : p.Grounded) (spares : p.registry.Spares f) (passes : List Pass) :
    (p.recast f).after passes = (p.after passes).recast f := by
  induction passes generalizing p with
  | nil => rfl
  | cons pass passes ih =>
    obtain ⟨grounded, grows⟩ := h.after [pass]
    have spared : (p.after [pass]).registry.Spares f :=
      fun v firm new => spares v firm fun old => new (grows.names.subset old)
    calc ((p.recast f).substitute pass).1.after passes
        = ((p.substitute pass).1.recast f).after passes := by rw [h.recast_substitute spares]
      _ = ((p.substitute pass).1.after passes).recast f := ih grounded spared

theorem Grounded.recast_lower (h : p.Grounded) (spares : p.registry.Spares f) :
    (p.recast f).lower.1 = p.lower.1.recast f := by
  have expanded (q : Problem α) : (q.recast f).expandObjective = q.expandObjective.recast f := rfl
  have policy : (p.recast f).policy = p.policy := rfl
  rw [lower_after, lower_after, policy, h.recast_after spares, expanded]

end Problem

namespace Operation

/-- Whether an operation is a pass, or all the passes that lowering runs. -/
def isLowering : Operation α → Bool
  | substitute _ | lower => true
  | _ => false

theorem perform_recast {a : Operation α} (lowering : a.isLowering = true) {p : Problem α} (h : p.Grounded)
    {f : Registration α → Variable α} (spares : p.registry.Spares f) :
    a.perform (p.recast f) = (a.perform p).recast f := by
  cases a with
  | substitute pass => exact h.recast_substitute spares pass
  | lower => exact h.recast_lower spares
  | change | setSense | configure | setValues | remove | build => cases lowering

theorem perform_continues {a : Operation α} (lowering : a.isLowering = true) (p : Problem α) :
    p.Continues (a.perform p) := by
  cases a with
  | substitute pass => exact p.after_continues [pass]
  | lower =>
    have kept := p.after_continues p.policy.passes
    rw [perform, p.lower_after]
    exact kept
  | change | setSense | configure | setValues | remove | build => cases lowering

end Operation

namespace Change

/-- Changes of variables in use that are registered already. -/
def Revises (names : List String) : Change α → Prop
  | intake _ => False
  | globalBounds _ _ => True
  | bounds name _ | value name _ => name ∈ names

end Change

/-- A change before lowering and the same change after it are refused alike and end alike. -/
theorem Problem.Grounded.commutes {p : Problem α} (h : p.Grounded) {a : Operation α} (lowering : a.isLowering = true)
    {c : Change α} (revises : c.Revises p.registry.names) :
    c.apply (a.perform p) = (c.apply p).map fun done => (a.perform done.1, done.2) := by
  have lookup {name : String} (known : name ∈ p.registry.names) : (a.perform p).lookup name = p.lookup name :=
    Registry.get?_of_prefix (Operation.perform_continues lowering p) known
  have replaced {name : String} (known : name ∈ p.registry.names) (w : Variable α) :
      { a.perform p with registry := (a.perform p).registry.replace name w } =
        a.perform { p with registry := p.registry.replace name w } := by
    have spares : p.registry.Spares fun e => if e.declared.name == name then w else e.current := by
      intro v _ new
      have other : v.name ≠ name := fun same => new (same ▸ known)
      simp [other]
    rw [Registry.replace_eq_recast, Registry.replace_eq_recast]
    exact (Operation.perform_recast lowering h spares).symm
  cases c with
  | intake i => exact revises.elim
  | globalBounds low high =>
    have spares : p.registry.Spares fun e => e.current.overrideBounds low high :=
      fun v firm _ => firm.overrideBounds low high
    have overridden := Operation.perform_recast lowering h spares
    simp only [Change.apply, Problem.applyGlobalBounds]
    split
    · rfl
    · exact congrArg (fun q => Except.ok (q, [])) overridden.symm
  | bounds name change =>
    simp only [Change.apply, Problem.changeBounds?, lookup revises]
    cases p.lookup name with
    | none => rfl
    | some v =>
      simp only [Option.map_some, Option.getD_some]
      cases v.changeBounds change with
      | error r => rfl
      | ok w => exact congrArg (fun q => Except.ok (q, [])) (replaced revises w)
  | value name x =>
    simp only [Change.apply, Problem.setValue, lookup revises]
    cases p.lookup name with
    | none => rfl
    | some v => exact congrArg (fun q => Except.ok (q, [])) (replaced revises (v.store x))

section Firmness

variable {p : Problem α} {name : String} {v : Variable α}

namespace Operation

/-- Whether an operation changes the bounds of a variable by its name. -/
def Rebounds (name : String) (a : Operation α) : Prop := ∃ change, a = .change (.bounds name change)

theorem change_stays (c : Change α) (found : p.lookup name = some v) (firm : v.Firm) :
    ∃ w, (c.outcome p).lookup name = some w ∧ v.Stays w ((change c).Rebounds name) := by
  have replaced {other : String} {u w : Variable α} {rebound : Prop} (hu : p.lookup other = some u)
      (stays : u.Firm → name = other → u.Stays w rebound) :
      ∃ w', { p with registry := p.registry.replace other w }.lookup name = some w' ∧ v.Stays w' rebound := by
    simp only [Problem.lookup, Registry.get?_replace] at found hu ⊢
    split
    · rename_i same
      obtain rfl := same
      obtain rfl := Option.some.inj (hu.symm.trans found)
      rw [found]
      exact ⟨w, rfl, stays firm rfl⟩
    · exact ⟨v, found, .self firm _⟩
  rw [c.outcome_eq]
  cases taken : c.apply p with
  | error r => exact ⟨v, found, .self firm _⟩
  | ok done =>
    obtain ⟨q, events⟩ := done
    cases c with
    | intake i =>
      obtain ⟨-, rfl⟩ := Intake.apply_ok_iff.mp ⟨_, taken⟩
      have continues : p.Continues (i.stored p) := by
        obtain ⟨news, entries, -⟩ := p.registry.insertAll_entries i.occurrences
        rw [Problem.Continues, i.stored_registry, entries]
        exact List.prefix_append _ _
      exact ⟨v, continues.lookup found, .self firm _⟩
    | globalBounds low high =>
      obtain rfl := Problem.applyGlobalBounds_ok (silent_ok.mp taken).1
      refine ⟨v, ?_, .self firm _⟩
      simp only [Problem.lookup, Registry.get?_mapCurrent] at found ⊢
      rw [found, Option.map_some, firm.overrideBounds]
    | bounds other change =>
      rcases Problem.changeBounds_cases (silent_ok.mp taken).1 with rfl | changed
      · exact ⟨v, found, .self firm _⟩
      · obtain ⟨u, hu, changed⟩ := Option.map_eq_some_iff.mp changed
        simp only [bind_eq_ok, pure_eq_ok] at changed
        obtain ⟨w, ok, rfl⟩ := changed
        exact replaced hu fun firm same => ⟨firm.changeBounds ok, fun kept => absurd ⟨change, by rw [same]⟩ kept⟩
    | value other x =>
      obtain ⟨u, hu, rfl⟩ := Problem.setValue_ok (silent_ok.mp taken).1
      exact replaced hu fun firm _ => ⟨firm.store x, fun _ => ⟨rfl, rfl⟩⟩

/-- Operations keep a firm variable firm, and its bounds too, unless they change them by its name. -/
theorem perform_stays (a : Operation α) (found : p.lookup name = some v) (firm : v.Firm) :
    ∃ w, (a.perform p).lookup name = some w ∧ v.Stays w (a.Rebounds name) := by
  have lowered : (lower.perform p).lookup name = some v :=
    (perform_continues rfl p).lookup found
  cases a with
  | change c => exact change_stays c found firm
  | setSense | configure => exact ⟨v, found, .self firm _⟩
  | setValues values =>
    refine ⟨v.store (values v.name), ?_, firm.store _, fun _ => ⟨rfl, rfl⟩⟩
    simp only [Problem.lookup] at found ⊢
    rw [perform, Problem.setValues, Registry.get?_mapCurrent, found]
    rfl
  | remove kind i =>
    refine ⟨v, ?_, .self firm _⟩
    cases kind <;> exact found
  | substitute pass => exact ⟨v, (perform_continues rfl p).lookup found, .self firm _⟩
  | lower => exact ⟨v, lowered, .self firm _⟩
  | build config =>
    rcases Problem.assembly_problem config p with left | ⟨low, high, bounded⟩
    · exact ⟨v, (congrArg (·.lookup name) left).trans lowered, .self firm _⟩
    · have outcome : (Change.globalBounds low high).outcome p.lower.1 = (Assembly.ofProblem config p).problem :=
        Change.outcome_ok (silent_ok.mpr ⟨bounded, rfl⟩)
      obtain ⟨w, after, stays⟩ := change_stays (.globalBounds low high) lowered firm
      refine ⟨w, (congrArg (·.lookup name) outcome).symm.trans after, stays.firm, fun _ => stays.bounds ?_⟩
      rintro ⟨_, bounds⟩
      cases bounds

theorem performAll_stays (as : List (Operation α)) (found : p.lookup name = some v) (firm : v.Firm) :
    ∃ w, (performAll as p).lookup name = some w ∧ v.Stays w (∃ a ∈ as, a.Rebounds name) := by
  induction as generalizing p v with
  | nil => exact ⟨v, found, .self firm _⟩
  | cons a as ih =>
    obtain ⟨u, now, first⟩ := a.perform_stays found firm
    obtain ⟨w, after, later⟩ := ih now first.firm
    refine ⟨w, after, later.firm, fun kept => ?_⟩
    obtain ⟨lower, upper⟩ := first.bounds fun h => kept ⟨a, List.mem_cons_self, h⟩
    obtain ⟨lower', upper'⟩ := later.bounds fun ⟨b, hb, h⟩ => kept ⟨b, List.mem_cons_of_mem a hb, h⟩
    exact ⟨lower'.trans lower, upper'.trans upper⟩

end Operation

end Firmness

namespace Problem

/-- What passes register are auxiliaries. -/
theorem Grounded.after_isAuxiliary {p : Problem α} (h : p.Grounded) (passes : List Pass) :
    ∀ v ∈ (p.after passes).registered, v.name ∉ p.registry.names → v.IsAuxiliary p.policy.bigM := by
  refine (after_keeps (P := fun q => q.Grounded ∧ q.policy = p.policy ∧
    ∀ v ∈ q.registered, v.name ∉ p.registry.names → v.IsAuxiliary p.policy.bigM) ⟨h, rfl, ?_⟩ ?_ passes).2.2
  · intro v hv new
    exact absurd (Registry.Knows.mem_names h.registry ⟨v, hv, rfl, rfl⟩) new
  · rintro q r pass kept ws passed ⟨grounded, policy, auxiliary⟩
    refine ⟨passed.grounded grounded, passed.policy.trans policy, fun v hv new => ?_⟩
    by_cases old : v.name ∈ q.registry.names
    · exact auxiliary v (passed.continues.registered (passed.grounded grounded).registry hv old) new
    · exact policy ▸ Rewriting.isAuxiliary ws v (passed.new_auxiliary grounded hv old)

end Problem

/-- So are those that an assembly registers, since it lowers first and overrides bounds later. -/
theorem Operation.new_isAuxiliary {p : Problem α} (h : p.Grounded) {a : Operation α} (lowers : a.lowers = true) :
    ∀ v ∈ (a.perform p).registered, v.name ∉ p.registry.names → v.IsAuxiliary p.policy.bigM := by
  have lowered : ∀ v ∈ p.lower.1.registered, v.name ∉ p.registry.names → v.IsAuxiliary p.policy.bigM := by
    have added := h.after_isAuxiliary p.policy.passes
    rw [p.lower_after]
    exact added
  intro v hv new
  cases a with
  | substitute pass => exact h.after_isAuxiliary [pass] v hv new
  | lower => exact lowered v hv new
  | build config =>
    rcases Problem.assembly_problem config p with left | ⟨low, high, bounded⟩
    · rw [perform, left] at hv
      exact lowered v hv new
    · rw [perform, Problem.applyGlobalBounds_ok bounded] at hv
      obtain ⟨u, hu, rfl⟩ : ∃ u ∈ p.lower.1.registered, u.overrideBounds low high = v := by
        simpa [Problem.registered, Registry.toList, Registry.mapCurrent] using hv
      rw [(u.overrideBounds_keeps low high).1] at new
      have auxiliary := lowered u hu new
      rwa [auxiliary.firm.overrideBounds]
  | change | setSense | configure | setValues | remove => cases lowers

/-- Lowering first and changing a registered variable then comes to the same as the other way round. What lowering adds
no global override ever touches, and bounds that nobody changes by name stay as they are. -/
theorem Reachable.lowering_commutes {p : Problem α} (reachable : Reachable p) :
    (∀ a : Operation α, a.isLowering = true → ∀ c : Change α, c.Revises p.registry.names →
      c.apply (a.perform p) = (c.apply p).map fun done => (a.perform done.1, done.2)) ∧
    ∀ a : Operation α, a.lowers = true → ∀ v ∈ (a.perform p).registered, v.name ∉ p.registry.names →
      v.IsAuxiliary p.policy.bigM ∧
      ∀ as : List (Operation α), ∃ w, (Operation.performAll as (a.perform p)).lookup v.name = some w ∧
        (∀ low high, w.overrideBounds low high = w) ∧
        ((∀ b ∈ as, ¬b.Rebounds v.name) → w.lower = v.lower ∧ w.upper = v.upper) := by
  refine ⟨fun a lowering c revises => reachable.grounded.commutes lowering revises, fun a lowers v hv new => ?_⟩
  have auxiliary := Operation.new_isAuxiliary reachable.grounded lowers v hv new
  refine ⟨auxiliary, fun as => ?_⟩
  have found : (a.perform p).lookup v.name = some v :=
    (reachable.perform a).grounded.registry.get?_eq_some.mpr ⟨hv, rfl⟩
  obtain ⟨w, after, stays⟩ := Operation.performAll_stays as found auxiliary.firm
  refine ⟨w, after, stays.firm.overrideBounds, fun kept => stays.bounds ?_⟩
  rintro ⟨b, hb, rebounds⟩
  exact kept b hb rebounds

theorem Problem.crowded_commutes :
    let pass : Operation Rat := .substitute .relations
    let change : Change Rat := .globalBounds (-5) 5
    Reachable crowded ∧ pass.isLowering = true ∧ pass.lowers = true ∧
      (∃ q, change.apply crowded = .ok (q, []) ∧ change.apply (pass.perform crowded) = .ok (pass.perform q, [])) ∧
      ∃ v ∈ (pass.perform crowded).registered, v.name = "psi#1" ∧ v.IsAuxiliary crowded.policy.bigM := by
  intro pass change
  have taken : Problem.empty.addAll [Constraint.crowded] = .ok crowded := rfl
  have reachable : Reachable crowded := .step .start (.posted taken)
  obtain ⟨commutes, stays⟩ := reachable.lowering_commutes
  refine ⟨reachable, rfl, rfl, ⟨_, rfl, commutes pass rfl change trivial⟩, ?_⟩
  have drawn : "psi#1" ∈ (pass.perform crowded).registered.map (·.name) := by
    rw [← names_registered (reachable.perform pass).grounded.registry]
    decide +kernel
  obtain ⟨v, hv, named⟩ := List.mem_map.mp drawn
  exact ⟨v, hv, named, (stays pass rfl v hv (by rw [named]; decide)).1⟩

end MixedInteger
