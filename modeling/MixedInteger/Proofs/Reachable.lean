import MixedInteger.Proofs.Registered
import MixedInteger.Proofs.RowShape
import MixedInteger.Solver.Assembly

/-!
The problems that can be reached, and what holds of all of them: constraints are such as a problem may hold,
and the registry knows their variables.
-/

namespace MixedInteger

variable {α : Type}

/-- The registry knows every variable of a constraint, and every constraint is one that may be held. -/
structure Problem.Grounded (p : Problem α) : Prop where
  registry : p.registry.Consistent
  known : ∀ c ∈ p.constraints, ∀ v ∈ c.occurrences, p.registry.Knows v
  valid : ∀ c ∈ p.constraints, c.validate = .ok ()

theorem Problem.names_registered {α : Type} {p : Problem α} (h : p.registry.Consistent) :
    p.registry.names = p.registered.map (·.name) := by
  rw [registered, Registry.toList, List.map_map, Registry.names]
  exact List.map_congr_left fun e he => (h.named e he).symm

/-- Nothing a registry knew is forgotten. -/
abbrev Problem.Extends (p q : Problem α) : Prop := Registry.Grows p.registry q.registry

/-- Other variables in use for the same constraints. -/
theorem Problem.Grounded.rebound {p q : Problem α} (h : p.Grounded) (hc : q.constraints = p.constraints)
    (hr : q.registry.Consistent ∧ p.Extends q) : q.Grounded ∧ p.Extends q := by
  refine ⟨⟨hr.1, ?_, ?_⟩, hr.2⟩
  · intro c hm v hv
    exact hr.2.knows v (h.known c (hc ▸ hm) v hv)
  · intro c hm
    exact h.valid c (hc ▸ hm)

theorem Variable.overrideBounds_keeps (v : Variable α) (low high : α) :
    (v.overrideBounds low high).name = v.name ∧ (v.overrideBounds low high).domain = v.domain := by
  unfold Variable.overrideBounds
  split <;> exact ⟨rfl, rfl⟩

inductive Removal : Problem α → Problem α → Prop where
  | comparison (p : Problem α) (i : Nat) : Removal p (p.removeComparison i).2
  | sos1 (p : Problem α) (i : Nat) : Removal p (p.removeSos1 i).2
  | disjunction (p : Problem α) (i : Nat) : Removal p (p.removeDisjunction i).2
  | binaryOr (p : Problem α) (i : Nat) : Removal p (p.removeBinaryOr i).2

theorem Removal.mem_constraints {p q : Problem α} (removal : Removal p q) {c : Constraint α}
    (hc : c ∈ q.constraints) : c ∈ p.constraints := by
  cases removal
  all_goals
    rw [Problem.mem_constraints] at hc ⊢
    cases c <;> first | exact hc | exact List.mem_of_mem_eraseIdx hc

theorem Problem.Grounded.removal {p q : Problem α} (h : p.Grounded) (removal : Removal p q) :
    q.Grounded := by
  have same : q.registry = p.registry := by
    cases removal <;> rfl
  exact ⟨same ▸ h.registry, fun c hc v hv => same ▸ h.known c (removal.mem_constraints hc) v hv,
    fun c hc => h.valid c (removal.mem_constraints hc)⟩

variable [Scalar α]

namespace Problem

/-- The passes one after the other. -/
def after (p : Problem α) (passes : List Pass) : Problem α :=
  passes.foldl (fun p pass => (p.substitute pass).1) p

theorem substituteAll_after (p : Problem α) (passes : List Pass) :
    (p.substituteAll passes).1 = p.after passes :=
  (List.foldl_hom Prod.fst fun _ _ => rfl).symm

theorem after_append (p : Problem α) (xs ys : List Pass) :
    p.after (xs ++ ys) = (p.after xs).after ys :=
  List.foldl_append

end Problem

/-- What every single pass keeps, passes keep one after the other. -/
theorem Problem.after_keeps {P : Problem α → Prop} {p : Problem α} (start : P p)
    (step : ∀ ⦃q r : Problem α⦄ ⦃pass : Pass⦄ ⦃kept : List (Constraint α)⦄
      ⦃ws : List (Rewriting q.policy.bigM)⦄, Passed q pass kept ws r → P q → P r)
    (passes : List Pass) : P (p.after passes) := by
  induction passes generalizing p with
  | nil => exact start
  | cons pass passes ih =>
    obtain ⟨kept, ws, passed⟩ := p.substitute_passed pass
    exact ih (step passed start)

/-- Passes rewrite constraints and nothing else that was stated. -/
theorem Problem.after_frame (p : Problem α) (passes : List Pass) :
    (p.after passes).objective = p.objective ∧ (p.after passes).sense = p.sense ∧
      (p.after passes).policy = p.policy := by
  refine p.after_keeps (P := fun q => q.objective = p.objective ∧ q.sense = p.sense ∧ q.policy = p.policy)
    ⟨rfl, rfl, rfl⟩ ?_ passes
  rintro q r pass kept ws passed ⟨objective, sense, policy⟩
  exact ⟨passed.objective.trans objective, passed.sense.trans sense, passed.policy.trans policy⟩

/-- The passes that lowering runs. -/
def LoweringPolicy.passes (policy : LoweringPolicy α) : List Pass :=
  [.disjunctions, .relations] ++ (if policy.keepsBinaryOr then [] else [.binaryOrs]) ++
    (if policy.keepsSos1 then [] else [.sos1s])

theorem Problem.lower_after (p : Problem α) :
    p.lower.1 = (p.after p.policy.passes).expandObjective := by
  cases hs : p.policy.keepsSos1 with
  | true => simp [lower, LoweringPolicy.passes, hs, substituteAll_after]
  | false =>
    simp only [lower, LoweringPolicy.passes, hs, substituteAll_after, Bool.false_eq_true, ↓reduceIte]
    simp only [after_append]
    rfl

theorem Problem.lower_objective (p : Problem α) :
    p.lower.1.objective = p.objective.map Expression.expand ∧ p.lower.1.sense = p.sense := by
  obtain ⟨objective, sense, -⟩ := p.after_frame p.policy.passes
  rw [lower_after]
  exact ⟨congrArg (Option.map Expression.expand) objective, sense⟩

/-- A change that removes nothing, with the constraints it accepts. Refused changes leave no trace. -/
inductive Step : Problem α → List (Constraint α) → Problem α → Prop where
  | objective {p q : Problem α} {e : Expression α} {sense : Sense} {events : List (Event α)}
      (ok : p.setObjective e sense = .ok (q, events)) : Step p [] q
  | sense (p : Problem α) (sense : Sense) : Step p [] (p.setSense sense)
  | configured (p : Problem α) (policy : LoweringPolicy α) : Step p [] (p.configure policy)
  | posted {p q : Problem α} {cs : List (Constraint α)} (ok : p.addAll cs = .ok q) : Step p cs q
  | substituted (p : Problem α) (pass : Pass) : Step p [] (p.substitute pass).1
  | lowered (p : Problem α) : Step p [] p.lower.1
  | globalBounds {p q : Problem α} {low high : α} (ok : p.applyGlobalBounds low high = .ok q) :
      Step p [] q
  | boundsChanged {p q : Problem α} {name : String} {change : Variable.BoundChange α}
      (ok : p.changeBounds? name change = some (.ok q)) : Step p [] q
  | valuesStored (p : Problem α) (values : Assignment α) : Step p [] (p.setValues values)
  | valueStored {p q : Problem α} {name : String} {value : α} (ok : p.setValue name value = .ok q) :
      Step p [] q
  | built (p : Problem α) (config : SolverConfig α) : Step p [] (Assembly.ofProblem config p).problem

/-- What a problem becomes without removals, beside everything it ever accepted. -/
inductive History : List (Constraint α) → Problem α → Prop where
  | start : History [] .empty
  | step {accepted cs : List (Constraint α)} {p q : Problem α} (history : History accepted p)
      (step : Step p cs q) : History (accepted ++ cs) q

inductive Reachable : Problem α → Prop where
  | start : Reachable .empty
  | step {p q : Problem α} {cs : List (Constraint α)} (reachable : Reachable p) (step : Step p cs q) :
      Reachable q
  | removal {p q : Problem α} (reachable : Reachable p) (removal : Removal p q) : Reachable q

theorem History.reachable {accepted : List (Constraint α)} {p : Problem α} (h : History accepted p) :
    Reachable p := by
  induction h with
  | start => exact .start
  | step _ step ih => exact .step ih step

namespace Passed

variable {p q : Problem α} {pass : Pass} {kept : List (Constraint α)}
  {ws : List (Rewriting p.policy.bigM)}

theorem grows (h : Passed p pass kept ws q) : p.Extends q := by
  rw [Problem.Extends, h.registry]
  exact p.registry.grows_insertAll _

theorem source_mem (h : Passed p pass kept ws q) {w : Rewriting p.policy.bigM} (hw : w ∈ ws) :
    w.source ∈ p.constraints :=
  h.before.mem_iff.mpr (List.mem_append_right _ (List.mem_map_of_mem hw))

theorem kept_mem (h : Passed p pass kept ws q) {c : Constraint α} (hc : c ∈ kept) : c ∈ p.constraints :=
  h.before.mem_iff.mpr (List.mem_append_left _ hc)

/-- What a pass leaves was kept, or it is a row of something that was taken out. -/
theorem mem_after (h : Passed p pass kept ws q) {c : Constraint α} (hc : c ∈ q.constraints) :
    c ∈ kept ∨ ∃ w ∈ ws, c ∈ w.rows :=
  (List.mem_append.mp (h.after.mem_iff.mp hc)).imp_right List.mem_flatMap.mp

theorem row_mem (h : Passed p pass kept ws q) {w : Rewriting p.policy.bigM} (hw : w ∈ ws)
    {r : Constraint α} (hr : r ∈ w.rows) : r ∈ q.constraints :=
  h.after.mem_iff.mpr (List.mem_append_right _ (List.mem_flatMap.mpr ⟨w, hw, hr⟩))

/-- What a row uses is known before the pass, or it is one of the auxiliaries, which are new. -/
theorem row_variable (h : Passed p pass kept ws q) (hp : p.Grounded)
    {w : Rewriting p.policy.bigM} (hw : w ∈ ws) {r : Constraint α} (hr : r ∈ w.rows)
    {v : Variable α} (hv : v ∈ r.occurrences) :
    p.registry.Knows v ∨ v ∈ ws.flatMap (·.auxiliaries) ∧ v.name ∉ p.registry.names := by
  rcases w.lowers.occurrences r hr v hv with hs | ha
  · exact .inl (hp.known _ (h.source_mem hw) v hs)
  · have hm : v ∈ ws.flatMap (·.auxiliaries) := List.mem_flatMap.mpr ⟨w, hw, ha⟩
    exact .inr ⟨hm, h.drawn.free v hm⟩

/-- Two variables of one name that rows use have one domain: an auxiliary shares its name with no other
auxiliary and with nothing that was known. -/
theorem rows_known (h : Passed p pass kept ws q) (hp : p.Grounded)
    {w : Rewriting p.policy.bigM} (hw : w ∈ ws) {r : Constraint α} (hr : r ∈ w.rows) :
    ∀ v ∈ r.occurrences, q.registry.Knows v := by
  intro v hv
  have hm : v ∈ (ws.flatMap (·.rows)).flatMap Constraint.occurrences :=
    List.mem_flatMap.mpr ⟨r, List.mem_flatMap.mpr ⟨w, hw, hr⟩, hv⟩
  rw [h.registry]
  refine Registry.knows_insertAll hm ?_
  refine (h.row_variable hp hw hr hv).imp_right fun ⟨ha, hn⟩ => ⟨hn, fun u hu he => ?_⟩
  obtain ⟨r', hr', hu⟩ := List.mem_flatMap.mp hu
  obtain ⟨w', hw', hr'⟩ := List.mem_flatMap.mp hr'
  rcases h.row_variable hp hw' hr' hu with hk | ⟨ha', -⟩
  · exact absurd (he ▸ hk.mem_names hp.registry) hn
  · rw [List.inj_on_of_nodup_map h.drawn.nodup ha' ha he]

theorem grounded (h : Passed p pass kept ws q) (hp : p.Grounded) : q.Grounded := by
  refine ⟨h.registry ▸ hp.registry.insertAll _, fun c hc => ?_, fun c hc => ?_⟩
  all_goals rcases h.mem_after hc with hk | ⟨w, hw, hr⟩
  · exact fun v hv => h.grows.knows v (hp.known c (h.kept_mem hk) v hv)
  · exact h.rows_known hp hw hr
  · exact hp.valid c (h.kept_mem hk)
  · exact w.lowers.valid (hp.valid _ (h.source_mem hw)) c hr

end Passed

namespace Problem

theorem Grounded.after {p : Problem α} (h : p.Grounded) (passes : List Pass) :
    (p.after passes).Grounded ∧ p.Extends (p.after passes) := by
  refine after_keeps (P := fun q => q.Grounded ∧ p.Extends q) ⟨h, .refl _⟩ ?_ passes
  rintro q r pass kept ws passed ⟨grounded, grows⟩
  exact ⟨passed.grounded grounded, grows.trans passed.grows⟩

theorem Grounded.lower {p : Problem α} (h : p.Grounded) : p.lower.1.Grounded ∧ p.Extends p.lower.1 := by
  rw [lower_after]
  obtain ⟨grounded, grows⟩ := h.after p.policy.passes
  exact ⟨⟨grounded.registry, grounded.known, grounded.valid⟩, grows⟩

theorem addAll_ok {p q : Problem α} {cs : List (Constraint α)} (h : p.addAll cs = .ok q) :
    ∃ staged, p.registry.stage (cs.flatMap Constraint.occurrences) = .ok staged ∧
      (∀ c ∈ cs, c.validate = .ok ()) ∧ q.registry = p.registry.insertAll staged ∧
      q.constraints.Perm (p.constraints ++ cs) ∧ q.policy = p.policy ∧ q.objective = p.objective := by
  unfold addAll at h
  simp only [bind_eq_ok, pure_eq_ok] at h
  obtain ⟨_, checked, staged, hs, rfl⟩ := h
  obtain ⟨hc, hr, hp, ho⟩ := push_fold
    { p with registry := p.registry.insertAll staged, flags := .none } cs
  exact ⟨staged, hs, forM_ok.mp checked, hr, hc, hp, ho⟩

theorem Grounded.addAll {p q : Problem α} (h : p.Grounded) {cs : List (Constraint α)}
    (ok : p.addAll cs = .ok q) : q.Grounded ∧ p.Extends q := by
  obtain ⟨staged, hs, hv, hr, hc, -⟩ := addAll_ok ok
  have grows : p.Extends q := by
    rw [Problem.Extends, hr]
    exact p.registry.grows_insertAll staged
  refine ⟨⟨hr ▸ h.registry.insertAll staged, ?_, ?_⟩, grows⟩
  · intro c hm v hocc
    rcases List.mem_append.mp (hc.mem_iff.mp hm) with hm | hm
    · exact grows.knows v (h.known c hm v hocc)
    · exact hr ▸ h.registry.knows_staged hs v (List.mem_flatMap.mpr ⟨c, hm, hocc⟩)
  · intro c hm
    rcases List.mem_append.mp (hc.mem_iff.mp hm) with hm | hm
    · exact h.valid c hm
    · exact hv c hm

theorem setObjective_ok {p q : Problem α} {e : Expression α} {sense : Sense} {events : List (Event α)}
    (h : p.setObjective e sense = .ok (q, events)) :
    ∃ staged, p.registry.stage e.occurrences = .ok staged ∧
      q = { p with objective := some e, sense, registry := p.registry.insertAll staged } := by
  unfold setObjective at h
  simp only [bind_eq_ok, pure_eq_ok, Prod.mk.injEq] at h
  obtain ⟨staged, hs, rfl, -⟩ := h
  exact ⟨staged, hs, rfl⟩

theorem applyGlobalBounds_ok {p q : Problem α} {low high : α}
    (h : p.applyGlobalBounds low high = .ok q) :
    q = { p with registry := p.registry.mapCurrent (·.overrideBounds low high) } := by
  unfold applyGlobalBounds at h
  split at h
  · simp at h
  · exact (pure_eq_ok.mp h).symm

theorem setValue_ok {p q : Problem α} {name : String} {value : α}
    (h : p.setValue name value = .ok q) :
    ∃ v, p.lookup name = some v ∧ q = { p with registry := p.registry.replace name (v.store value) } := by
  unfold setValue at h
  split at h
  · simp at h
  · rename_i v hv
    exact ⟨v, hv, (pure_eq_ok.mp h).symm⟩

theorem changeBounds_ok {v w : Variable α} {change : Variable.BoundChange α}
    (h : v.changeBounds change = .ok w) : w.name = v.name ∧ w.domain = v.domain := by
  cases change
  all_goals
    simp only [Variable.changeBounds, Variable.setLower, Variable.setUpper, Variable.setBounds, bind_eq_ok,
      pure_eq_ok] at h
    obtain ⟨-, -, rfl⟩ := h
    exact ⟨rfl, rfl⟩

theorem changeBounds?_ok {p q : Problem α} {name : String} {change : Variable.BoundChange α}
    (h : p.changeBounds? name change = some (.ok q)) :
    ∃ v w, p.lookup name = some v ∧ w.name = v.name ∧ w.domain = v.domain ∧
      q = { p with registry := p.registry.replace name w } := by
  unfold changeBounds? at h
  obtain ⟨v, hv, h⟩ := Option.map_eq_some_iff.mp h
  simp only [bind_eq_ok, pure_eq_ok] at h
  obtain ⟨w, hw, rfl⟩ := h
  exact ⟨v, w, hv, (changeBounds_ok hw).1, (changeBounds_ok hw).2, rfl⟩

theorem Grounded.applyGlobalBounds {p q : Problem α} (h : p.Grounded) {low high : α}
    (ok : p.applyGlobalBounds low high = .ok q) : q.Grounded ∧ p.Extends q :=
  applyGlobalBounds_ok ok ▸ h.rebound rfl
    (h.registry.mapCurrent fun v => v.overrideBounds_keeps low high)

/-- The open bounds set where that is asked for and the global bounds are not reversed. -/
def bounded (p : Problem α) (bounds : Option (α × α)) : Problem α :=
  match bounds with
  | none => p
  | some (low, high) =>
    if high < low then p else { p with registry := p.registry.mapCurrent (·.overrideBounds low high) }

theorem bounded_frame (p : Problem α) (bounds : Option (α × α)) :
    p.bounded bounds = { p with registry := (p.bounded bounds).registry } := by
  unfold bounded
  split
  · rfl
  · split <;> rfl

theorem applyBounds_ok {config : SolverConfig α} {p q : Problem α} : Assembly.applyBounds config p = .ok q ↔
    (∀ b ∈ config.bounds, ¬b.2 < b.1) ∧ p.bounded config.bounds = q := by
  unfold Assembly.applyBounds bounded applyGlobalBounds
  cases config.bounds with
  | none => simp
  | some b => by_cases reversed : b.2 < b.1 <;> simp [reversed]

theorem applyBounds_error {config : SolverConfig α} {p : Problem α} {r : Refusal α}
    (h : Assembly.applyBounds config p = .error r) :
    (∃ b ∈ config.bounds, b.2 < b.1 ∧ r = .globalBoundsReversed b.1 b.2) ∧ p.bounded config.bounds = p := by
  unfold Assembly.applyBounds applyGlobalBounds at h
  unfold bounded
  cases asked : config.bounds with
  | none =>
    rw [asked] at h
    cases h
  | some b =>
    by_cases reversed : b.2 < b.1
    · simp only [asked, reversed, ↓reduceIte] at h ⊢
      exact ⟨⟨b, rfl, reversed, (Except.error.inj h).symm⟩, trivial⟩
    · simp only [asked, reversed, ↓reduceIte] at h
      cases h

theorem ofReady_problem (config : SolverConfig α) (p : Problem α) (events : List (Event α)) :
    (Assembly.ofReady config p events).problem = p := by
  unfold Assembly.ofReady
  split
  · rfl
  · dsimp only
    split <;> rfl

/-- An assembly leaves the lowered problem with its open bounds set, whether or not a model comes of it. -/
theorem assembly_bounded (config : SolverConfig α) (p : Problem α) :
    (Assembly.ofProblem config p).problem = p.lower.1.bounded config.bounds := by
  unfold Assembly.ofProblem
  cases set : Assembly.applyBounds config p.lower.1 with
  | error r =>
    simp only [set]
    exact (applyBounds_error set).2.symm
  | ok q =>
    rw [(applyBounds_ok.mp set).2]
    simp only [set]
    cases Assembly.checkReady q with
    | error r => rfl
    | ok u => exact ofReady_problem config q _

theorem assembly_problem (config : SolverConfig α) (p : Problem α) :
    (Assembly.ofProblem config p).problem = p.lower.1 ∨
      ∃ low high, p.lower.1.applyGlobalBounds low high =
        .ok (Assembly.ofProblem config p).problem := by
  rw [assembly_bounded]
  unfold bounded
  split
  · exact .inl rfl
  · rename_i low high asked
    split
    · exact .inl rfl
    · rename_i ordered
      exact .inr ⟨low, high, if_neg ordered⟩

/-- Between lowering and the model only bounds are set. -/
theorem assembly_frame (config : SolverConfig α) (p : Problem α) :
    (Assembly.ofProblem config p).problem =
      { p.lower.1 with registry := (Assembly.ofProblem config p).problem.registry } := by
  rw [assembly_bounded]
  exact p.lower.1.bounded_frame config.bounds

theorem assembly_objective (config : SolverConfig α) (p : Problem α) :
    (Assembly.ofProblem config p).problem.objective = p.objective.map Expression.expand := by
  rw [assembly_frame]
  exact p.lower_objective.1

theorem Grounded.step {p q : Problem α} {cs : List (Constraint α)} (h : p.Grounded)
    (step : Step p cs q) : q.Grounded ∧ p.Extends q := by
  cases step with
  | objective ok =>
    obtain ⟨staged, -, rfl⟩ := setObjective_ok ok
    exact h.rebound rfl ⟨h.registry.insertAll staged, p.registry.grows_insertAll staged⟩
  | sense | configured => exact h.rebound rfl ⟨h.registry, .refl _⟩
  | posted ok => exact h.addAll ok
  | substituted pass => exact h.after [pass]
  | lowered => exact h.lower
  | globalBounds ok => exact h.applyGlobalBounds ok
  | boundsChanged ok =>
    obtain ⟨v, w, found, hn, hd, rfl⟩ := changeBounds?_ok ok
    exact h.rebound rfl (h.registry.replace found ⟨hn, hd⟩)
  | valuesStored values =>
    have kept (v : Variable α) : (v.store (values v.name)).name = v.name ∧
        (v.store (values v.name)).domain = v.domain := ⟨rfl, rfl⟩
    exact h.rebound rfl (h.registry.mapCurrent kept)
  | valueStored ok =>
    obtain ⟨v, found, rfl⟩ := setValue_ok ok
    exact h.rebound rfl (h.registry.replace found ⟨rfl, rfl⟩)
  | built config =>
    obtain ⟨grounded, grows⟩ := h.lower
    rcases assembly_problem config p with hq | ⟨low, high, hq⟩
    · exact hq ▸ ⟨grounded, grows⟩
    · obtain ⟨bounded, further⟩ := grounded.applyGlobalBounds hq
      exact ⟨bounded, grows.trans further⟩

end Problem

theorem Reachable.grounded {p : Problem α} (h : Reachable p) : p.Grounded := by
  induction h with
  | start => exact ⟨Registry.empty_consistent, by simp [Problem.empty, Problem.withPolicy,
      Problem.constraints], by simp [Problem.empty, Problem.withPolicy, Problem.constraints]⟩
  | step _ step ih => exact (ih.step step).1
  | removal _ removal ih => exact ih.removal removal

end MixedInteger
