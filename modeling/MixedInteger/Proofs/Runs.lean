import MixedInteger.Proofs.Atomicity
import MixedInteger.Proofs.Outline

/-!
Runs: everything that is done to a problem from the empty one on, refused changes included. A run has a history, the
definitions of variables in the order in which they came, and the registry keeps the first one of each name.
-/

namespace MixedInteger

/-- The lists that a constraint can be removed from. -/
inductive Kind where
  | comparison
  | sos1
  | disjunction
  | binaryOr

inductive Operation (α : Type) where
  | change (c : Change α)
  | setSense (sense : Sense)
  | configure (policy : LoweringPolicy α)
  | setValues (values : Assignment α)
  | remove (kind : Kind) (i : Nat)
  | substitute (pass : Pass)
  | lower
  | build (config : SolverConfig α)

variable {α : Type}

/-- Whether an operation runs passes. -/
def Operation.lowers : Operation α → Bool
  | substitute _ | lower | build _ => true
  | _ => false

def Problem.without (p : Problem α) (kind : Kind) (i : Nat) : Problem α :=
  match kind with
  | .comparison => (p.removeComparison i).2
  | .sos1 => (p.removeSos1 i).2
  | .disjunction => (p.removeDisjunction i).2
  | .binaryOr => (p.removeBinaryOr i).2

theorem Problem.without_removal (p : Problem α) (kind : Kind) (i : Nat) : Removal p (p.without kind i) := by
  cases kind
  · exact .comparison p i
  · exact .sos1 p i
  · exact .disjunction p i
  · exact .binaryOr p i

/-- What reports nothing answers with the problem alone. -/
theorem silent_ok {x : Except (Refusal α) (Problem α)} {q : Problem α} {events : List (Event α)} :
    (x.map fun q => (q, [])) = .ok (q, events) ↔ x = .ok q ∧ events = [] := by
  cases x with
  | error r => simp [Except.map]
  | ok p => simp [Except.map, eq_comm]

/-- Whether a change brings variables in. -/
def Change.isIntake : Change α → Bool
  | intake _ => true
  | _ => false

namespace Intake

/-- A problem after an intake that is taken. -/
def stored (i : Intake α) (p : Problem α) : Problem α :=
  match i with
  | objective e sense => { p with objective := some e, sense, registry := p.registry.insertAll e.occurrences }
  | constraints cs =>
    cs.foldl .push { p with
      registry := p.registry.insertAll (cs.flatMap Constraint.occurrences), flags := .none }

theorem stored_registry (i : Intake α) (p : Problem α) :
    (i.stored p).registry = p.registry.insertAll i.occurrences := by
  cases i with
  | objective e sense => rfl
  | constraints cs => exact (Problem.push_fold _ cs).2.1

theorem outline_stored (i : Intake α) (p : Problem α) : (i.stored p).outline = (i.stored p.outline).outline := by
  cases i with
  | objective e sense =>
    simp only [stored, Problem.outline, Registry.asDeclared_insertAll, Registry.asDeclared_asDeclared]
  | constraints cs =>
    simp only [stored, Problem.outline_pushAll]
    simp only [Problem.outline, Registry.asDeclared_insertAll, Registry.asDeclared_asDeclared]

end Intake

variable [Scalar α]

/-- Where there is no such variable nothing changes, and otherwise its bounds do. -/
theorem Problem.changeBounds_cases {p q : Problem α} {name : String} {change : Variable.BoundChange α}
    (ok : (p.changeBounds? name change).getD (.ok p) = .ok q) :
    q = p ∨ p.changeBounds? name change = some (.ok q) := by
  cases result : p.changeBounds? name change with
  | none =>
    rw [result, Option.getD_none, Except.ok.injEq] at ok
    exact .inl ok.symm
  | some done =>
    rw [result, Option.getD_some] at ok
    exact .inr (congrArg some ok)

/-- What is left of a problem when a change was tried. -/
def Change.outcome (c : Change α) (p : Problem α) : Problem α := (c.edit.on ⟨p, []⟩).2.problem

theorem Change.outcome_eq (c : Change α) (p : Problem α) : c.outcome p =
    match c.apply p with
    | .ok (q, _) => q
    | .error _ => p := by
  rw [outcome, c.edit_carriesOut]
  dsimp only
  cases c.apply p <;> rfl

theorem Change.outcome_ok {c : Change α} {p q : Problem α} {events : List (Event α)}
    (ok : c.apply p = .ok (q, events)) : c.outcome p = q := by
  rw [outcome_eq, ok]

namespace Operation

def perform (a : Operation α) (p : Problem α) : Problem α :=
  match a with
  | change c => c.outcome p
  | setSense sense => p.setSense sense
  | configure policy => p.configure policy
  | setValues values => p.setValues values
  | remove kind i => p.without kind i
  | substitute pass => (p.substitute pass).1
  | lower => p.lower.1
  | build config => (Assembly.ofProblem config p).problem

def performAll (as : List (Operation α)) (p : Problem α) : Problem α := as.foldl (fun p a => a.perform p) p

end Operation

/-- A problem after a run. -/
def Problem.ofOperations (as : List (Operation α)) : Problem α := Operation.performAll as .empty

section Reachability

theorem Step.exists_operation {p q : Problem α} {cs : List (Constraint α)} (step : Step p cs q) :
    ∃ a : Operation α, a.perform p = q := by
  cases step with
  | objective ok => exact ⟨.change (.intake (.objective _ _)), Change.outcome_ok ok⟩
  | sense sense => exact ⟨.setSense sense, rfl⟩
  | configured policy => exact ⟨.configure policy, rfl⟩
  | posted ok => exact ⟨.change (.intake (.constraints cs)), Change.outcome_ok (silent_ok.mpr ⟨ok, rfl⟩)⟩
  | substituted pass => exact ⟨.substitute pass, rfl⟩
  | lowered => exact ⟨.lower, rfl⟩
  | globalBounds ok => exact ⟨.change (.globalBounds _ _), Change.outcome_ok (silent_ok.mpr ⟨ok, rfl⟩)⟩
  | boundsChanged ok =>
    exact ⟨.change (.bounds _ _), Change.outcome_ok (silent_ok.mpr ⟨congrArg (·.getD (.ok p)) ok, rfl⟩)⟩
  | valuesStored values => exact ⟨.setValues values, rfl⟩
  | valueStored ok => exact ⟨.change (.value _ _), Change.outcome_ok (silent_ok.mpr ⟨ok, rfl⟩)⟩
  | built config => exact ⟨.build config, rfl⟩

theorem Removal.exists_operation {p q : Problem α} (removal : Removal p q) :
    ∃ a : Operation α, a.perform p = q := by
  cases removal with
  | comparison i => exact ⟨.remove .comparison i, rfl⟩
  | sos1 i => exact ⟨.remove .sos1 i, rfl⟩
  | disjunction i => exact ⟨.remove .disjunction i, rfl⟩
  | binaryOr i => exact ⟨.remove .binaryOr i, rfl⟩

theorem Change.step_of_ok {c : Change α} {p q : Problem α} {events : List (Event α)}
    (ok : c.apply p = .ok (q, events)) : q = p ∨ ∃ cs, Step p cs q := by
  cases c with
  | intake i =>
    cases i with
    | objective e sense => exact .inr ⟨_, .objective ok⟩
    | constraints cs => exact .inr ⟨_, .posted (silent_ok.mp ok).1⟩
  | globalBounds low high => exact .inr ⟨_, .globalBounds (silent_ok.mp ok).1⟩
  | bounds name change =>
    exact (Problem.changeBounds_cases (silent_ok.mp ok).1).imp_right fun changed => ⟨_, .boundsChanged changed⟩
  | value name x => exact .inr ⟨_, .valueStored (silent_ok.mp ok).1⟩

theorem Reachable.perform {p : Problem α} (h : Reachable p) (a : Operation α) : Reachable (a.perform p) := by
  cases a with
  | change c =>
    rw [Operation.perform, c.outcome_eq]
    cases taken : c.apply p with
    | error r => exact h
    | ok done =>
      rcases Change.step_of_ok taken with same | ⟨cs, step⟩
      · exact same ▸ h
      · exact h.step step
  | setSense sense => exact h.step (.sense p sense)
  | configure policy => exact h.step (.configured p policy)
  | setValues values => exact h.step (.valuesStored p values)
  | remove kind i => exact h.removal (p.without_removal kind i)
  | substitute pass => exact h.step (.substituted p pass)
  | lower => exact h.step (.lowered p)
  | build config => exact h.step (.built p config)

/-- The problems that can be reached are those that runs end in. -/
theorem reachable_iff_ofOperations {p : Problem α} : Reachable p ↔ ∃ as, Problem.ofOperations as = p := by
  constructor
  · intro h
    have more {q r : Problem α} (run : ∃ as, Problem.ofOperations as = q)
        (operation : ∃ a : Operation α, a.perform q = r) : ∃ as, Problem.ofOperations as = r := by
      obtain ⟨as, rfl⟩ := run
      obtain ⟨a, rfl⟩ := operation
      exact ⟨as ++ [a], List.foldl_append⟩
    induction h with
    | start => exact ⟨[], rfl⟩
    | step _ step ih => exact more ih step.exists_operation
    | removal _ removal ih => exact more ih removal.exists_operation
  · rintro ⟨as, rfl⟩
    have onward {q : Problem α} (h : Reachable q) : Reachable (Operation.performAll as q) := by
      induction as generalizing q with
      | nil => exact h
      | cons a as ih => exact ih (h.perform a)
    exact onward .start

end Reachability

section Definitions

/-- The variables that an operation brings, those of a change that is refused excepted. -/
def Operation.arrivals (a : Operation α) (p : Problem α) : List (Variable α) :=
  match a with
  | change (.intake i) =>
    match i.apply p with
    | .ok _ => i.occurrences
    | .error _ => []
  | substitute pass => (p.produced [pass]).flatMap Constraint.occurrences
  | lower | build _ => (p.produced p.policy.passes).flatMap Constraint.occurrences
  | _ => []

/-- Every definition of a variable that came in, in the order in which they came. -/
def Operation.definitions (p : Problem α) : List (Operation α) → List (Variable α)
  | [] => []
  | a :: as => a.arrivals p ++ definitions (a.perform p) as

namespace Intake

/-- The constraints pass their own checks, and every occurrence agrees with the first definition of its name. -/
def Agrees (i : Intake α) (earlier : List (Variable α)) : Prop :=
  (match i with
    | objective _ _ => True
    | constraints cs => ∀ c ∈ cs, c.validate = .ok ()) ∧ Admits earlier i.occurrences

theorem apply_ok_iff {i : Intake α} {p q : Problem α} : (∃ events, i.apply p = .ok (q, events)) ↔
    i.Agrees p.registry.declarations ∧ q = i.stored p := by
  cases i with
  | objective e sense =>
    simp only [apply, Problem.setObjective_ok_iff, Agrees, occurrences, stored, true_and]
    constructor
    · rintro ⟨_, admits, rfl, -⟩
      exact ⟨admits, rfl⟩
    · rintro ⟨admits, rfl⟩
      exact ⟨_, admits, rfl, rfl⟩
  | constraints cs =>
    simp only [apply, silent_ok, Problem.addAll_ok_iff, Agrees, occurrences, stored, exists_and_left,
      exists_eq, and_true, and_assoc]

def isAccepted (i : Intake α) (p : Problem α) : Bool := (i.apply p).isOk

theorem isAccepted_iff {i : Intake α} {p : Problem α} :
    i.isAccepted p = true ↔ i.Agrees p.registry.declarations := by
  rw [isAccepted]
  cases taken : i.apply p with
  | ok done => exact iff_of_true rfl (apply_ok_iff.mp ⟨_, taken⟩).1
  | error r =>
    refine iff_of_false Bool.false_ne_true fun agrees => ?_
    obtain ⟨_, ok⟩ := apply_ok_iff.mpr ⟨agrees, rfl⟩
    rw [taken] at ok
    cases ok

end Intake

/-- An intake is taken as a whole or leaves everything as it was. -/
theorem Operation.intake_cases (i : Intake α) (p : Problem α) :
    (i.Agrees p.registry.declarations ∧
      (change (.intake i)).perform p = i.stored p ∧ (change (.intake i)).arrivals p = i.occurrences) ∨
    (¬ i.Agrees p.registry.declarations ∧
      (change (.intake i)).perform p = p ∧ (change (.intake i)).arrivals p = []) := by
  rw [← Intake.isAccepted_iff, Intake.isAccepted, perform, Change.outcome_eq, arrivals, Change.apply]
  cases taken : i.apply p with
  | ok done => exact .inl ⟨rfl, (Intake.apply_ok_iff.mp ⟨_, taken⟩).2, rfl⟩
  | error r => exact .inr ⟨Bool.false_ne_true, rfl, rfl⟩

/-- Problems with which an intake agrees alike take it alike. -/
theorem Operation.intake_alike {i : Intake α} {p q : Problem α}
    (alike : i.Agrees p.registry.declarations ↔ i.Agrees q.registry.declarations) :
    (change (.intake i)).arrivals p = (change (.intake i)).arrivals q ∧
      ((change (.intake i)).perform p = i.stored p ∧ (change (.intake i)).perform q = i.stored q ∨
        (change (.intake i)).perform p = p ∧ (change (.intake i)).perform q = q) := by
  rcases intake_cases i p with ⟨hp, performed, arrived⟩ | ⟨hp, performed, arrived⟩
  all_goals rcases intake_cases i q with ⟨hq, performed', arrived'⟩ | ⟨hq, performed', arrived'⟩
  · exact ⟨arrived.trans arrived'.symm, .inl ⟨performed, performed'⟩⟩
  · exact absurd (alike.mp hp) hq
  · exact absurd (alike.mpr hq) hp
  · exact ⟨arrived.trans arrived'.symm, .inr ⟨performed, performed'⟩⟩

theorem Change.outcome_intake (i : Intake α) (p : Problem α) :
    (Change.intake i).outcome p = if i.isAccepted p then i.stored p else p := by
  rcases Operation.intake_cases i p with ⟨agrees, performed, -⟩ | ⟨disagrees, performed, -⟩
  · rw [if_pos (Intake.isAccepted_iff.mpr agrees)]
    exact performed
  · rw [if_neg fun accepted => disagrees (Intake.isAccepted_iff.mp accepted)]
    exact performed

/-- A change that brings no variables in touches the registry at most. -/
theorem Change.intake_or_rebound (c : Change α) (p : Problem α) :
    (∃ i, c = .intake i) ∨ c.isIntake = false ∧ ∃ registry, c.outcome p = { p with registry } := by
  rw [outcome_eq]
  cases c with
  | intake i => exact .inl ⟨i, rfl⟩
  | globalBounds low high =>
    refine .inr ⟨rfl, ?_⟩
    cases taken : (globalBounds low high).apply p with
    | error r => exact ⟨p.registry, rfl⟩
    | ok done => exact ⟨_, Problem.applyGlobalBounds_ok (silent_ok.mp taken).1⟩
  | bounds name change =>
    refine .inr ⟨rfl, ?_⟩
    cases taken : (bounds name change).apply p with
    | error r => exact ⟨p.registry, rfl⟩
    | ok done =>
      rcases Problem.changeBounds_cases (silent_ok.mp taken).1 with same | changed
      · exact ⟨p.registry, same⟩
      · obtain ⟨v, w, -, -, -, left⟩ := Problem.changeBounds?_ok changed
        exact ⟨_, left⟩
  | value name x =>
    refine .inr ⟨rfl, ?_⟩
    cases taken : (value name x).apply p with
    | error r => exact ⟨p.registry, rfl⟩
    | ok done =>
      obtain ⟨v, -, left⟩ := Problem.setValue_ok (silent_ok.mp taken).1
      exact ⟨_, left⟩

/-- Changes of variables in use do not show in the outline. -/
theorem Change.outline_outcome {c : Change α} (h : c.isIntake = false) (p : Problem α) :
    (c.outcome p).outline = p.outline := by
  rw [outcome_eq]
  cases taken : c.apply p with
  | error r => rfl
  | ok done =>
    cases c with
    | intake i => cases h
    | globalBounds low high => exact Problem.outline_applyGlobalBounds (silent_ok.mp taken).1
    | bounds name change =>
      rcases Problem.changeBounds_cases (silent_ok.mp taken).1 with same | changed
      · exact congrArg Problem.outline same
      · exact Problem.outline_changeBounds changed
    | value name x => exact Problem.outline_setValue (silent_ok.mp taken).1

/-- The definitions in the registry after an operation are the earlier ones and what was new among the arrivals. -/
theorem Operation.perform_declarations (a : Operation α) (p : Problem α) :
    (a.perform p).registry.declarations = (p.registry.insertAll (a.arrivals p)).declarations := by
  cases a with
  | change c =>
    cases c with
    | intake i =>
      rcases intake_cases i p with ⟨-, performed, arrived⟩ | ⟨-, performed, arrived⟩
      · rw [performed, arrived, i.stored_registry]
      · rw [performed, arrived]
        rfl
    | globalBounds low high => exact Problem.declarations_of_outline (Change.outline_outcome rfl p)
    | bounds name change => exact Problem.declarations_of_outline (Change.outline_outcome rfl p)
    | value name x => exact Problem.declarations_of_outline (Change.outline_outcome rfl p)
  | setSense sense => rfl
  | configure policy => rfl
  | setValues values => exact Problem.declarations_of_outline (p.outline_setValues values)
  | remove kind i => cases kind <;> rfl
  | substitute pass => exact congrArg Registry.declarations (p.after_registry [pass])
  | lower =>
    rw [perform, p.lower_after]
    exact congrArg Registry.declarations (p.after_registry p.policy.passes)
  | build config =>
    rw [perform, Problem.declarations_of_outline (p.outline_assembly config), p.lower_after]
    exact congrArg Registry.declarations (p.after_registry p.policy.passes)

/-- The registry binds a name by the first definition that came in under it. -/
theorem Operation.firstOf?_performAll (as : List (Operation α)) (p : Problem α) (name : String) :
    firstOf? (performAll as p).registry.declarations name =
      firstOf? (p.registry.declarations ++ definitions p as) name := by
  induction as generalizing p with
  | nil => rw [definitions, List.append_nil, performAll, List.foldl_nil]
  | cons a as ih =>
    calc firstOf? (performAll as (a.perform p)).registry.declarations name
        = firstOf? ((a.perform p).registry.declarations ++ definitions (a.perform p) as) name := ih _
      _ = firstOf? (p.registry.declarations ++ (a.arrivals p ++ definitions (a.perform p) as)) name := by
          rw [firstOf?_append, a.perform_declarations, Registry.firstOf?_insertAll, ← firstOf?_append,
            List.append_assoc]

end Definitions

end MixedInteger
