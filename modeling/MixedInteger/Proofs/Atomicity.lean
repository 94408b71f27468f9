import MixedInteger.Problem.Change
import MixedInteger.Proofs.Checks
import MixedInteger.Proofs.WriteBack

/-!
All or nothing. Edits assign in place, and yet a refused one leaves the desk as it found it, because its checks only
read and nothing after the last of them can be refused.
-/

namespace MixedInteger

variable {α β γ : Type}

namespace Registry

theorem replace_replace (r : Registry α) (name : String) (v w : Variable α) :
    (r.replace name v).replace name w = r.replace name w := by
  unfold replace
  rw [List.map_map]
  congr 2
  funext e
  dsimp only [Function.comp]
  split <;> simp_all

theorem revise_found {r : Registry α} {name : String} {v : Variable α} (found : r.get? name = some v)
    (f : Variable α → Variable α) : r.revise name f = r.replace name (f v) := by
  simp only [revise, found]

/-- One change after the other comes to both at once. -/
theorem revise_revise {r : Registry α} {name : String} {v : Variable α} (found : r.get? name = some v)
    (f g : Variable α → Variable α) : (r.revise name f).revise name g = r.replace name (g (f v)) := by
  have changed : (r.replace name (f v)).get? name = some (f v) := by
    rw [get?_replace, if_pos rfl, found, Option.map_some]
  rw [revise_found found, revise_found changed, replace_replace]

/-- Place by place every variable in use is changed, each of them once. -/
theorem foldl_reviseAt (r : Registry α) (f : Variable α → Variable α) :
    (List.range r.entries.length).foldl (fun r place => r.reviseAt place f) r = r.mapCurrent f := by
  have steps (n j : Nat) : ((List.range n).foldl (fun r place => r.reviseAt place f) r).entries[j]? =
      if j < n then r.entries[j]?.map fun e => { e with current := f e.current } else r.entries[j]? := by
    induction n with
    | zero => rfl
    | succ n ih =>
      rw [List.range_succ, List.foldl_append, List.foldl_cons, List.foldl_nil, reviseAt,
        List.getElem?_modify, ih]
      rcases Nat.lt_trichotomy j n with below | rfl | above
      · simp [below, Nat.lt_succ_of_lt below, Nat.ne_of_gt below]
      · simp
      · simp [Nat.not_lt.mpr (Nat.le_of_lt above), Nat.not_lt.mpr above, Nat.ne_of_lt above]
  refine congrArg Registry.mk (List.ext_getElem? fun j => ?_)
  rw [steps, List.getElem?_map]
  split
  · rfl
  · rename_i beyond
    rw [List.getElem?_eq_none (Nat.not_lt.mp beyond), Option.map_none]

end Registry

namespace Edit

variable {d : Desk α}

/-- Going on happens on the desk that was left; a refusal keeps that desk. -/
theorem on_bind (x : Edit α β) (f : β → Edit α γ) : (x >>= f).on d =
    match x.on d with
    | (.ok b, d) => (f b).on d
    | (.error r, d) => (.error r, d) := by
  unfold on
  rw [ExceptT.run_bind, StateT.run_bind]
  rcases x.run.run d with ⟨_ | _, _⟩ <;> rfl

theorem on_check (test : Problem α → Except (Refusal α) β) : (check test).on d = (test d.problem, d) := rfl

theorem on_write (f : Problem α → Problem α) : (write f).on d = (.ok (), { d with problem := f d.problem }) :=
  rfl

theorem on_report (e : Event α) : (report e).on d = (.ok (), { d with events := d.events ++ [e] }) := rfl

/-- A passed check leads on, from the same desk. -/
theorem on_check_bind {test : Problem α → Except (Refusal α) β} {b : β} (passed : test d.problem = .ok b)
    (f : β → Edit α γ) : (check test >>= f).on d = (f b).on d := by
  rw [on_bind, on_check, passed]

theorem on_check_refused {test : Problem α → Except (Refusal α) β} {r : Refusal α}
    (failed : test d.problem = .error r) (f : β → Edit α γ) :
    (check test >>= f).on d = (.error r, d) := by
  rw [on_bind, on_check, failed]

theorem on_write_bind (g : Problem α → Problem α) (f : Unit → Edit α γ) :
    (write g >>= f).on d = (f ()).on { d with problem := g d.problem } := by
  rw [on_bind, on_write]

/-- Checks one after the other are one check. -/
theorem on_forM_check (xs : List β) (test : β → Except (Refusal α) Unit) :
    (xs.forM fun x => check fun _ => test x : Edit α Unit).on d = (xs.forM test, d) := by
  induction xs with
  | nil => rfl
  | cons x xs ih =>
    change (check (fun _ => test x) >>= fun _ => xs.forM fun x => check fun _ => test x).on d =
      (test x >>= fun _ => xs.forM test, d)
    cases test x with
    | error r => exact on_check_refused rfl _
    | ok u =>
      rw [on_check_bind (b := u) rfl, ih]
      rfl

/-- Assignments are never refused. -/
theorem on_forM_write (xs : List β) (g : β → Problem α → Problem α) :
    (xs.forM fun x => write (g x) : Edit α Unit).on d =
      (.ok (), { d with problem := xs.foldl (fun p x => g x p) d.problem }) := by
  induction xs generalizing d with
  | nil => rfl
  | cons x xs ih => exact (on_write_bind (g x) _).trans ih

/-- Registering is assigning, too. -/
theorem on_forM_register (vs : List (Variable α)) : (vs.forM register : Edit α Unit).on d =
    (.ok (), { d with problem := { d.problem with registry := d.problem.registry.insertAll vs } }) := by
  induction vs generalizing d with
  | nil => rfl
  | cons v vs ih => exact (on_write_bind _ _).trans ih

end Edit

namespace Problem

/-- Storing constraints leaves the flags alone, so it does not matter which comes first. -/
theorem foldl_push_flags (p : Problem α) (cs : List (Constraint α)) (flags : PassFlags) :
    { cs.foldl push p with flags } = cs.foldl push { p with flags } := by
  induction cs generalizing p with
  | nil => rfl
  | cons c cs ih =>
    rw [List.foldl_cons, List.foldl_cons, ih]
    cases c <;> rfl

theorem foldl_registry {β : Type} (p : Problem α) (xs : List β) (g : Registry α → β → Registry α) :
    xs.foldl (fun p x => { p with registry := g p.registry x }) p =
      { p with registry := xs.foldl g p.registry } := by
  induction xs generalizing p with
  | nil => rfl
  | cons x xs ih => exact ih _

end Problem

/-- An edit carries an operation out: it leaves what the operation returns with its events after the earlier ones, and
what the operation refuses it refuses without a trace. -/
def Edit.CarriesOut (edit : Edit α Unit)
    (operation : Problem α → Except (Refusal α) (Problem α × List (Event α))) : Prop :=
  ∀ d : Desk α, edit.on d =
    match operation d.problem with
    | .ok (q, events) => (.ok (), ⟨q, d.events ++ events⟩)
    | .error r => (.error r, d)

namespace Edit

/-- The operations that report nothing. -/
theorem carriesOut_quiet {edit : Edit α Unit} {operation : Problem α → Except (Refusal α) (Problem α)}
    (h : ∀ d : Desk α, edit.on d =
      match operation d.problem with
      | .ok q => (.ok (), { d with problem := q })
      | .error r => (.error r, d)) :
    edit.CarriesOut fun p => (operation p).map fun q => (q, []) := by
  intro d
  rw [h]
  dsimp only
  cases operation d.problem with
  | error r => rfl
  | ok q => exact congrArg (fun events => (Except.ok (), Desk.mk q events)) (List.append_nil _).symm

/-- A checked change of one variable. -/
theorem on_checked {d : Desk α} {test : Except (Refusal α) Unit} {x : Edit α Unit} {w : Variable α}
    {q : Variable α → Problem α} (done : x.on d = (.ok (), { d with problem := q w })) :
    (check (fun _ => test) >>= fun _ => x).on d =
      match (do
        let changed ← (do
          test
          return w)
        return q changed : Except (Refusal α) (Problem α)) with
      | .ok q => (.ok (), { d with problem := q })
      | .error r => (.error r, d) := by
  cases test with
  | error r => exact on_check_refused rfl _
  | ok u => exact (on_check_bind (b := u) rfl _).trans done

variable [Scalar α]

theorem setObjective_carriesOut (e : Expression α) (sense : Sense) :
    (setObjective e sense).CarriesOut (·.setObjective e sense) := by
  intro d
  unfold setObjective Problem.setObjective
  dsimp only
  cases staged : d.problem.registry.stage e.occurrences with
  | error r => exact on_check_refused staged _
  | ok vs =>
    rw [on_check_bind staged]
    cases e.hasNoTerms
    · simp only [Bool.false_eq_true, ↓reduceIte, on_bind, on_forM_register, on_write]
      exact congrArg (fun events => (Except.ok (), Desk.mk _ events)) (List.append_nil _).symm
    · simp only [↓reduceIte, on_bind, on_report, on_forM_register, on_write]
      rfl

theorem addAll_carriesOut (cs : List (Constraint α)) :
    (addAll cs).CarriesOut fun p => (p.addAll cs).map fun q => (q, []) := by
  apply carriesOut_quiet
  intro d
  unfold addAll Problem.addAll
  rw [on_bind, on_forM_check]
  cases valid : cs.forM Constraint.validate with
  | error r => rfl
  | ok u =>
    dsimp only
    cases staged : d.problem.registry.stage (cs.flatMap Constraint.occurrences) with
    | error r => exact on_check_refused staged _
    | ok vs =>
      rw [on_check_bind staged]
      simp only [on_bind, on_forM_register, on_forM_write, on_write, Problem.foldl_push_flags]
      rfl

theorem applyGlobalBounds_carriesOut (low high : α) :
    (applyGlobalBounds low high).CarriesOut fun p => (p.applyGlobalBounds low high).map fun q => (q, []) := by
  apply carriesOut_quiet
  intro d
  unfold applyGlobalBounds Problem.applyGlobalBounds
  by_cases reversed : high < low
  · simp only [if_pos reversed]
    exact on_check_refused rfl _
  · have each : (List.range d.problem.registry.entries.length).foldl (fun (p : Problem α) place =>
        { p with registry := p.registry.reviseAt place (·.overrideBounds low high) }) d.problem =
        { d.problem with registry := d.problem.registry.mapCurrent (·.overrideBounds low high) } := by
      rw [← Registry.foldl_reviseAt]
      exact Problem.foldl_registry _ _ fun r place => r.reviseAt place (·.overrideBounds low high)
    simp only [if_neg reversed]
    rw [on_check_bind (b := ()) rfl, on_check_bind (b := d.problem.registry.entries.length) rfl, on_forM_write, each]
    rfl

theorem setValue_carriesOut (name : String) (value : α) :
    (setValue name value).CarriesOut fun p => (p.setValue name value).map fun q => (q, []) := by
  apply carriesOut_quiet
  intro d
  unfold setValue Problem.setValue
  cases found : d.problem.lookup name with
  | none => exact on_check_refused (by rw [found]; rfl) _
  | some v =>
    rw [on_check_bind (b := ()) (by rw [found]; rfl), revise, on_write]
    dsimp only
    rw [Registry.revise_found found]
    rfl

theorem changeBounds_carriesOut (name : String) (change : Variable.BoundChange α) :
    (changeBounds name change).CarriesOut fun p =>
      ((p.changeBounds? name change).getD (.ok p)).map fun q => (q, []) := by
  apply carriesOut_quiet
  intro d
  unfold changeBounds Problem.changeBounds?
  rw [on_check_bind (b := d.problem.lookup name) rfl]
  cases found : d.problem.lookup name with
  | none => rfl
  | some v =>
    rw [Option.map_some, Option.getD_some]
    cases change with
    | lower bound =>
      refine on_checked ?_
      rw [revise, on_write, Registry.revise_found found]
    | upper bound =>
      refine on_checked ?_
      rw [revise, on_write, Registry.revise_found found]
    | both low high =>
      refine on_checked ?_
      rw [revise, revise, on_write_bind, on_write, Registry.revise_revise found]
      rfl

end Edit

namespace Change

variable [Scalar α]

theorem edit_carriesOut (c : Change α) : c.edit.CarriesOut c.apply := by
  cases c with
  | intake i =>
    cases i with
    | objective e sense => exact Edit.setObjective_carriesOut e sense
    | constraints cs => exact Edit.addAll_carriesOut cs
  | globalBounds low high => exact Edit.applyGlobalBounds_carriesOut low high
  | bounds name change => exact Edit.changeBounds_carriesOut name change
  | value name x => exact Edit.setValue_carriesOut name x

/-- Carried out in place, an operation comes to what it is as a whole, and where it is refused nothing of the problem
has changed and nothing is logged. -/
theorem edit_atomic (c : Change α) :
    c.edit.CarriesOut c.apply ∧ ∀ (d d' : Desk α) (r : Refusal α), c.edit.on d = (.error r, d') → d' = d := by
  have carries := c.edit_carriesOut
  refine ⟨carries, fun d d' r refused => ?_⟩
  have carried := carries d
  rw [refused] at carried
  cases result : c.apply d.problem with
  | ok done =>
    rw [result] at carried
    cases carried
  | error _ =>
    rw [result] at carried
    exact congrArg Prod.snd carried

/-- The last variable of the last constraint redefines `x`, after `y` and `z` were found to be new. -/
def late : Change Rat :=
  .intake (.constraints
    [.comparison (.ofLinear [.single 1 (.real "y"), .single 1 (.real "x")] .le 3 (1 / 4)),
      .sos1 (.ofMembers [.binary "z", .integer "x"])])

end Change

/-- A problem with `x` alone, its bounds changed since it came, and a report. -/
def Desk.narrowed : Desk Rat :=
  ⟨{ Problem.empty with
      registry := (Registry.empty.insert (.real "x")).replace "x" ((Variable.real "x").between 0 1)
      flags := PassFlags.none.mark .sos1s },
    [.constantObjective]⟩

theorem Change.late_refused : (Change.late.edit.on Desk.narrowed).1 =
      .error (.domainRedefined (.real "x") (.integer "x")) ∧
    (Change.late.edit.on Desk.narrowed).2 = Desk.narrowed :=
  ⟨rfl, (Change.edit_atomic Change.late).2 _ _ (.domainRedefined (.real "x") (.integer "x")) rfl⟩

end MixedInteger
