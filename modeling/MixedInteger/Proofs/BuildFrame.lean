import MixedInteger.Proofs.Atomicity
import MixedInteger.Proofs.SessionHistory
import MixedInteger.Solver.InPlace

/-!
What building leaves behind. The problem is lowered before the first check, so it is left rewritten whatever becomes
of the model; the solver is assigned after the last one, so a build that fails leaves no trace in it.
-/

namespace MixedInteger

variable {α β γ : Type}

namespace Edit

theorem on_read (f : Problem α → β) (d : Desk α) :
    (check fun p => pure (f p) : Edit α β).on d = (.ok (f d.problem), d) := rfl

theorem on_forM_report (xs : List β) (event : β → Event α) (d : Desk α) :
    (xs.forM fun x => report (event x) : Edit α Unit).on d =
      (.ok (), { d with events := d.events ++ xs.map event }) := by
  induction xs generalizing d with
  | nil => rw [List.map_nil, List.append_nil]; rfl
  | cons x xs ih =>
    change (report (event x) >>= fun _ => xs.forM fun x => report (event x)).on d = _
    rw [on_bind, on_report]
    dsimp only
    rw [ih, List.append_assoc]
    rfl

variable [Scalar α]

theorem substitute_on (pass : Pass) (d : Desk α) : (substitute pass).on d =
    (.ok (), ⟨(d.problem.substitute pass).1, d.events ++ (d.problem.substitute pass).2⟩) := by
  simp only [substitute, on_bind, on_read, on_write, on_forM_write, on_report]
  rfl

/-- Pass after pass in place comes to the lowered problem, with the reports of the passes in order. -/
theorem lower_on (d : Desk α) : lower.on d = (.ok (), ⟨d.problem.lower.1, d.events ++ d.problem.lower.2⟩) := by
  -- Each pass reads the policy off the problem that the passes before it left.
  have policy (p : Problem α) (pass : Pass) : (p.substitute pass).1.policy = p.policy :=
    (p.after_frame [pass]).2.2
  cases hb : d.problem.policy.keepsBinaryOr <;> cases hs : d.problem.policy.keepsSos1 <;>
    simp [-List.forM_eq_forM, lower, Problem.lower, Problem.substituteAll, on_bind, on_read, on_write,
      on_forM_report, substitute_on, policy, hb, hs, Option.toList_map]

end Edit

theorem Variable.overrideBounds_frame (v : Variable α) (low high : α) : v.overrideBounds low high =
    { v with lower := (v.overrideBounds low high).lower, upper := (v.overrideBounds low high).upper } := by
  unfold overrideBounds
  split <;> rfl

/-- The solver once a model was made for it, or was not. -/
def Solver.given (s : Solver α) : Except (SolverError α) (Assembled α) → Solver α
  | .error _ => s
  | .ok a => { s with loaded := some { a with solution := none } }

namespace Procedure

variable {b : Bench α}

theorem on_bind (x : Procedure α β) (f : β → Procedure α γ) : (x >>= f).on b =
    match x.on b with
    | (.ok a, b) => (f a).on b
    | (.error e, b) => (.error e, b) := by
  unfold on
  rw [ExceptT.run_bind, StateT.run_bind]
  rcases x.run.run b with ⟨_ | _, _⟩ <;> rfl

theorem on_edit (x : Edit α β) : (edit x).on b =
    let (result, d) := x.on ⟨b.problem, b.events⟩
    (result.mapError .refused, { b with problem := d.problem, events := d.events }) := rfl

/-- Work that is not refused goes on from the problem it leaves. -/
theorem on_edit_bind {x : Edit α β} {c : β} {d : Desk α} (done : x.on ⟨b.problem, b.events⟩ = (.ok c, d))
    (f : β → Procedure α γ) :
    (edit x >>= f).on b = (f c).on { b with problem := d.problem, events := d.events } := by
  rw [on_bind, on_edit, done]
  rfl

theorem on_edit_refused {x : Edit α β} {r : Refusal α} {d : Desk α}
    (refused : x.on ⟨b.problem, b.events⟩ = (.error r, d)) (f : β → Procedure α γ) :
    (edit x >>= f).on b = (.error (.refused r), { b with problem := d.problem, events := d.events }) := by
  rw [on_bind, on_edit, refused]
  rfl

theorem on_report_bind (e : Event α) (f : Unit → Procedure α γ) :
    (edit (.report e) >>= f).on b = (f ()).on { b with events := b.events ++ [e] } :=
  on_edit_bind (Edit.on_report e) f

theorem on_check_bind {test : Problem α → Except (Refusal α) β} {c : β} (passed : test b.problem = .ok c)
    (f : β → Procedure α γ) : (edit (.check test) >>= f).on b = (f c).on b :=
  on_edit_bind (d := ⟨b.problem, b.events⟩) (by rw [Edit.on_check, passed]) f

/-- Checks only read, so a failed one leaves the bench as it was. -/
theorem on_check_refused {test : Problem α → Except (Refusal α) β} {r : Refusal α}
    (failed : test b.problem = .error r) (f : β → Procedure α γ) :
    (edit (.check test) >>= f).on b = (.error (.refused r), b) :=
  on_edit_refused (d := ⟨b.problem, b.events⟩) (by rw [Edit.on_check, failed]) f

theorem on_forM_report (xs : List β) (event : β → Event α) :
    (xs.forM fun x => edit (.report (event x)) : Procedure α Unit).on b =
      (.ok (), { b with events := b.events ++ xs.map event }) := by
  induction xs generalizing b with
  | nil => rw [List.map_nil, List.append_nil]; rfl
  | cons x xs ih =>
    change (edit (.report (event x)) >>= fun _ => xs.forM fun x => edit (.report (event x))).on b = _
    rw [on_report_bind, ih, List.append_assoc]
    rfl

theorem handOver_on (config : SolverConfig α) : (handOver config).on b =
    (.ok (), { b with events := if config.debugOutput then b.events ++ [.modelHanded b.problem] else b.events }) := by
  unfold handOver
  cases config.debugOutput <;> rfl

variable [Scalar α]

theorem makeModel_on : makeModel.on b =
    match Assembled.ofProblem b.problem with
    | .error r => (.error (.refused r), b)
    | .ok a => (.ok (), { b with
        solver := b.solver.given (.ok a)
        events := b.events ++ [.modelBuilt a.model.columns.length a.model.rows.length] }) := by
  unfold makeModel
  cases made : Assembled.ofProblem b.problem with
  | error r => exact on_check_refused made _
  | ok a =>
    rw [on_check_bind made, on_report_bind]
    rfl

theorem setBounds_on (config : SolverConfig α) : (setBounds config).on b =
    match Assembly.applyBounds config b.problem with
    | .error r => (.error (.refused r), b)
    | .ok p => (.ok (), { b with problem := p }) := by
  unfold setBounds Assembly.applyBounds
  cases config.bounds with
  | none => rfl
  | some bounds =>
    have carried := Edit.applyGlobalBounds_carriesOut bounds.1 bounds.2 ⟨b.problem, b.events⟩
    refine (on_edit _).trans ?_
    rw [carried]
    dsimp only
    cases b.problem.applyGlobalBounds bounds.1 bounds.2 with
    | error r => rfl
    | ok p => exact congrArg (fun events => (Except.ok (), { b with problem := p, events })) (List.append_nil b.events)

/-- Neither check changes anything. -/
theorem checkReady_on : checkReady.on b =
    ((Assembly.checkReady b.problem).mapError .refused, b) := by
  unfold checkReady Assembly.checkReady
  cases rows : b.problem.sos1s.isEmpty && b.problem.binaryOrs.isEmpty with
  | false => exact on_check_refused (by rw [rows]; rfl) _
  | true => exact on_check_bind (c := ()) (by rw [rows]; rfl) _

/-- Past the checks, what is left on the bench is what an assembly hands on. -/
theorem ready_on (config : SolverConfig α) (b : Bench α) :
    (do store config; handOver config; makeModel : Procedure α Unit).on b =
      let assembly := Assembly.ofReady config b.problem b.events
      (assembly.result.map fun _ => (),
        ⟨b.solver.given assembly.result, b.problem, assembly.written.or b.sunk, assembly.events⟩) := by
  have handed (b : Bench α) : (do handOver config; makeModel : Procedure α Unit).on b = makeModel.on { b with
      events := if config.debugOutput then b.events ++ [.modelHanded b.problem] else b.events } := by
    rw [on_bind, handOver_on]
  unfold store Assembly.ofReady
  cases config.sink with
  | none =>
    refine (handed b).trans ?_
    rw [makeModel_on]
    dsimp only
    cases Assembled.ofProblem b.problem <;> rfl
  | some sink =>
    cases sink with
    | closed reason => rfl
    | «open» =>
      refine (handed _).trans ?_
      rw [makeModel_on]
      dsimp only
      cases Assembled.ofProblem b.problem <;> rfl

end Procedure

variable [Scalar α]

/-- Earlier events stay in front and decide nothing. -/
theorem Assembly.ofReady_append (config : SolverConfig α) (p : Problem α) (earlier events : List (Event α)) :
    Assembly.ofReady config p (earlier ++ events) =
      { Assembly.ofReady config p events with events := earlier ++ (Assembly.ofReady config p events).events } := by
  unfold Assembly.ofReady
  split
  · rfl
  · dsimp only
    cases config.debugOutput <;> cases Assembled.ofProblem p <;> simp

theorem Solver.build_given (s : Solver α) (p : Problem α) :
    s.build p = (s.given (Assembly.ofProblem s.config p).result, Assembly.ofProblem s.config p) := by
  cases made : (Assembly.ofProblem s.config p).result with
  | error e => exact build_refused made
  | ok a => exact build_accepted made

/-- In place, a build answers and leaves what it does as a whole. -/
theorem Procedure.build_on (b : Bench α) : build.on b =
    let (solver, assembly) := b.solver.build b.problem
    (assembly.result.map fun _ => (),
      ⟨solver, assembly.problem, assembly.written.or b.sunk, b.events ++ assembly.events⟩) := by
  let config := b.solver.config
  let events := config.ignored.map Event.optionIgnored ++ b.problem.lower.2
  have lowered : build.on b = (do
      setBounds config
      checkReady
      store config
      handOver config
      makeModel : Procedure α Unit).on ⟨b.solver, b.problem.lower.1, b.sunk, b.events ++ events⟩ := by
    have first : build.on b = (do
        config.ignored.forM fun option => edit (.report (.optionIgnored option))
        edit .lower
        setBounds config
        checkReady
        store config
        handOver config
        makeModel : Procedure α Unit).on b := rfl
    rw [first, on_bind, on_forM_report]
    dsimp only
    rw [on_edit_bind (Edit.lower_on _), List.append_assoc]
  rw [lowered, on_bind, setBounds_on, Solver.build_given]
  unfold Assembly.ofProblem
  dsimp only
  cases Assembly.applyBounds config b.problem.lower.1 with
  | error r => rfl
  | ok p =>
    dsimp only
    rw [on_bind, checkReady_on]
    dsimp only
    cases Assembly.checkReady p with
    | error r => rfl
    | ok u =>
      refine (ready_on config _).trans ?_
      dsimp only
      rw [Assembly.ofReady_append, Problem.ofReady_problem]

/-- One problem is another with some bounds changed. No variable is new or gone, and each keeps its value. -/
structure Problem.Rebounded (p q : Problem α) : Prop where
  frame : q = { p with registry := q.registry }
  declared : q.registry.entries.map (·.declared) = p.registry.entries.map (·.declared)
  current : List.Forall₂ (fun v w => w = { v with lower := w.lower, upper := w.upper }) p.registered q.registered
  stored : q.stored = p.stored

theorem Problem.bounded_rebounded (p : Problem α) (bounds : Option (α × α)) : p.Rebounded (p.bounded bounds) := by
  have same : p.Rebounded p := ⟨rfl, rfl, List.forall₂_same.mpr fun _ _ => rfl, rfl⟩
  unfold bounded
  split
  · exact same
  · rename_i low high
    split
    · exact same
    · refine ⟨rfl, List.map_map, ?_, ?_⟩
      · rw [registered, registered, Registry.toList, Registry.toList, Registry.mapCurrent, List.map_map,
          List.forall₂_map_left_iff, List.forall₂_map_right_iff, List.forall₂_same]
        exact fun e _ => e.current.overrideBounds_frame low high
      · have values : Variable.value ∘ (·.overrideBounds low high) = (Variable.value : Variable α → α) :=
          funext fun v => by rw [Function.comp_apply, v.overrideBounds_frame low high]
        funext name
        simp only [Problem.stored, lookup, Registry.get?_mapCurrent, Option.map_map, values]

/-- A build, or a run, that came to no model. -/
def Call.failed (config : SolverConfig α) : Call α → Bool
  | .build sink p | .run sink _ p => (Assembly.ofProblem (config.facing sink) p).result.toOption.isNone
  | .solve _ | .updateValues _ => false

/-- What a call answers, and the problem it leaves if it was given one. -/
structure Reply (α : Type) where
  answer : Except (SolverError α) (Option (SearchReport α))
  problem : Option (Problem α)
  events : List (Event α)

namespace Solver

def reply (s : Solver α) : Call α → Reply α
  | .build sink p =>
    let assembly := ((s.facing sink).build p).2
    ⟨assembly.result.map fun _ => none, some assembly.problem, assembly.events⟩
  | .solve engine =>
    let (_, result, events) := s.solve engine
    ⟨result.map some, none, events⟩
  | .updateValues p =>
    let (result, q) := s.updateValues p
    ⟨result.map fun _ => none, some q, []⟩
  | .run sink engine p =>
    let ran := (s.facing sink).run engine p
    ⟨ran.result.map some, some ran.problem, ran.events⟩

/-- Every call with the reply that the solver has for it at the time. -/
def transcript (s : Solver α) : List (Call α) → List (Call α × Reply α)
  | [] => []
  | c :: calls => (c, s.reply c) :: (s.perform c).transcript calls

theorem perform_failed {s : Solver α} {c : Call α} (failed : c.failed s.config) : s.perform c = s := by
  cases c with
  | solve | updateValues => cases failed
  | build sink p =>
    cases made : (Assembly.ofProblem (s.config.facing sink) p).result with
    | error e =>
      rw [perform, build_refused (s := s.facing sink) made]
      rfl
    | ok a => simp [Call.failed, made, Except.toOption] at failed
  | run sink engine p =>
    cases made : (Assembly.ofProblem (s.config.facing sink) p).result with
    | error e =>
      rw [perform, run_solver, facing_config, made]
      rfl
    | ok a => simp [Call.failed, made, Except.toOption] at failed

/-- Nobody else is told anything different because of the builds that failed in between. -/
theorem transcript_failed (s : Solver α) (calls : List (Call α)) :
    (s.transcript calls).filter (!·.1.failed s.config) = s.transcript (calls.filter (!·.failed s.config)) := by
  induction calls generalizing s with
  | nil => rfl
  | cons c calls ih =>
    have rest := ih (s.perform c)
    rw [perform_config] at rest
    rw [transcript, List.filter_cons, List.filter_cons, rest]
    cases failed : c.failed s.config with
    | true =>
      rw [perform_failed failed]
      rfl
    | false => rfl

end Solver

/-- A build leaves the lowered problem with the open bounds set, whether or not it succeeds. When it fails it leaves
the solver as it was, with its model and solution, and the other calls of a session are answered as though builds that
fail had not been made. -/
theorem Procedure.build_leaves (b : Bench α) :
    let lowered := b.problem.lower.1
    let left := (build.on b).2
    left.problem = lowered.bounded b.solver.config.bounds ∧ lowered.Rebounded left.problem ∧
      (∀ e, (build.on b).1 = .error e → left.solver = b.solver) ∧
      ∀ calls, (b.solver.transcript calls).filter (!·.1.failed b.solver.config) =
        b.solver.transcript (calls.filter (!·.failed b.solver.config)) := by
  intro lowered left
  have problem : left.problem = lowered.bounded b.solver.config.bounds := by
    change (build.on b).2.problem = _
    rw [build_on, Solver.build_given]
    exact Problem.assembly_bounded b.solver.config b.problem
  refine ⟨problem, problem ▸ lowered.bounded_rebounded b.solver.config.bounds, fun e failed => ?_,
    b.solver.transcript_failed⟩
  change (build.on b).2.solver = _
  rw [build_on, Solver.build_given] at failed ⊢
  cases made : (Assembly.ofProblem b.solver.config b.problem).result with
  | error _ => rfl
  | ok a =>
    dsimp only at failed
    rw [made] at failed
    cases failed

/-- `x < 2` and nothing to aim at. -/
def Problem.unaimed : Problem Rat :=
  { Problem.empty.push (.comparison (.ofLinear [.single 1 (.real "x")] .lt 2 (1 / 4))) with
    registry := Registry.empty.insert (.real "x") }

/-- A solver with a model of `z` and its solution is given that problem. -/
def Bench.unaimed : Bench Rat where
  solver := {
    config := { SolverConfig.default with bounds := some (-5, 5) }
    loaded := some ⟨⟨⟨.minimise, [⟨1, .binary⟩], []⟩, ["z"], 0⟩, some [1]⟩ }
  problem := .unaimed
  sunk := none
  events := []

theorem Bench.unaimed_leaves :
    let left := (Procedure.build.on unaimed).2
    (Procedure.build.on unaimed).1 = .error (.refused .noObjective) ∧ left.solver = unaimed.solver ∧
      Problem.unaimed.lower.1.Rebounded left.problem ∧
      left.problem.comparisons.map (fun c => (c.relation, c.rhs)) = [(.le, 7 / 4)] ∧
      (left.problem.lookup "x").map (·.upper.value) = some 5 := by
  have refused : (Procedure.build.on unaimed).1 = .error (.refused .noObjective) := by
    with_unfolding_all rfl
  obtain ⟨-, rebounded, kept, -⟩ := Procedure.build_leaves unaimed
  exact ⟨refused, kept _ refused, rebounded, by decide +kernel, by decide +kernel⟩

end MixedInteger
