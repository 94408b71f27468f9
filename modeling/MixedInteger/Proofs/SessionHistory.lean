import Mathlib.Data.List.Induction
import MixedInteger.Proofs.ColumnRange
import MixedInteger.Proofs.WriteBack
import MixedInteger.Solver.Session

/-!
Sessions: all that was asked of one solver, in order. The model in place is the one built last, whatever was refused
since, and the values that can be read are those of the last search of that model.
-/

namespace MixedInteger

variable {α : Type}

/-- The values of an answer that has some. -/
def Answer.values? : Answer α → Option (List α)
  | optimal _ xs => some xs
  | infeasible | unbounded | failed _ => none

/-- The values that the last of some searches of a model found. -/
def Assembled.found? (a : Assembled α) (engines : List (Engine α)) : Option (List α) :=
  engines.getLast?.bind fun engine => (engine a.model).values?

theorem Assembled.foldl_found (a : Assembled α) (engines : List (Engine α)) :
    engines.foldl (fun _ engine => (engine a.model).values?) none = a.found? engines := by
  induction engines using List.reverseRecOn with
  | nil => rfl
  | append_singleton engines engine _ => simp [found?]

/-- What is asked of a solver. Each build finds the sink as it is then, and a search may be made by an engine of its own
each time. -/
inductive Call (α : Type) where
  | build (sink : Sink) (p : Problem α)
  | solve (engine : Engine α)
  | updateValues (p : Problem α)
  | run (sink : Sink) (engine : Engine α) (p : Problem α)

variable [Scalar α]

/-- Some variables store other values now, each of them one that was listed for it. -/
def Problem.Stores (p q : Problem α) (listed : List (String × α)) : Prop :=
  ∀ name, q.lookup name = p.lookup name ∨
    ∃ v x, (name, x) ∈ listed ∧ p.lookup name = some v ∧ q.lookup name = some (v.store x)

namespace Problem.Stores

variable {p q r : Problem α} {xs ys : List (String × α)}

theorem refl (p : Problem α) : p.Stores p xs := fun _ => .inl rfl

/-- A value that is stored replaces the one before it. -/
theorem trans (h : p.Stores q xs) (h' : q.Stores r ys) : p.Stores r (xs ++ ys) := by
  intro name
  rcases h' name with kept' | ⟨w, y, hy, before', after'⟩
  · rw [kept']
    refine (h name).imp_right ?_
    rintro ⟨v, x, hx, before, after⟩
    exact ⟨v, x, List.mem_append_left _ hx, before, after⟩
  · rcases h name with kept | ⟨v, x, -, before, after⟩
    · exact .inr ⟨w, y, List.mem_append_right _ hy, kept ▸ before', after'⟩
    · obtain rfl : w = v.store x := Option.some.inj (before'.symm.trans after)
      exact .inr ⟨v, y, List.mem_append_right _ hy, before, after'⟩

theorem of_setValue {name : String} {x : α} (ok : p.setValue name x = .ok q) : p.Stores q [(name, x)] := by
  obtain ⟨v, found, rfl⟩ := setValue_ok ok
  intro other
  simp only [lookup, Registry.get?_replace] at found ⊢
  by_cases same : other = name
  · obtain rfl := same
    exact .inr ⟨v, x, List.mem_singleton_self _, found, by rw [if_pos rfl, found, Option.map_some]⟩
  · exact .inl (if_neg same)

end Problem.Stores

namespace Call

/-- The model that a call builds, if it builds one. -/
def built? (config : SolverConfig α) : Call α → Option (Assembled α)
  | build sink p | run sink _ p => (Assembly.ofProblem (config.facing sink) p).result.toOption
  | solve _ | updateValues _ => none

/-- The engine that a call searches with. A run comes to its search once its model is built. -/
def engine? (config : SolverConfig α) : Call α → Option (Engine α)
  | solve engine => some engine
  | run sink engine p => (Assembly.ofProblem (config.facing sink) p).result.toOption.map fun _ => engine
  | build _ _ | updateValues _ => none

/-- The last call that built a model, and the engines of the searches since. -/
def Built (config : SolverConfig α) (calls : List (Call α)) (a : Assembled α) (engines : List (Engine α)) : Prop :=
  ∃ before last later, calls = before ++ last :: later ∧ last.built? config = some a ∧
    (∀ c ∈ later, c.built? config = none) ∧ engines = (last :: later).filterMap (·.engine? config)

end Call

namespace Solver

def facing (s : Solver α) (sink : Sink) : Solver α := { s with config := s.config.facing sink }

/-- What a call makes of the model in place. The options stay, however the sink was found. -/
def perform (s : Solver α) : Call α → Solver α
  | .build sink p => { s with loaded := ((s.facing sink).build p).1.loaded }
  | .solve engine => (s.solve engine).1
  | .updateValues _ => s
  | .run sink engine p => { s with loaded := ((s.facing sink).run engine p).solver.loaded }

/-- A solver after a session. -/
def ofCalls (config : SolverConfig α) (calls : List (Call α)) : Solver α :=
  calls.foldl perform (ofConfig config)

variable {s : Solver α} {p : Problem α}

theorem read_solution (constant : α) (answer : Answer α) : (read constant answer).2 = answer.values? := by
  cases answer <;> rfl

theorem read_error {constant : α} {answer : Answer α} {e : SolverError α} (h : (read constant answer).1 = .error e) :
    ∃ reason, e = .other reason := by
  cases answer <;> simp [read] at h
  exact ⟨_, h.symm⟩

theorem build_refused {e : SolverError α} (h : (Assembly.ofProblem s.config p).result = .error e) :
    s.build p = (s, Assembly.ofProblem s.config p) := by
  simp only [build, h]

theorem build_accepted {a : Assembled α} (h : (Assembly.ofProblem s.config p).result = .ok a) :
    s.build p = ({ s with loaded := some { a with solution := none } }, Assembly.ofProblem s.config p) := by
  simp only [build, h]

theorem run_refused (engine : Engine α) {e : SolverError α}
    (h : (Assembly.ofProblem s.config p).result = .error e) :
    (s.run engine p).problem = (Assembly.ofProblem s.config p).problem ∧
      (s.run engine p).result = .error e := by
  unfold run
  simp only [build_refused h, h, and_self]

/-- What a run does with a model is decided by the answer of the engine alone. -/
theorem run_answered (engine : Engine α) {a : Assembled α}
    (h : (Assembly.ofProblem s.config p).result = .ok a) :
    ((s.run engine p).problem, (s.run engine p).result) =
      match engine a.model with
      | .optimal cost xs =>
        let written := writeBack (a.names.zip xs) (Assembly.ofProblem s.config p).problem
        (written.2, written.1.map fun _ => ⟨.optimal, cost + a.objectiveConstant, 1⟩)
      | .infeasible => ((Assembly.ofProblem s.config p).problem, .ok ⟨.infeasible, 0, 0⟩)
      | .unbounded => ((Assembly.ofProblem s.config p).problem, .ok ⟨.unbounded, 0, 0⟩)
      | .failed reason => ((Assembly.ofProblem s.config p).problem, .error (.other reason)) := by
  unfold run
  simp only [build_accepted h, h, solve]
  cases engine a.model with
  | optimal cost xs => simp only [read, Status.hasSolution, ↓reduceIte, updateValues]
  | infeasible => simp only [read, Status.hasSolution, Bool.false_eq_true, ↓reduceIte]
  | unbounded => simp only [read, Status.hasSolution, Bool.false_eq_true, ↓reduceIte]
  | failed reason => simp only [read]

/-- A run leaves the solver as the calls it is made of do. -/
theorem run_solver (engine : Engine α) (s : Solver α) (p : Problem α) : (s.run engine p).solver =
    match (Assembly.ofProblem s.config p).result with
    | .error _ => s
    | .ok _ => ((s.build p).1.solve engine).1 := by
  cases h : (Assembly.ofProblem s.config p).result with
  | error e => simp only [run, build_refused h, h]
  | ok a =>
    simp only [run, build_accepted h, h, solve]
    cases engine a.model <;> simp only [read, Status.hasSolution, ↓reduceIte, Bool.false_eq_true]

theorem solve_loaded (engine : Engine α) (s : Solver α) : (s.solve engine).1.loaded =
    s.loaded.map fun l => ⟨l.toAssembled, (engine l.model).values?⟩ := by
  unfold solve
  cases h : s.loaded with
  | none => simp only [h, Option.map_none]
  | some l => simp only [Option.map_some, read_solution]

theorem solve_config (engine : Engine α) (s : Solver α) : (s.solve engine).1.config = s.config := by
  unfold solve
  split <;> rfl

omit [Scalar α] in
theorem facing_config (s : Solver α) (sink : Sink) : (s.facing sink).config = s.config.facing sink := rfl

/-- A call may build another model than the one in place, and then it may search. -/
theorem perform_loaded (s : Solver α) (c : Call α) : (s.perform c).loaded =
    let built := match c.built? s.config with
      | some a => some ⟨a, none⟩
      | none => s.loaded
    match c.engine? s.config with
    | some engine => built.map fun l => ⟨l.toAssembled, (engine l.model).values?⟩
    | none => built := by
  cases c with
  | solve engine => exact s.solve_loaded engine
  | updateValues p => rfl
  | build sink p =>
    cases h : (Assembly.ofProblem (s.config.facing sink) p).result with
    | error e =>
      simp only [perform, build_refused (s := s.facing sink) h, Call.built?, Call.engine?, h, Except.toOption]
      rfl
    | ok a =>
      simp only [perform, build_accepted (s := s.facing sink) h, Call.built?, Call.engine?, h, Except.toOption]
  | run sink engine p =>
    rw [perform, run_solver, facing_config]
    cases h : (Assembly.ofProblem (s.config.facing sink) p).result with
    | error e =>
      simp only [Call.built?, Call.engine?, h, Except.toOption, Option.map_none]
      rfl
    | ok a =>
      simp only [solve_loaded, build_accepted (s := s.facing sink) h, Call.built?, Call.engine?, h, Except.toOption,
        Option.map_some]

theorem perform_config (s : Solver α) (c : Call α) : (s.perform c).config = s.config := by
  cases c with
  | solve engine => exact s.solve_config engine
  | build | updateValues | run => rfl

/-- Calls that build nothing leave the model in place, and each search among them decides anew what is found. -/
theorem loaded_of_unbuilt {calls : List (Call α)} (unbuilt : ∀ c ∈ calls, c.built? s.config = none) :
    (calls.foldl perform s).loaded = s.loaded.map fun l =>
      ⟨l.toAssembled, (calls.filterMap (·.engine? s.config)).foldl (fun _ e => (e l.model).values?) l.solution⟩ := by
  induction calls generalizing s with
  | nil => simp
  | cons c calls ih =>
    obtain ⟨now, later⟩ := List.forall_mem_cons.mp unbuilt
    rw [← s.perform_config c] at later
    rw [List.foldl_cons, ih later, perform_loaded, now, perform_config]
    cases h : c.engine? s.config <;> simp [h, Function.comp_def]

theorem ofCalls_config (config : SolverConfig α) (calls : List (Call α)) : (ofCalls config calls).config = config := by
  have kept : ∀ s : Solver α, (calls.foldl perform s).config = s.config := by
    induction calls with
    | nil => exact fun _ => rfl
    | cons c calls ih => exact fun s => (ih _).trans (s.perform_config c)
  exact kept _

variable {config : SolverConfig α} {calls : List (Call α)}

/-- The model built last is in place, with what the last search since has found. -/
theorem loaded_of_built {a : Assembled α} {engines : List (Engine α)} (built : Call.Built config calls a engines) :
    (ofCalls config calls).loaded = some ⟨a, a.found? engines⟩ := by
  obtain ⟨before, last, later, rfl, now, unbuilt, rfl⟩ := built
  let s := ofCalls config before
  have same : s.config = config := ofCalls_config config before
  have split : ofCalls config (before ++ last :: later) = later.foldl perform (s.perform last) := by
    rw [ofCalls, List.foldl_append, List.foldl_cons]
    rfl
  have first := s.perform_loaded last
  rw [same, now] at first
  rw [split, loaded_of_unbuilt (by rwa [perform_config, same]), first, perform_config, same, ← a.foldl_found]
  cases h : last.engine? config <;> simp [h]

/-- Nothing was built, or some call built last. -/
theorem built_or_unbuilt (config : SolverConfig α) (calls : List (Call α)) :
    (∀ c ∈ calls, c.built? config = none) ∨ ∃ a engines, Call.Built config calls a engines := by
  induction calls with
  | nil => exact .inl (by simp)
  | cons c calls ih =>
    rcases ih with unbuilt | ⟨a, engines, before, last, later, rfl, rest⟩
    · cases h : c.built? config with
      | none => exact .inl (List.forall_mem_cons.mpr ⟨h, unbuilt⟩)
      | some a => exact .inr ⟨a, _, [], c, calls, rfl, h, unbuilt, rfl⟩
    · exact .inr ⟨a, engines, c :: before, last, later, rfl, rest⟩

theorem loaded_eq_none_iff : (ofCalls config calls).loaded = none ↔ ∀ c ∈ calls, c.built? config = none := by
  constructor
  · intro empty
    rcases built_or_unbuilt config calls with unbuilt | ⟨a, engines, built⟩
    · exact unbuilt
    · rw [loaded_of_built built] at empty
      cases empty
  · exact loaded_of_unbuilt (s := ofConfig config)

theorem writeBack_error {pairs : List (String × α)} {e : SolverError α} (h : (writeBack pairs p).1 = .error e) :
    ∃ r, e = .refused r := by
  induction pairs generalizing p with
  | nil => cases h
  | cons k rest ih =>
    obtain ⟨name, x⟩ := k
    rw [writeBack] at h
    split at h
    · exact ⟨_, (Except.error.inj h).symm⟩
    · exact ih h

/-- Up to where it stops, a write-back stores what it was given. -/
theorem writeBack_stores (pairs : List (String × α)) (p : Problem α) : p.Stores (writeBack pairs p).2 pairs := by
  induction pairs generalizing p with
  | nil => exact .refl p
  | cons k rest ih =>
    obtain ⟨name, x⟩ := k
    rw [writeBack]
    split
    · exact .refl p
    · rename_i q stored
      exact (Problem.Stores.of_setValue stored).trans (ih q)

theorem assembly_error {e : SolverError α} (h : (Assembly.ofProblem config p).result = .error e) :
    (∃ r, e = .refused r) ∨ ∃ reason, e = .sinkClosed reason := by
  have ready {q : Problem α} {events : List (Event α)} (h : (Assembly.ofReady config q events).result = .error e) :
      (∃ r, e = .refused r) ∨ ∃ reason, e = .sinkClosed reason := by
    unfold Assembly.ofReady at h
    split at h
    · exact .inr ⟨_, (Except.error.inj h).symm⟩
    · dsimp only at h
      split at h
      · exact .inl ⟨_, (Except.error.inj h).symm⟩
      · cases h
  unfold Assembly.ofProblem at h
  dsimp only at h
  split at h
  · exact .inl ⟨_, (Except.error.inj h).symm⟩
  · split at h
    · exact .inl ⟨_, (Except.error.inj h).symm⟩
    · exact ready h

theorem solve_notBuilt (engine : Engine α) : (s.solve engine).2.1 = .error .notBuilt ↔ s.loaded = none := by
  cases h : s.loaded with
  | none => simp [solve, h]
  | some l =>
    simp only [solve, h, reduceCtorEq, iff_false]
    intro failed
    obtain ⟨reason, other⟩ := read_error failed
    cases other

theorem updateValues_notBuilt (p : Problem α) : (s.updateValues p).1 = .error .notBuilt ↔ s.loaded = none := by
  unfold updateValues
  split
  · rename_i h
    simp only [h]
  · rename_i l h
    simp only [h, reduceCtorEq, iff_false]
    split
    · simp
    · intro failed
      obtain ⟨r, refused⟩ := writeBack_error failed
      cases refused

theorem updateValues_of_found {a : Assembled α} {engines : List (Engine α)} (built : Call.Built config calls a engines)
    (p : Problem α) : (ofCalls config calls).updateValues p =
      match a.found? engines with
      | none => (.error .noSolution, p)
      | some xs => writeBack (a.names.zip xs) p := by
  have session := loaded_of_built built
  cases found : a.found? engines <;> simp only [updateValues, session, found]

theorem updateValues_noSolution (config : SolverConfig α) (calls : List (Call α)) (p : Problem α) :
    ((ofCalls config calls).updateValues p).1 = .error .noSolution ↔
      ∃ a engines, Call.Built config calls a engines ∧ a.found? engines = none := by
  constructor
  · intro unsolved
    rcases built_or_unbuilt config calls with unbuilt | ⟨a, engines, built⟩
    · rw [(updateValues_notBuilt p).mpr (loaded_eq_none_iff.mpr unbuilt)] at unsolved
      cases unsolved
    · refine ⟨a, engines, built, ?_⟩
      rw [updateValues_of_found built] at unsolved
      cases found : a.found? engines with
      | none => rfl
      | some xs =>
        rw [found] at unsolved
        obtain ⟨r, refused⟩ := writeBack_error unsolved
        cases refused
  · rintro ⟨a, engines, built, nothing⟩
    rw [updateValues_of_found built, nothing]

/-- What a run writes comes from the model it built and from its own search of it. -/
theorem run_protocol (engine : Engine α) (s : Solver α) (p : Problem α) :
    (s.run engine p).result ≠ .error .notBuilt ∧ (s.run engine p).result ≠ .error .noSolution ∧
      ((s.run engine p).problem = (Assembly.ofProblem s.config p).problem ∨
        ∃ a xs, (Assembly.ofProblem s.config p).result = .ok a ∧ (engine a.model).values? = some xs ∧
          (Assembly.ofProblem s.config p).problem.Stores (s.run engine p).problem (a.names.zip xs)) := by
  cases h : (Assembly.ofProblem s.config p).result with
  | error e =>
    obtain ⟨problem, result⟩ := run_refused engine h
    rw [problem, result]
    rcases assembly_error h with ⟨r, rfl⟩ | ⟨reason, rfl⟩
    · exact ⟨nofun, nofun, .inl rfl⟩
    · exact ⟨nofun, nofun, .inl rfl⟩
  | ok a =>
    have answered := run_answered engine h
    cases answer : engine a.model with
    | optimal cost xs =>
      rw [answer] at answered
      obtain ⟨problem, result⟩ := Prod.mk.inj answered
      have failed {e : SolverError α} (h : (s.run engine p).result = .error e) : ∃ r, e = .refused r := by
        rw [result] at h
        cases written : (writeBack (a.names.zip xs) (Assembly.ofProblem s.config p).problem).1 with
        | error other =>
          rw [written] at h
          exact Except.error.inj h ▸ writeBack_error written
        | ok done =>
          rw [written] at h
          cases h
      refine ⟨fun h => ?_, fun h => ?_, .inr ⟨a, xs, rfl, by rw [answer, Answer.values?], ?_⟩⟩
      · obtain ⟨r, refused⟩ := failed h
        cases refused
      · obtain ⟨r, refused⟩ := failed h
        cases refused
      · rw [problem]
        exact writeBack_stores _ _
    | infeasible | unbounded | failed reason =>
      rw [answer] at answered
      obtain ⟨problem, result⟩ := Prod.mk.inj answered
      rw [problem, result]
      exact ⟨nofun, nofun, .inl rfl⟩

/-- A solver answers by the history of its session, in which the sink may be found open at one time and closed at
another. It has no model exactly when no call built one, and no solution exactly when no search came after the last
build or the last search found none; otherwise the values it writes are those that the last search found for the model
built last. A run is no exception: it writes what its own search found, or nothing. -/
theorem session_protocol (config : SolverConfig α) (calls : List (Call α)) :
    (∀ engine, ((ofCalls config calls).solve engine).2.1 = .error .notBuilt ↔
      ∀ c ∈ calls, c.built? config = none) ∧
    (∀ p, let updated := (ofCalls config calls).updateValues p
      (updated.1 = .error .notBuilt ↔ ∀ c ∈ calls, c.built? config = none) ∧
      (updated.1 = .error .noSolution ↔
        ∃ a engines, Call.Built config calls a engines ∧ a.found? engines = none) ∧
      (updated.1 ≠ .error .notBuilt → updated.1 ≠ .error .noSolution →
        ∃ a engines xs, Call.Built config calls a engines ∧ a.found? engines = some xs ∧
          updated = writeBack (a.names.zip xs) p ∧ p.Stores updated.2 (a.names.zip xs))) ∧
    ∀ sink engine p, let ran := ((ofCalls config calls).facing sink).run engine p
      let assembly := Assembly.ofProblem (config.facing sink) p
      ran.result ≠ .error .notBuilt ∧ ran.result ≠ .error .noSolution ∧
      (ran.problem = assembly.problem ∨ ∃ a xs, assembly.result = .ok a ∧ (engine a.model).values? = some xs ∧
        assembly.problem.Stores ran.problem (a.names.zip xs)) := by
  refine ⟨fun engine => (solve_notBuilt engine).trans loaded_eq_none_iff, fun p => ?_, fun sink engine p => ?_⟩
  · have absent : ((ofCalls config calls).updateValues p).1 = .error .notBuilt ↔
        ∀ c ∈ calls, c.built? config = none := (updateValues_notBuilt p).trans loaded_eq_none_iff
    refine ⟨absent, updateValues_noSolution config calls p, fun present solved => ?_⟩
    rcases built_or_unbuilt config calls with unbuilt | ⟨a, engines, built⟩
    · exact absurd (absent.mpr unbuilt) present
    · cases found : a.found? engines with
      | none => exact absurd ((updateValues_noSolution config calls p).mpr ⟨a, engines, built, found⟩) solved
      | some xs =>
        have written : (ofCalls config calls).updateValues p = writeBack (a.names.zip xs) p := by
          rw [updateValues_of_found built, found]
        exact ⟨a, engines, xs, built, found, written, written ▸ writeBack_stores _ p⟩
  · have ran := run_protocol engine ((ofCalls config calls).facing sink) p
    rwa [facing_config, ofCalls_config] at ran

/-- Two models are built and searched one after the other, a problem without an objective is refused, and another one
finds the sink closed that was open before. -/
def rebuilt : List (Call Rat) :=
  [.build .open (Problem.aimed (.real "x")), .solve fun _ => .optimal 5 [5],
    .run .open (fun _ => .optimal 7 [7]) (Problem.aimed (.real "y")), .build .open .empty,
    .build (.closed "no space left") (Problem.aimed (.real "z"))]

/-- What is handed to an engine is written before. -/
def recording : SolverConfig Rat := { SolverConfig.default with sink := some .open }

theorem rebuilt_protocol :
    let updated := (ofCalls recording rebuilt).updateValues (Problem.aimed (.real "y"))
    updated.1 = .ok () ∧ updated.2.stored "y" = 7 ∧ ∃ a engines xs,
      Call.Built recording rebuilt a engines ∧ a.found? engines = some xs ∧
      updated = writeBack (a.names.zip xs) (Problem.aimed (.real "y")) ∧
      (Problem.aimed (.real "y")).Stores updated.2 (a.names.zip xs) := by
  intro updated
  have ok : updated.1 = .ok () := rfl
  obtain ⟨-, -, otherwise⟩ := (session_protocol recording rebuilt).2.1 (Problem.aimed (.real "y"))
  exact ⟨ok, rfl, otherwise (by rw [ok]; nofun) (by rw [ok]; nofun)⟩

end Solver
end MixedInteger
