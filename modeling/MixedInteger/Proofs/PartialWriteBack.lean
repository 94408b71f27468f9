import MixedInteger.Proofs.Runs
import MixedInteger.Proofs.SessionHistory

/-!
Write-backs that fail. Values are stored one after the other and a name that the problem does not know ends that, so
what stands before the name in the model is stored all the same.
-/

namespace MixedInteger

variable {α : Type}

/-- The value that is listed last under a name. -/
def lastValue? (name : String) : List (String × α) → Option α
  | [] => none
  | (other, x) :: rest => (lastValue? name rest).or (if other = name then some x else none)

variable [Scalar α]

namespace Variable

/-- A variable that stores the last value listed for it, and the one it had if there is none. -/
def storeLast (v : Variable α) (listed : List (String × α)) : Variable α :=
  ((lastValue? v.name listed).map v.store).getD v

theorem storeLast_cons (v : Variable α) (name : String) (x : α) (rest : List (String × α)) :
    v.storeLast ((name, x) :: rest) = (if v.name = name then v.store x else v).storeLast rest := by
  by_cases same : v.name = name
  · have stored : (v.store x).name = v.name := rfl
    rw [if_pos same, storeLast, storeLast, lastValue?, if_pos same.symm, stored]
    cases lastValue? v.name rest <;> rfl
  · rw [if_neg same, storeLast, storeLast, lastValue?, if_neg (Ne.symm same), Option.or_none]

theorem storeLast_eq_self {v : Variable α} {listed : List (String × α)} :
    v.storeLast listed = v ↔ ∀ x, lastValue? v.name listed = some x → v.fit x = v.value := by
  unfold storeLast
  cases lastValue? v.name listed with
  | none => exact iff_of_true rfl nofun
  | some x =>
    constructor
    · rintro same y ⟨⟩
      exact congrArg Variable.value same
    · intro held
      rw [Option.map_some, Option.getD_some, store, held x rfl]

end Variable

namespace Problem

/-- A problem that stores the last values of a list, and differs in nothing else. -/
def storing (p : Problem α) (listed : List (String × α)) : Problem α :=
  { p with registry := p.registry.mapCurrent (·.storeLast listed) }

variable {p : Problem α}

/-- One value after the other comes to the last value of each name. -/
theorem storing_cons (consistent : p.registry.Consistent) {name : String} {v : Variable α}
    (found : p.lookup name = some v) (x : α) (rest : List (String × α)) :
    { p with registry := p.registry.replace name (v.store x) }.storing rest = p.storing ((name, x) :: rest) := by
  have each : (fun w : Variable α => w.storeLast ((name, x) :: rest)) =
      (·.storeLast rest) ∘ fun w => if w.name = name then w.store x else w :=
    funext fun w => w.storeLast_cons name x rest
  unfold storing
  rw [consistent.replace_eq_mapCurrent found (·.store x), each]
  simp only [Registry.mapCurrent, List.map_map]
  rfl

theorem storing_names (p : Problem α) (listed : List (String × α)) :
    (p.storing listed).registry.names = p.registry.names := by
  simp only [storing, Registry.names, Registry.mapCurrent, List.map_map]
  rfl

/-- Storing leaves a problem as it was exactly where every value was in store already. -/
theorem storing_eq_self {listed : List (String × α)} : p.storing listed = p ↔
    ∀ v ∈ p.registered, ∀ x, lastValue? v.name listed = some x → v.fit x = v.value := by
  have entries : p.storing listed = p ↔
      p.registry.entries.map (fun e => { e with current := e.current.storeLast listed }) =
        p.registry.entries.map id := by
    rw [List.map_id]
    constructor
    · exact fun same => congrArg (·.registry.entries) same
    · intro same
      unfold storing Registry.mapCurrent
      rw [same]
  rw [entries, List.map_inj_left, registered, Registry.toList, List.forall_mem_map]
  refine forall₂_congr fun e _ => ?_
  rw [← Variable.storeLast_eq_self]
  constructor
  · exact fun same => congrArg Registration.current same
  · intro same
    rw [same]
    rfl

end Problem

namespace Solver

variable {p : Problem α}

/-- Names that are known are done with before the others come. -/
theorem writeBack_known {written : List (String × α)} (consistent : p.registry.Consistent)
    (known : ∀ k ∈ written, k.1 ∈ p.registry.names) (rest : List (String × α)) :
    writeBack (written ++ rest) p = writeBack rest (p.storing written) := by
  induction written generalizing p with
  | nil =>
    have same : p.storing [] = p := Problem.storing_eq_self.mpr fun v _ x listed => by simp [lastValue?] at listed
    rw [List.nil_append, same]
  | cons k written ih =>
    obtain ⟨name, x⟩ := k
    obtain ⟨now, later⟩ := List.forall_mem_cons.mp known
    cases found : p.lookup name with
    | none => exact absurd now (Registry.get?_eq_none_iff.mp found)
    | some v =>
      let q : Problem α := { p with registry := p.registry.replace name (v.store x) }
      have stored : p.setValue name x = .ok q := by
        rw [Problem.setValue, found]
        rfl
      have kept : q.registry.Consistent := (consistent.replace found ⟨rfl, rfl⟩ : q.registry.Consistent ∧ _).1
      have names : q.registry.names = p.registry.names := p.registry.names_replace name (v.store x)
      rw [List.cons_append, writeBack, stored, ← Problem.storing_cons consistent found]
      refine ih kept fun k hk => ?_
      rw [names]
      exact later k hk

/-- A write-back stores every value, or it ends at the first name that the problem does not know. Then the values
before that name are in store and nothing else has changed, so that the problem is as it was exactly where all of them
had been in store before. -/
theorem updateValues_leaves {s : Solver α} {l : Loaded α} {xs : List α} (loaded : s.loaded = some l)
    (solved : l.solution = some xs) (reachable : Reachable p) :
    (s.updateValues p = (.ok (), p.storing (l.names.zip xs)) ∧ ∀ k ∈ l.names.zip xs, k.1 ∈ p.registry.names) ∨
    ∃ written name x rest, l.names.zip xs = written ++ (name, x) :: rest ∧
      (∀ k ∈ written, k.1 ∈ p.registry.names) ∧ name ∉ p.registry.names ∧
      s.updateValues p = (.error (.refused (.unknownVariable name)), p.storing written) ∧
      (p.storing written = p ↔
        ∀ v ∈ p.registered, ∀ y, lastValue? v.name written = some y → v.fit y = v.value) := by
  have consistent := reachable.grounded.registry
  have updated : s.updateValues p = writeBack (l.names.zip xs) p := by
    simp only [updateValues, loaded, solved]
  rw [updated]
  cases missing : (l.names.zip xs).find? (fun k => k.1 ∉ p.registry.names) with
  | none =>
    have known : ∀ k ∈ l.names.zip xs, k.1 ∈ p.registry.names := by
      simpa using missing
    have written := writeBack_known consistent known []
    rw [List.append_nil] at written
    exact .inl ⟨written, known⟩
  | some k =>
    obtain ⟨name, x⟩ := k
    obtain ⟨unknown, written, rest, split, before⟩ := List.find?_eq_some_iff_append.mp missing
    have unknown : name ∉ p.registry.names := of_decide_eq_true unknown
    have known : ∀ k ∈ written, k.1 ∈ p.registry.names := by
      simpa using before
    refine .inr ⟨written, name, x, rest, split, known, unknown, ?_, Problem.storing_eq_self⟩
    have absent : (p.storing written).lookup name = none := by
      rwa [Problem.lookup, Registry.get?_eq_none_iff, p.storing_names]
    rw [split, writeBack_known consistent known, writeBack, Problem.setValue, absent]
    rfl

/-- The sum of `x` and `y` is built and searched. -/
def searched : List (Call Rat) :=
  let x := (Variable.real "x").between 1 10
  let y := (Variable.real "y").between 2 10
  let sum := Intake.objective (.ofTerms [.single 1 x, .single 1 y]) .minimise
  [.build .open (Problem.ofOperations [.change (.intake sum)]), .solve fun _ => .optimal 3 [1, 2]]

theorem searched_leaves :
    let p := Problem.aimed (.real "x")
    (ofCalls .default searched).updateValues p =
        (.error (.refused (.unknownVariable "y")), p.storing [("x", 1)]) ∧ p.storing [("x", 1)] ≠ p := by
  intro p
  have reachable : Reachable p := Problem.aimed_reachable (.real "x")
  have names : p.registry.names = ["x"] := rfl
  rcases updateValues_leaves (s := ofCalls .default searched) rfl rfl reachable with
    ⟨-, known⟩ | ⟨written, name, y, rest, split, known, unknown, result, unchanged⟩
  · have absent := known ("y", 2) (List.mem_cons_of_mem _ List.mem_cons_self)
    simp [names] at absent
  · change [("x", 1), ("y", 2)] = written ++ (name, y) :: rest at split
    rw [names] at known unknown
    rcases written with _ | ⟨k, _ | ⟨m, written⟩⟩
    · simp only [List.nil_append, List.cons.injEq, Prod.mk.injEq] at split
      exact absurd (List.mem_singleton.mpr split.1.1.symm) unknown
    · simp only [List.cons_append, List.nil_append, List.cons.injEq, Prod.mk.injEq] at split
      obtain ⟨rfl, ⟨rfl, rfl⟩, -⟩ := split
      refine ⟨result, fun same => ?_⟩
      have held := unchanged.mp same (.real "x") List.mem_cons_self 1 rfl
      exact absurd held (by decide)
    · simp only [List.cons_append, List.cons.injEq] at split
      obtain ⟨-, rfl, -⟩ := split
      have absent := known ("y", 2) (List.mem_cons_of_mem _ List.mem_cons_self)
      simp at absent

theorem searched_changes :
    ¬∀ (calls : List (Call Rat)) (l : Loaded Rat) (xs : List Rat) (p : Problem Rat) (e : SolverError Rat),
      (ofCalls .default calls).loaded = some l → l.solution = some xs → Reachable p →
      ((ofCalls .default calls).updateValues p).1 = .error e → ((ofCalls .default calls).updateValues p).2 = p := by
  intro claim
  have same := claim searched _ _ _ _ rfl rfl (Problem.aimed_reachable (.real "x")) rfl
  have stored : (1 : Rat) = 0 := congrArg (fun p : Problem Rat => p.stored "x") same
  exact absurd stored (by decide)

end Solver
end MixedInteger
