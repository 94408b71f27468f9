import MixedInteger.Proofs.Runs
import MixedInteger.Proofs.WriteBack

/-!
First definitions win. Whether an intake is taken depends on the definitions that came in and on nothing else, so it
does not matter what is done in between to the variables in use. Removals are another thing: a constraint that is
removed before a pass gives no auxiliaries, and the names of auxiliaries are defined as any others.
-/

namespace MixedInteger

variable {α : Type}

open Problem

namespace Operation

def isRemoval : Operation α → Bool
  | remove _ _ => true
  | _ => false

/-- What may come in between: it brings no variables, runs no pass, and leaves the policy. -/
def isIncidental : Operation α → Bool
  | change c => !c.isIntake
  | setSense _ | setValues _ | remove _ _ => true
  | _ => false

/-- No pass runs once something was removed. -/
def RemovalsLast (as : List (Operation α)) : Prop :=
  as.Pairwise fun a later => a.isRemoval = true → later.lowers = false

/-- Two runs that differ in what comes in between. -/
inductive Interleaved : List (Operation α) → List (Operation α) → Prop where
  | nil : Interleaved [] []
  | both {as bs : List (Operation α)} (a : Operation α) (h : Interleaved as bs) :
      Interleaved (a :: as) (a :: bs)
  | left {as bs : List (Operation α)} {a : Operation α} (incidental : a.isIncidental = true)
      (h : Interleaved as bs) : Interleaved (a :: as) bs
  | right {as bs : List (Operation α)} {b : Operation α} (incidental : b.isIncidental = true)
      (h : Interleaved as bs) : Interleaved as (b :: bs)

theorem lowers_of_isIncidental {a : Operation α} (h : a.isIncidental = true) : a.lowers = false := by
  cases a <;> first | rfl | cases h

/-- Both runs have the same passes. -/
theorem Interleaved.lowers_iff {as bs : List (Operation α)} (h : Interleaved as bs) :
    (∀ a ∈ as, a.lowers = false) ↔ ∀ b ∈ bs, b.lowers = false := by
  induction h with
  | nil => exact Iff.rfl
  | both a _ ih => rw [List.forall_mem_cons, List.forall_mem_cons, ih]
  | left incidental _ ih =>
    rw [List.forall_mem_cons, ih]
    exact and_iff_right (lowers_of_isIncidental incidental)
  | right incidental _ ih =>
    rw [List.forall_mem_cons, ih]
    exact (and_iff_right (lowers_of_isIncidental incidental)).symm

variable [Scalar α]

/-- The variables that each operation with passes adds. -/
def manufactured (p : Problem α) : List (Operation α) → List (List (Variable α))
  | [] => []
  | a :: as =>
    (if a.lowers then [(a.perform p).registry.declarations.drop p.registry.declarations.length] else []) ++
      manufactured (a.perform p) as

/-- The definitions are what they were, with more after them. -/
theorem declarations_perform (a : Operation α) (p : Problem α) : (a.perform p).registry.declarations =
    p.registry.declarations ++ (a.perform p).registry.declarations.drop p.registry.declarations.length := by
  obtain ⟨news, entries, -⟩ := p.registry.insertAll_entries (a.arrivals p)
  rw [a.perform_declarations, Registry.declarations, entries, List.map_append]
  exact congrArg _ (List.drop_left' rfl).symm

theorem declarations_incidental {a : Operation α} (h : a.isIncidental = true) (p : Problem α) :
    (a.perform p).registry.declarations = p.registry.declarations := by
  have nothing : a.arrivals p = [] := by
    cases a with
    | change c =>
      cases c with
      | intake i => cases h
      | globalBounds _ _ | bounds _ _ | value _ _ => rfl
    | setSense _ | setValues _ | remove _ _ => rfl
    | configure _ | substitute _ | lower | build _ => cases h
  rw [a.perform_declarations, nothing]
  rfl

theorem manufactured_cons {a : Operation α} (h : a.lowers = false) (p : Problem α) (as : List (Operation α)) :
    manufactured p (a :: as) = manufactured (a.perform p) as := by
  rw [manufactured, h]
  rfl

theorem manufactured_nil {as : List (Operation α)} (h : ∀ a ∈ as, a.lowers = false) (p : Problem α) :
    manufactured p as = [] := by
  induction as generalizing p with
  | nil => rfl
  | cons a as ih =>
    obtain ⟨now, later⟩ := List.forall_mem_cons.mp h
    rw [manufactured_cons now, ih later]

/-- What is done to a problem is done to its outline. -/
theorem outline_perform (a : Operation α) (p : Problem α) :
    (a.perform p).outline = (a.perform p.outline).outline := by
  cases a with
  | change c =>
    cases c with
    | intake i =>
      have agree : i.Agrees p.outline.registry.declarations ↔ i.Agrees p.registry.declarations := by
        rw [p.outline_declarations]
      rcases (intake_alike agree).2 with ⟨performed', performed⟩ | ⟨performed', performed⟩
      · rw [performed, performed', i.outline_stored]
      · rw [performed, performed', p.outline_outline]
    | globalBounds _ _ | bounds _ _ | value _ _ =>
      rw [perform, perform, Change.outline_outcome rfl, Change.outline_outcome rfl, p.outline_outline]
  | setSense sense => exact p.outline_outline.symm
  | configure policy => exact ((p.configure policy).outline_outline).symm
  | setValues values => rw [perform, perform, outline_setValues, outline_setValues, p.outline_outline]
  | remove kind i =>
    have removed : (p.without kind i).outline = p.outline.without kind i := by cases kind <;> rfl
    rw [perform, perform, ← removed, outline_outline]
  | substitute pass => exact p.outline_substitute pass
  | lower => exact p.outline_lower
  | build config => rw [perform, perform, outline_assembly, outline_assembly, p.outline_lower]

theorem outline_incidental {a : Operation α} (h : a.isIncidental = true) (stays : a.isRemoval = false)
    (p : Problem α) : (a.perform p).outline = p.outline := by
  cases a with
  | change c =>
    cases c with
    | intake i => cases h
    | globalBounds _ _ | bounds _ _ | value _ _ => exact Change.outline_outcome rfl p
  | setSense sense => rfl
  | setValues values => exact p.outline_setValues values
  | remove kind i => cases stays
  | configure _ | substitute _ | lower | build _ => cases h

/-- Without passes an operation adds the same definitions where the same names are bound to the same definitions. -/
theorem firstOf?_perform {a : Operation α} (h : a.lowers = false) {p q : Problem α}
    (same : ∀ name, firstOf? p.registry.declarations name = firstOf? q.registry.declarations name) (name : String) :
    firstOf? (a.perform p).registry.declarations name = firstOf? (a.perform q).registry.declarations name := by
  have arrivals : a.arrivals p = a.arrivals q := by
    cases a with
    | change c =>
      cases c with
      | intake i => exact (intake_alike (and_congr_right fun _ => admits_congr same)).1
      | globalBounds _ _ | bounds _ _ | value _ _ => rfl
    | setSense _ | configure _ | setValues _ | remove _ _ => rfl
    | substitute _ | lower | build _ => cases h
  rw [a.perform_declarations, a.perform_declarations, Registry.firstOf?_insertAll, Registry.firstOf?_insertAll,
    firstOf?_append, firstOf?_append, same, arrivals]

namespace Interleaved

variable {as bs : List (Operation α)}

/-- Names are bound to the same definitions in both runs as long as passes add the same variables. -/
theorem firstOf?_eq (h : Interleaved as bs) {p q : Problem α}
    (same : ∀ name, firstOf? p.registry.declarations name = firstOf? q.registry.declarations name)
    (alike : manufactured p as = manufactured q bs) (name : String) :
    firstOf? (performAll as p).registry.declarations name =
      firstOf? (performAll bs q).registry.declarations name := by
  induction h generalizing p q with
  | nil => exact same name
  | both a _ ih =>
    cases passes : a.lowers with
    | false =>
      rw [manufactured_cons passes, manufactured_cons passes] at alike
      exact ih (firstOf?_perform passes same) alike
    | true =>
      simp only [manufactured, passes, ↓reduceIte, List.cons_append, List.nil_append, List.cons.injEq] at alike
      obtain ⟨added, later⟩ := alike
      refine ih (fun name => ?_) later
      rw [a.declarations_perform p, a.declarations_perform q, firstOf?_append, firstOf?_append, same, added]
  | left incidental _ ih =>
    rw [manufactured_cons (lowers_of_isIncidental incidental)] at alike
    exact ih (fun name => by rw [declarations_incidental incidental, same]) alike
  | right incidental _ ih =>
    rw [manufactured_cons (lowers_of_isIncidental incidental)] at alike
    exact ih (fun name => by rw [declarations_incidental incidental, same]) alike

/-- Where problems of one outline are the start and removals come last, passes add the same variables. -/
theorem manufactured_eq (h : Interleaved as bs) (last : RemovalsLast as) (last' : RemovalsLast bs)
    {p q : Problem α} (same : p.outline = q.outline) : manufactured p as = manufactured q bs := by
  induction h generalizing p q with
  | nil => rfl
  | both a _ ih =>
    have next : (a.perform p).outline = (a.perform q).outline := by
      rw [outline_perform, same, ← outline_perform]
    rw [manufactured, manufactured, declarations_of_outline next, declarations_of_outline same,
      ih last.of_cons last'.of_cons next]
  | @left as bs a incidental rest ih =>
    rw [manufactured_cons (lowers_of_isIncidental incidental)]
    cases removes : a.isRemoval with
    | false => exact ih last.of_cons last' ((outline_incidental incidental removes p).trans same)
    | true =>
      have finished : ∀ b ∈ as, b.lowers = false := fun b hb => (List.pairwise_cons.mp last).1 b hb removes
      rw [manufactured_nil finished, manufactured_nil (rest.lowers_iff.mp finished)]
  | @right as bs b incidental rest ih =>
    rw [manufactured_cons (lowers_of_isIncidental incidental)]
    cases removes : b.isRemoval with
    | false => exact ih last last'.of_cons (same.trans (outline_incidental incidental removes q).symm)
    | true =>
      have finished : ∀ a ∈ bs, a.lowers = false := fun a ha => (List.pairwise_cons.mp last').1 a ha removes
      rw [manufactured_nil finished, manufactured_nil (rest.lowers_iff.mpr finished)]

end Interleaved

end Operation

variable [Scalar α]

open Operation

/-- After a run, every intake is judged by the first definitions of the run. -/
structure FirstWins (as : List (Operation α)) : Prop where
  accepted : ∀ i : Intake α, i.isAccepted (ofOperations as) = true ↔ i.Agrees (definitions .empty as)
  /-- What is registered stays as it is, the variables in use included. -/
  kept : ∀ (i : Intake α) (q : Problem α) (events : List (Event α)),
    i.apply (ofOperations as) = .ok (q, events) →
    (ofOperations as).registry.entries <+: q.registry.entries ∧
      ∀ name ∈ (ofOperations as).registry.names, q.lookup name = (ofOperations as).lookup name
  /-- What comes in between decides nothing, as long as the passes add the same variables. -/
  alike : ∀ bs, Interleaved as bs → manufactured .empty as = manufactured .empty bs →
    ∀ i : Intake α, i.isAccepted (ofOperations as) = i.isAccepted (ofOperations bs)
  /-- They do, unless something was removed before one of them. -/
  settled : ∀ bs, Interleaved as bs → RemovalsLast as → RemovalsLast bs →
    manufactured .empty as = manufactured .empty bs

/-- Every problem that can be reached comes of a run, and after every run first definitions win. -/
theorem first_definitions_win :
    (∀ p : Problem α, Reachable p ↔ ∃ as, ofOperations as = p) ∧
      ∀ as : List (Operation α), FirstWins as := by
  refine ⟨fun p => reachable_iff_ofOperations, fun as => ⟨fun i => ?_, ?_, ?_, ?_⟩⟩
  · have firsts (name : String) : firstOf? (ofOperations as).registry.declarations name =
        firstOf? (definitions .empty as) name := firstOf?_performAll as .empty name
    rw [i.isAccepted_iff]
    exact and_congr_right fun _ => admits_congr firsts
  · intro i q events taken
    obtain ⟨-, rfl⟩ := Intake.apply_ok_iff.mp ⟨events, taken⟩
    obtain ⟨news, entries, -⟩ := (ofOperations as).registry.insertAll_entries i.occurrences
    have longer : (ofOperations as).registry.entries <+: (i.stored (ofOperations as)).registry.entries := by
      rw [i.stored_registry, entries]
      exact List.prefix_append _ _
    exact ⟨longer, fun name known => Registry.get?_of_prefix longer known⟩
  · intro bs interleaved alike i
    have firsts := interleaved.firstOf?_eq (fun _ => rfl) alike
    rw [Bool.eq_iff_iff, i.isAccepted_iff, i.isAccepted_iff]
    exact and_congr_right fun _ => admits_congr firsts
  · intro bs interleaved last last'
    exact interleaved.manufactured_eq last last' rfl

namespace Operation

/-- A disequality over an integer variable is posted and lowered. -/
def plain : List (Operation Rat) :=
  [.change (.intake (.constraints
      [.comparison (.ofLinear [.single 1 ((Variable.integer "x").between 0 10)] .ne 5 (1 / 2))])),
    .substitute .relations]

/-- The same, but the variable in use gets other bounds and a value in between, and a row is removed at the end. -/
def disturbed : List (Operation Rat) :=
  .change (.globalBounds 0 7) :: plain.take 1 ++
    [.change (.bounds "x" (.both 2 3)), .change (.value "x" 3), .setSense .maximise] ++ plain.drop 1 ++
    [.remove .comparison 0]

/-- The same, but the disequality is removed before the pass. -/
def emptied : List (Operation Rat) := plain.take 1 ++ .remove .comparison 0 :: plain.drop 1

theorem plain_disturbed : Interleaved plain disturbed :=
  .right rfl (.both _ (.right rfl (.right rfl (.right rfl (.both _ (.right rfl .nil))))))

theorem plain_emptied : Interleaved plain emptied := .both _ (.right rfl (.both _ .nil))

end Operation

/-- An objective over the integer variable `x` with these bounds. -/
def Intake.bounding (low high : Rat) : Intake Rat :=
  .objective (.ofTerm (.single 1 ((Variable.integer "x").between low high))) .minimise

theorem disturbed_wins :
    ((ofOperations disturbed).lookup "x").map (fun v => (v.lower.value, v.upper.value)) = some (2, 3) ∧
      (Intake.bounding 0 10).isAccepted (ofOperations disturbed) = true ∧
      (Intake.bounding 2 3).isAccepted (ofOperations disturbed) = false := by
  have wins := first_definitions_win.2 plain
  have last : RemovalsLast plain := by simp [RemovalsLast, plain, isRemoval]
  have last' : RemovalsLast disturbed := by simp [RemovalsLast, disturbed, plain, isRemoval, lowers]
  have alike := wins.alike disturbed plain_disturbed (wins.settled disturbed plain_disturbed last last')
  refine ⟨by decide +kernel, ?_, ?_⟩
  · rw [← alike]
    decide +kernel
  · rw [← alike]
    decide +kernel

/-- The name of an auxiliary is free where a removal leaves nothing for the pass, and taken where it does not. -/
theorem removal_decides : ¬ ∀ as bs : List (Operation Rat), Interleaved as bs →
    ∀ i : Intake Rat, i.isAccepted (ofOperations as) = i.isAccepted (ofOperations bs) := by
  intro alike
  have same := alike plain emptied plain_emptied
    (.constraints [.comparison (.ofLinear [.single 1 (.integer "psi#0")] .le 1 (1 / 2))])
  revert same
  decide +kernel

end MixedInteger
