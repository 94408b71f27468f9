import MixedInteger.Proofs.Staging

/-!
Batches of constraints. A batch is judged as a whole before anything of it is registered, and still comes to what its
constraints come to one after the other.
-/

namespace MixedInteger.Problem

variable {α : Type}

/-- Storing a constraint reads neither the registry nor the flags. -/
theorem push_relabelled (p : Problem α) (c : Constraint α) (registry : Registry α) (flags : PassFlags) :
    { p.push c with registry, flags } = { p with registry, flags }.push c := by
  cases c <;> rfl

variable [Scalar α]

theorem addAll_cons_iff {p q : Problem α} {c : Constraint α} {cs : List (Constraint α)} :
    p.addAll (c :: cs) = .ok q ↔ ∃ mid, p.add c = .ok mid ∧ mid.addAll cs = .ok q := by
  let first : Problem α :=
    { p with registry := p.registry.insertAll c.occurrences, flags := .none }.push c
  have added (mid : Problem α) : p.add c = .ok mid ↔
      c.validate = .ok () ∧ Admits p.registry.declarations c.occurrences ∧ mid = first := by
    simp only [add, addAll_ok_iff, List.forall_mem_singleton, List.flatMap_singleton, List.foldl_cons,
      List.foldl_nil, first]
  have registry : first.registry = p.registry.insertAll c.occurrences := (push_frame _ c).1
  -- The later constraints find the variables of the first one registered, instead of ahead of them in the batch.
  have admits : Admits p.registry.declarations (c.occurrences ++ cs.flatMap Constraint.occurrences) ↔
      Admits p.registry.declarations c.occurrences ∧
        Admits first.registry.declarations (cs.flatMap Constraint.occurrences) := by
    rw [admits_append, registry, admits_congr (p.registry.firstOf?_insertAll c.occurrences)]
  have stored : (c :: cs).foldl push { p with
        registry := p.registry.insertAll (c.occurrences ++ cs.flatMap Constraint.occurrences), flags := .none } =
      cs.foldl push { first with
        registry := first.registry.insertAll (cs.flatMap Constraint.occurrences), flags := .none } := by
    rw [List.foldl_cons, registry, push_relabelled, Registry.insertAll, List.foldl_append]
    rfl
  simp only [added, addAll_ok_iff, List.forall_mem_cons, List.flatMap_cons, admits, stored]
  constructor
  · rintro ⟨⟨valid, others⟩, ⟨now, later⟩, rfl⟩
    exact ⟨first, ⟨valid, now, rfl⟩, others, later, rfl⟩
  · rintro ⟨mid, ⟨valid, now, rfl⟩, others, later, rfl⟩
    exact ⟨⟨valid, others⟩, ⟨now, later⟩, rfl⟩

/-- A batch is taken exactly when its constraints are taken one after the other, and the problem is the same
afterwards: the constraints and their order, the registry and its first declarations, the flags and the numbering.
An empty batch is none of these, since it resets the flags. -/
theorem addAll_iff_one_by_one {p : Problem α} {cs : List (Constraint α)} (some : cs ≠ []) (q : Problem α) :
    p.addAll cs = .ok q ↔ cs.foldlM add p = .ok q := by
  induction cs generalizing p with
  | nil => exact absurd rfl some
  | cons c cs ih =>
    rw [List.foldlM_cons, bind_eq_ok]
    cases cs with
    | nil => simp only [List.foldlM_nil, pure_eq_ok, exists_eq_right, add]
    | cons c' rest =>
      rw [addAll_cons_iff]
      exact exists_congr fun mid => and_congr_right fun _ => ih (List.cons_ne_nil c' rest)

/-- The second constraint names `x` again and leaves its bounds open. -/
def overlapping : List (Constraint Rat) :=
  [.sos1 (.ofMembers [(Variable.integer "x").between 0 10, .real "y"]),
    .comparison (.ofLinear [.single 1 (.real "y"), .single 1 (.integer "x")] .ne 3 (1 / 4))]

theorem overlapping_one_by_one : ∃ q, Problem.empty.addAll overlapping = .ok q ∧
    q.registry.names = ["x", "y"] ∧ overlapping.foldlM add .empty = .ok q :=
  ⟨_, rfl, rfl, (addAll_iff_one_by_one (List.cons_ne_nil _ _) _).mp rfl⟩

end MixedInteger.Problem
