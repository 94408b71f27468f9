import MixedInteger.Proofs.Reachable

/-!
The auxiliaries of a pass. The search for each name ends, no name captures another one, and the registry goes on
with the auxiliaries alone, each of them as its rows carry it.
-/

namespace MixedInteger

namespace NameSupply

/-- The rounds of a search for a name: it goes past a number whose name is taken, and any other ends it. -/
inductive Search (stem : String) (taken : List String) : (start rounds found : Nat) → Prop where
  | ends {n : Nat} (free : numbered stem n ∉ taken) : Search stem taken n 1 n
  | passes {n rounds found : Nat} (used : numbered stem n ∈ taken)
      (rest : Search stem taken (n + 1) rounds found) : Search stem taken n (rounds + 1) found

/-- A search never looks back, so a name behind it may be struck. -/
theorem Search.of_erase {stem : String} {taken : List String} {behind n rounds found : Nat}
    (h : Search stem (taken.erase (numbered stem behind)) n rounds found) (ahead : behind < n) :
    Search stem taken n rounds found := by
  induction h with
  | ends free =>
    refine .ends fun used => free ?_
    refine (List.mem_erase_of_ne ?_).mpr used
    rw [Ne, numbered_inj]
    omega
  | passes used _ ih => exact .passes (List.mem_of_mem_erase used) (ih (by omega))

/-- Each round but the last uses up a taken name. -/
theorem firstFree_search (stem : String) (taken : List String) (n : Nat) :
    ∃ rounds, rounds ≤ taken.length + 1 ∧ Search stem taken n rounds (firstFree stem taken n) := by
  fun_induction firstFree stem taken n with
  | case1 taken n used ih =>
    obtain ⟨rounds, bound, search⟩ := ih
    refine ⟨rounds + 1, ?_, .passes used (search.of_erase (Nat.lt_succ_self n))⟩
    have := List.length_pos_of_mem used
    rw [List.length_erase_of_mem used] at bound
    omega
  | case2 taken n free => exact ⟨1, by omega, .ends free⟩

end NameSupply

variable {α : Type}

/-- The entries of a registry stay as they are, and more may follow. -/
def Problem.Continues (p q : Problem α) : Prop := p.registry.entries <+: q.registry.entries

/-- A variable in use under an earlier name is the one that was in use before. -/
theorem Problem.Continues.registered {p q : Problem α} (h : p.Continues q)
    (consistent : q.registry.Consistent) {v : Variable α} (hv : v ∈ q.registered)
    (old : v.name ∈ p.registry.names) : v ∈ p.registered := by
  obtain ⟨e, he, rfl⟩ := List.mem_map.mp hv
  obtain ⟨e', he', hn⟩ := List.mem_map.mp old
  have same : e' = e := List.inj_on_of_nodup_map consistent.distinct (h.subset he') he
    (hn.trans (consistent.named e he))
  exact same ▸ List.mem_map_of_mem he'

/-- The drawn variables are new, and the registry goes on with each of them once, in the form in which every
constraint that uses it carries it. -/
structure Problem.Enters (p q : Problem α) (drawn : List (Variable α)) : Prop where
  distinct : (drawn.map (·.name)).Nodup
  new : ∀ v ∈ drawn, v.name ∉ p.registry.names
  entries : ∃ news : List (Variable α), news.Perm drawn ∧
    q.registry.entries = p.registry.entries ++ news.map fun v => ⟨v, v⟩
  carried : ∀ c ∈ q.constraints, ∀ v ∈ c.occurrences, v.name ∉ p.registry.names →
    v ∈ drawn ∧ q.lookup v.name = some v
  used : ∀ v ∈ drawn, ∃ c ∈ q.constraints, v ∈ c.occurrences

variable [Scalar α]

namespace Passed

variable {p q : Problem α} {pass : Pass} {kept : List (Constraint α)}
  {ws : List (Rewriting p.policy.bigM)}

/-- New entries are auxiliaries, since everything else that rows use was known. -/
theorem new_entries (h : Passed p pass kept ws q) (hp : p.Grounded) :
    ∃ news : List (Variable α),
      q.registry.entries = p.registry.entries ++ news.map (fun v => ⟨v, v⟩) ∧
      ∀ v ∈ news, v ∈ ws.flatMap (·.auxiliaries) := by
  obtain ⟨news, entries, fresh, -⟩ :=
    p.registry.insertAll_entries ((ws.flatMap (·.rows)).flatMap Constraint.occurrences)
  refine ⟨news, h.registry ▸ entries, fun v hv => ?_⟩
  obtain ⟨occurs, new⟩ := fresh v hv
  obtain ⟨r, hr, hocc⟩ := List.mem_flatMap.mp occurs
  obtain ⟨w, hw, hr⟩ := List.mem_flatMap.mp hr
  rcases h.row_variable hp hw hr hocc with known | ⟨auxiliary, -⟩
  · exact absurd (known.mem_names hp.registry) new
  · exact auxiliary

theorem continues (h : Passed p pass kept ws q) : p.Continues q := by
  obtain ⟨news, entries, -, -⟩ :=
    p.registry.insertAll_entries ((ws.flatMap (·.rows)).flatMap Constraint.occurrences)
  rw [Problem.Continues, h.registry, entries]
  exact List.prefix_append _ _

/-- What a pass registers are its auxiliaries. -/
theorem new_auxiliary (h : Passed p pass kept ws q) (hp : p.Grounded) {v : Variable α}
    (hv : v ∈ q.registered) (new : v.name ∉ p.registry.names) : v ∈ ws.flatMap (·.auxiliaries) := by
  obtain ⟨news, entries, auxiliary⟩ := h.new_entries hp
  rw [Problem.registered, Registry.toList, entries, List.map_append, List.mem_append] at hv
  rcases hv with hv | hv
  · exact absurd (Registry.Knows.mem_names hp.registry ⟨v, hv, rfl, rfl⟩) new
  · simp only [List.map_map, List.mem_map, Function.comp_apply, exists_eq_right] at hv
    exact auxiliary v hv

/-- Every auxiliary is used by a row. -/
theorem auxiliary_used (h : Passed p pass kept ws q) :
    ∀ v ∈ ws.flatMap (·.auxiliaries), ∃ c ∈ q.constraints, v ∈ c.occurrences := by
  intro v hv
  obtain ⟨w, hw, hv⟩ := List.mem_flatMap.mp hv
  obtain ⟨row, hrow, hocc⟩ := w.lowers.auxiliaries_occur v hv
  exact ⟨row, h.row_mem hw hrow, hocc⟩

/-- The auxiliaries of a pass are registered by it. -/
theorem auxiliary_registered (h : Passed p pass kept ws q) (hp : p.Grounded) :
    ∀ v ∈ ws.flatMap (·.auxiliaries), v.name ∈ q.registry.names := by
  intro v hv
  obtain ⟨c, hc, hocc⟩ := h.auxiliary_used v hv
  have grounded := h.grounded hp
  exact (grounded.known c hc v hocc).mem_names grounded.registry

/-- A constraint after a pass uses a new name only for the auxiliary of that name. -/
theorem auxiliary_of_new (h : Passed p pass kept ws q) (hp : p.Grounded) {c : Constraint α}
    (hc : c ∈ q.constraints) {v : Variable α} (hv : v ∈ c.occurrences)
    (new : v.name ∉ p.registry.names) : v ∈ ws.flatMap (·.auxiliaries) := by
  rcases h.mem_after hc with hk | ⟨w, hw, hr⟩
  · exact absurd ((hp.known c (h.kept_mem hk) v hv).mem_names hp.registry) new
  · rcases h.row_variable hp hw hr hv with known | ⟨auxiliary, -⟩
    · exact absurd (known.mem_names hp.registry) new
    · exact auxiliary

theorem enters (h : Passed p pass kept ws q) (hp : p.Grounded) :
    p.Enters q (ws.flatMap (·.auxiliaries)) := by
  obtain ⟨news, entries, auxiliary⟩ := h.new_entries hp
  have consistent := (h.grounded hp).registry
  have registered : ∀ v ∈ ws.flatMap (·.auxiliaries), v ∈ news := by
    intro v hv
    have named := h.auxiliary_registered hp v hv
    rw [Registry.names, entries, List.map_append, List.mem_append, List.map_map] at named
    rcases named with old | named
    · exact absurd old (h.drawn.free v hv)
    · obtain ⟨u, hu, same⟩ := List.mem_map.mp named
      exact List.inj_on_of_nodup_map h.drawn.nodup (auxiliary u hu) hv same ▸ hu
  have once : news.Nodup := by
    have names := consistent.distinct
    rw [Registry.names, entries, List.map_append, List.map_map] at names
    exact (List.nodup_append.mp names).2.1.of_map _
  refine ⟨h.drawn.nodup, h.drawn.free, ⟨news, ?_, entries⟩, ?_, h.auxiliary_used⟩
  · exact (List.perm_ext_iff_of_nodup once (h.drawn.nodup.of_map _)).mpr fun v =>
      ⟨auxiliary v, registered v⟩
  · intro c hc v hv new
    have drawn := h.auxiliary_of_new hp hc hv new
    refine ⟨drawn, consistent.get?_eq_some.mpr ⟨?_, rfl⟩⟩
    rw [Registry.toList, entries, List.map_append, List.map_map]
    exact List.mem_append_right _ (List.mem_map.mpr ⟨v, registered v drawn, rfl⟩)

end Passed

theorem Problem.after_continues (p : Problem α) (passes : List Pass) :
    p.Continues (p.after passes) := by
  refine after_keeps (P := p.Continues) (List.prefix_refl _) ?_ passes
  intro q r pass kept ws passed continues
  exact continues.trans passed.continues

/-- Whatever names are in use, a search for another one ends, and what a pass draws is registered beside what was
there, without touching it. -/
theorem Reachable.auxiliaries_enter {p : Problem α} (reachable : Reachable p) (pass : Pass) :
    (∀ (stem : String) (s : NameSupply), ∃ rounds n, rounds ≤ s.taken.length + 1 ∧
      NameSupply.Search stem s.taken s.next rounds n ∧
      Naming.fresh stem s = (NameSupply.numbered stem n, { s with next := n + 1 })) ∧
    ∃ kept ws, Passed p pass kept ws (p.substitute pass).1 ∧
      p.Enters (p.substitute pass).1 (ws.flatMap (·.auxiliaries)) := by
  constructor
  · intro stem s
    obtain ⟨rounds, bound, search⟩ := NameSupply.firstFree_search stem s.taken s.next
    exact ⟨rounds, _, bound, search, rfl⟩
  · obtain ⟨kept, ws, passed⟩ := p.substitute_passed pass
    exact ⟨kept, ws, passed, passed.enters reachable.grounded⟩

/-- A disequality over a variable whose name is one that an auxiliary would get. -/
def Constraint.crowded : Constraint Rat :=
  .comparison (.ofLinear [.single 1 (.real "x"), .single 1 (.integer "psi#0")] .ne 5 (1 / 2))

def Problem.crowded : Problem Rat :=
  { Problem.empty.push .crowded with
    registry := (Registry.empty.insert (.real "x")).insert (.integer "psi#0") }

theorem Problem.crowded_enters :
    (Problem.crowded.substitute .relations).1.registry.names = ["x", "psi#0", "psi#1", "psi_prime#2"] ∧
      ∃ kept ws, Passed Problem.crowded .relations kept ws (Problem.crowded.substitute .relations).1 ∧
        Problem.crowded.Enters (Problem.crowded.substitute .relations).1
          (ws.flatMap (·.auxiliaries)) := by
  have taken : Problem.empty.addAll [Constraint.crowded] = .ok Problem.crowded := rfl
  have reachable : Reachable Problem.crowded := .step .start (.posted taken)
  exact ⟨by decide +kernel, (reachable.auxiliaries_enter .relations).2⟩

end MixedInteger
