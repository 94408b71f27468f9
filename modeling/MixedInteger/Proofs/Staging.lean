import MixedInteger.Problem.Posting
import MixedInteger.Proofs.Registered
import MixedInteger.Proofs.Rewriting

/-!
What a problem takes in. Every occurrence of a variable is judged by the first definition of its name, among those
registered and those that come before it, and what is registered by then does not matter otherwise.
-/

namespace MixedInteger

variable {α : Type}

/-- The definition that binds a name. -/
def firstOf? (definitions : List (Variable α)) (name : String) : Option (Variable α) :=
  definitions.find? (·.name == name)

theorem firstOf?_append (xs ys : List (Variable α)) (name : String) :
    firstOf? (xs ++ ys) name = (firstOf? xs name).or (firstOf? ys name) :=
  List.find?_append

/-- A definition of a name that has one already adds nothing. -/
theorem firstOf?_repeated {xs : List (Variable α)} {v : Variable α} (known : firstOf? xs v.name ≠ none)
    (name : String) : firstOf? (xs ++ [v]) name = firstOf? xs name := by
  rw [firstOf?_append]
  by_cases same : v.name = name
  · obtain ⟨first, hf⟩ := Option.ne_none_iff_exists'.mp (same ▸ known)
    rw [hf]
    rfl
  · have other : firstOf? [v] name = none := by simp [firstOf?, same]
    rw [other, Option.or_none]

namespace Registry

/-- The first definitions, in the order of their names. -/
def declarations (r : Registry α) : List (Variable α) := r.entries.map (·.declared)

theorem firstOf?_declarations (r : Registry α) (name : String) :
    firstOf? r.declarations name = (r.find? name).map (·.declared) := by
  rw [firstOf?, declarations, List.find?_map]
  rfl

theorem declaration?_eq (r : Registry α) (staged : List (Variable α)) (name : String) :
    r.declaration? staged name = firstOf? (r.declarations ++ staged) name := by
  rw [firstOf?_append, firstOf?_declarations, declaration?]
  cases r.find? name <;> rfl

theorem mem_names_iff {r : Registry α} {name : String} :
    name ∈ r.names ↔ firstOf? r.declarations name ≠ none := by
  rw [firstOf?_declarations, Ne, Option.map_eq_none_iff, find?_eq_none_iff, not_not]

theorem declarations_recast (r : Registry α) (f : Registration α → Variable α) :
    (r.recast f).declarations = r.declarations := by
  simp only [declarations, recast, List.map_map]
  rfl

theorem declarations_insert_new {r : Registry α} {v : Variable α} (new : v.name ∉ r.names) :
    (r.insert v).declarations = r.declarations ++ [v] := by
  rw [insert_new new, declarations, List.map_append]
  rfl

/-- To a registry variables come in as to a list of definitions. -/
theorem firstOf?_insertAll (r : Registry α) (vs : List (Variable α)) (name : String) :
    firstOf? (r.insertAll vs).declarations name = firstOf? (r.declarations ++ vs) name := by
  induction vs generalizing r with
  | nil => rw [List.append_nil, insertAll, List.foldl_nil]
  | cons v vs ih =>
    have one : firstOf? (r.insert v).declarations name = firstOf? (r.declarations ++ [v]) name := by
      by_cases known : v.name ∈ r.names
      · rw [insert_known known, firstOf?_repeated (mem_names_iff.mp known)]
      · rw [declarations_insert_new known]
    calc firstOf? ((r.insert v).insertAll vs).declarations name
        = firstOf? ((r.insert v).declarations ++ vs) name := ih _
      _ = firstOf? (r.declarations ++ (v :: vs)) name := by
          rw [firstOf?_append, one, ← firstOf?_append, List.append_assoc, List.singleton_append]

end Registry

/-- A later definition may leave a bound open. What it says agrees with the first one. -/
structure Variable.Repeats [BEq α] (later first : Variable α) : Prop where
  domain : later.domain = first.domain
  lower : later.lower.isDefault = false → (later.lower.value == first.lower.value) = true
  upper : later.upper.isDefault = false → (later.upper.value == first.upper.value) = true

variable [Scalar α]

theorem Variable.checkRedefinition_ok {first later : Variable α} :
    first.checkRedefinition later = .ok () ↔ later.Repeats first := by
  have accepts (declared later : Bound α) : declared.accepts later = true ↔
      (later.isDefault = false → (later.value == declared.value) = true) := by
    cases hd : later.isDefault <;> simp [Bound.accepts, hd]
  unfold Variable.checkRedefinition
  by_cases hd : first.domain = later.domain
  · by_cases hb : (first.lower.accepts later.lower && first.upper.accepts later.upper) = true
    · rw [if_neg (not_not.mpr hd), if_pos hb]
      rw [Bool.and_eq_true, accepts, accepts] at hb
      exact iff_of_true rfl ⟨hd.symm, hb.1, hb.2⟩
    · rw [if_neg (not_not.mpr hd), if_neg hb]
      rw [Bool.and_eq_true, accepts, accepts] at hb
      exact iff_of_false throw_ne_ok fun h => hb ⟨h.lower, h.upper⟩
  · rw [if_pos hd]
    exact iff_of_false throw_ne_ok fun h => hd h.domain.symm

/-- Every occurrence agrees with the first definition of its name, in what went before or among the occurrences ahead
of it. The first occurrence of a new name is itself the definition and has nothing to agree with. -/
def Admits (earlier occurrences : List (Variable α)) : Prop :=
  ∀ before v after, occurrences = before ++ v :: after →
    ∀ first ∈ firstOf? (earlier ++ before) v.name, v.Repeats first

theorem admits_nil (earlier : List (Variable α)) : Admits earlier [] := by
  intro before v after split
  simp at split

theorem admits_cons {earlier : List (Variable α)} {v : Variable α} {vs : List (Variable α)} :
    Admits earlier (v :: vs) ↔
      (∀ first ∈ firstOf? earlier v.name, v.Repeats first) ∧ Admits (earlier ++ [v]) vs := by
  constructor
  · intro h
    constructor
    · intro first hf
      exact h [] v vs rfl first (by rwa [List.append_nil])
    · intro before w after split first hf
      exact h (v :: before) w after (by rw [split, List.cons_append]) first (by simpa using hf)
  · rintro ⟨now, later⟩ before w after split first hf
    cases before with
    | nil =>
      obtain ⟨rfl, rfl⟩ := List.cons.inj split
      exact now first (by rwa [List.append_nil] at hf)
    | cons u before =>
      obtain ⟨rfl, rfl⟩ := List.cons.inj split
      exact later before w after rfl first (by simpa using hf)

theorem admits_append {earlier xs ys : List (Variable α)} :
    Admits earlier (xs ++ ys) ↔ Admits earlier xs ∧ Admits (earlier ++ xs) ys := by
  induction xs generalizing earlier with
  | nil => simp [admits_nil]
  | cons x xs ih => rw [List.cons_append, admits_cons, ih, admits_cons, and_assoc, List.append_assoc,
      List.singleton_append]

/-- Only the first definitions count. -/
theorem admits_congr {earlier earlier' vs : List (Variable α)}
    (same : ∀ name, firstOf? earlier name = firstOf? earlier' name) :
    Admits earlier vs ↔ Admits earlier' vs := by
  simp only [Admits, firstOf?_append, same]

namespace Registry

variable {r : Registry α}

/-- One incoming variable. Inserting what is staged comes to inserting what came in. -/
theorem stageOne_ok {staged staged' : List (Variable α)} {v : Variable α}
    (ok : r.stageOne staged v = .ok staged') :
    (∀ first ∈ firstOf? (r.declarations ++ staged) v.name, v.Repeats first) ∧
      r.insertAll staged' = (r.insertAll staged).insert v ∧
      ∀ name, firstOf? (r.declarations ++ staged') name = firstOf? (r.declarations ++ staged ++ [v]) name := by
  unfold stageOne at ok
  rw [declaration?_eq] at ok
  cases hf : firstOf? (r.declarations ++ staged) v.name with
  | some first =>
    simp only [hf, bind_eq_ok, pure_eq_ok] at ok
    obtain ⟨_, checked, rfl⟩ := ok
    have known : firstOf? (r.declarations ++ staged) v.name ≠ none := by simp [hf]
    refine ⟨?_, ?_, fun name => (firstOf?_repeated known name).symm⟩
    · intro _ found
      obtain rfl := Option.some.inj found
      exact Variable.checkRedefinition_ok.mp checked
    · rw [insert_known]
      rwa [mem_names_iff, firstOf?_insertAll]
  | none =>
    simp only [hf, pure_eq_ok] at ok
    subst ok
    refine ⟨by simp, ?_, fun name => by rw [List.append_assoc]⟩
    rw [insertAll, List.foldl_append]
    rfl

theorem exists_stageOne {staged : List (Variable α)} {v : Variable α}
    (h : ∀ first ∈ firstOf? (r.declarations ++ staged) v.name, v.Repeats first) :
    ∃ staged', r.stageOne staged v = .ok staged' := by
  unfold stageOne
  rw [declaration?_eq]
  cases hf : firstOf? (r.declarations ++ staged) v.name with
  | some first =>
    refine ⟨staged, bind_eq_ok.mpr ⟨(), ?_, rfl⟩⟩
    exact Variable.checkRedefinition_ok.mpr (h first hf)
  | none => exact ⟨staged ++ [v], rfl⟩

theorem foldlM_stageOne_ok {vs staged last : List (Variable α)}
    (ok : vs.foldlM r.stageOne staged = .ok last) :
    Admits (r.declarations ++ staged) vs ∧ r.insertAll last = (r.insertAll staged).insertAll vs := by
  induction vs generalizing staged with
  | nil =>
    rw [List.foldlM_nil, pure_eq_ok] at ok
    exact ⟨admits_nil _, ok ▸ rfl⟩
  | cons v vs ih =>
    rw [List.foldlM_cons, bind_eq_ok] at ok
    obtain ⟨staged', one, rest⟩ := ok
    obtain ⟨agrees, inserted, firsts⟩ := stageOne_ok one
    obtain ⟨admits, insertion⟩ := ih rest
    refine ⟨admits_cons.mpr ⟨agrees, (admits_congr firsts).mp admits⟩, ?_⟩
    rw [insertion, inserted]
    rfl

theorem exists_foldlM_stageOne {vs staged : List (Variable α)}
    (h : Admits (r.declarations ++ staged) vs) : ∃ last, vs.foldlM r.stageOne staged = .ok last := by
  induction vs generalizing staged with
  | nil => exact ⟨staged, rfl⟩
  | cons v vs ih =>
    obtain ⟨agrees, rest⟩ := admits_cons.mp h
    obtain ⟨staged', one⟩ := exists_stageOne agrees
    obtain ⟨last, ok⟩ := ih ((admits_congr (stageOne_ok one).2.2).mpr rest)
    exact ⟨last, by rw [List.foldlM_cons, one]; exact ok⟩

theorem insertAll_stage {vs staged : List (Variable α)} (ok : r.stage vs = .ok staged) :
    r.insertAll staged = r.insertAll vs :=
  (foldlM_stageOne_ok ok).2

theorem stage_ok_iff {vs : List (Variable α)} :
    (∃ staged, r.stage vs = .ok staged) ↔ Admits r.declarations vs := by
  constructor
  · rintro ⟨staged, ok⟩
    simpa using (foldlM_stageOne_ok ok).1
  · intro h
    exact exists_foldlM_stageOne (by simpa using h)

end Registry

namespace Problem

/-- A batch is taken when all its constraints pass their checks and all occurrences agree. -/
theorem addAll_ok_iff {p q : Problem α} {cs : List (Constraint α)} : p.addAll cs = .ok q ↔
    (∀ c ∈ cs, c.validate = .ok ()) ∧ Admits p.registry.declarations (cs.flatMap Constraint.occurrences) ∧
      q = cs.foldl push { p with
        registry := p.registry.insertAll (cs.flatMap Constraint.occurrences), flags := .none } := by
  unfold addAll
  simp only [bind_eq_ok, pure_eq_ok]
  constructor
  · rintro ⟨_, valid, staged, ok, rfl⟩
    rw [Registry.insertAll_stage ok]
    exact ⟨forM_ok.mp valid, Registry.stage_ok_iff.mp ⟨staged, ok⟩, rfl⟩
  · rintro ⟨valid, admits, rfl⟩
    obtain ⟨staged, ok⟩ := Registry.stage_ok_iff.mpr admits
    exact ⟨(), forM_ok.mpr valid, staged, ok, by rw [Registry.insertAll_stage ok]⟩

theorem setObjective_ok_iff {p q : Problem α} {e : Expression α} {sense : Sense} {events : List (Event α)} :
    p.setObjective e sense = .ok (q, events) ↔ Admits p.registry.declarations e.occurrences ∧
      q = { p with objective := some e, sense, registry := p.registry.insertAll e.occurrences } ∧
      events = if e.hasNoTerms then [.constantObjective] else [] := by
  unfold setObjective
  simp only [bind_eq_ok, pure_eq_ok, Prod.mk.injEq]
  constructor
  · rintro ⟨staged, ok, rfl, rfl⟩
    rw [Registry.insertAll_stage ok]
    exact ⟨Registry.stage_ok_iff.mp ⟨staged, ok⟩, rfl, rfl⟩
  · rintro ⟨admits, rfl, rfl⟩
    obtain ⟨staged, ok⟩ := Registry.stage_ok_iff.mpr admits
    exact ⟨staged, ok, by rw [Registry.insertAll_stage ok], rfl⟩

end Problem
end MixedInteger
