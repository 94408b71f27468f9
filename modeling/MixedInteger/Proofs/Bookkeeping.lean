import MixedInteger.Proofs.AssembledModel
import MixedInteger.Proofs.WellFormed
import MixedInteger.Proofs.Runs
import MixedInteger.Tables

/-!
The tables answer as the registry does. Each of their maps leads from every key of a list to the one place where it
stands, which is all that a lookup needs to know of it, and whatever is done to a problem keeps that so.
-/

namespace MixedInteger

section Places

/-- The map leads from each key of the list to the one place where it stands, and from nothing else. -/
def Indexes {κ : Type} [BEq κ] [Hashable κ] (places : Std.HashMap κ Nat) (keys : List κ) : Prop :=
  ∀ (key : κ) (place : Nat), places[key]? = some place ↔ keys[place]? = some key

namespace Indexes

variable {κ : Type} [BEq κ] [Hashable κ] {places : Std.HashMap κ Nat} {keys : List κ} {key : κ}

theorem none_iff (h : Indexes places keys) : places[key]? = none ↔ key ∉ keys := by
  rw [List.mem_iff_getElem?, Option.eq_none_iff_forall_ne_some, not_exists]
  exact forall_congr' fun place => not_congr (h key place)

/-- A key has one place at most. -/
theorem place_unique (h : Indexes places keys) {i j : Nat} (hi : keys[i]? = some key) (hj : keys[j]? = some key) :
    i = j :=
  Option.some.inj (((h key i).mpr hi).symm.trans ((h key j).mpr hj))

variable [LawfulBEq κ]

/-- Where the map leads is where a search ends. -/
theorem idxOf?_eq (h : Indexes places keys) (key : κ) : keys.idxOf? key = places[key]? := by
  cases found : places[key]? with
  | none => exact List.idxOf?_eq_none_iff.mpr (h.none_iff.mp found)
  | some place =>
    have stands := (h key place).mp found
    obtain ⟨within, here⟩ := List.getElem?_eq_some_iff.mp stands
    refine List.idxOf?_eq_some_iff.mpr ⟨within, here, fun j before same => ?_⟩
    -- An earlier hit would be a second place of the key.
    exact Nat.ne_of_lt before (h.place_unique (List.getElem?_eq_some_iff.mpr ⟨_, same⟩) stands)

theorem find?_eq {β : Type} {xs : List β} {keyOf : β → κ} (h : Indexes places (xs.map keyOf)) (key : κ) :
    (xs.find? fun x => keyOf x == key) = places[key]?.bind fun place => xs[place]? := by
  have stop : (xs.findIdx? fun x => keyOf x == key) = places[key]? := by
    rw [← h.idxOf?_eq key, List.idxOf?, List.findIdx?_map]
    rfl
  rw [← stop]
  exact List.find?_eq_bind_findIdx?_getElem?

variable [LawfulHashable κ]

theorem empty : Indexes (∅ : Std.HashMap κ Nat) [] := by
  intro key place
  simp

theorem contains_iff (h : Indexes places keys) : places.contains key = true ↔ key ∈ keys := by
  rw [Std.HashMap.contains_eq_isSome_getElem?, Option.isSome_iff_ne_none, ne_eq, h.none_iff, not_not]

/-- A new key comes last. -/
theorem insert (h : Indexes places keys) (new : key ∉ keys) :
    Indexes (places.insert key keys.length) (keys ++ [key]) := by
  intro other place
  have last : (keys ++ [key])[place]? = some other ↔
      keys[place]? = some other ∨ keys.length = place ∧ key = other := by
    grind
  rw [Std.HashMap.getElem?_insert, last]
  by_cases same : key = other
  · subst same
    have elsewhere : keys[place]? ≠ some key := fun found => new (List.mem_of_getElem? found)
    simp [elsewhere]
  · simp [same, h other place]

/-- Distinct keys, each with the place where it stands. -/
theorem ofList (distinct : keys.Nodup) : Indexes (.ofList keys.zipIdx) keys := by
  have apart : (keys.zipIdx.map (·.1)).Pairwise fun a b => (a == b) = false := by
    rw [List.zipIdx_map_fst]
    exact distinct.imp beq_false_of_ne
  have leads {key : κ} {place : Nat} (here : keys[place]? = some key) :
      (Std.HashMap.ofList keys.zipIdx)[key]? = some place :=
    Std.HashMap.getElem?_ofList_of_mem (beq_self_eq_true key) (List.pairwise_map.mp apart)
      (List.mk_mem_zipIdx_iff_getElem?.mpr here)
  intro key place
  refine ⟨fun found => ?_, leads⟩
  by_cases known : key ∈ keys
  · obtain ⟨other, here⟩ := List.mem_iff_getElem?.mp known
    rwa [Option.some.inj (found.symm.trans (leads here))]
  · have nowhere : (Std.HashMap.ofList keys.zipIdx)[key]? = none :=
      Std.HashMap.getElem?_ofList_of_contains_eq_false (by simpa [List.zipIdx_map_fst] using known)
    rw [nowhere] at found
    cases found

end Indexes

end Places

section Registry

variable {α : Type} {t : Tables α} {r : Registry α}

/-- Leaving out what is known makes no difference. -/
theorem Registry.insertAll_filter (r : Registry α) (new : Variable α → Bool) (vs : List (Variable α))
    (left : ∀ v ∈ vs, new v = false → v.name ∈ r.names) : r.insertAll (vs.filter new) = r.insertAll vs := by
  induction vs generalizing r with
  | nil => rfl
  | cons v vs ih =>
    obtain ⟨first, rest⟩ := List.forall_mem_cons.mp left
    have onward : (r.insert v).insertAll (vs.filter new) = (r.insert v).insertAll vs :=
      ih _ fun w hw known => (r.grows_insertAll [v]).names.subset (rest w hw known)
    cases picked : new v with
    | true =>
      rw [List.filter_cons_of_pos picked]
      exact onward
    | false =>
      rw [List.filter_cons_of_neg (Bool.not_eq_true _ ▸ picked)]
      rw [insert_known (first picked)] at onward
      rw [onward, insertAll, insertAll, List.foldl_cons, insert_known (first picked)]

namespace Tables

/-- The tables list what the registry lists, and their map leads to the places of the names. -/
structure Keeps (t : Tables α) (r : Registry α) : Prop where
  current : t.current = r.toList
  declared : t.declared = r.declarations
  places : Indexes t.places r.names

namespace Keeps

theorem empty : (Tables.empty : Tables α).Keeps .empty := ⟨rfl, rfl, .empty⟩

theorem length_current (h : t.Keeps r) : t.current.length = r.names.length := by
  rw [h.current, Registry.toList, Registry.names, List.length_map, List.length_map]

/-- A search among the entries is a step to a place. -/
theorem find?_eq (h : t.Keeps r) (name : String) :
    r.find? name = t.places[name]?.bind fun place => r.entries[place]? :=
  Indexes.find?_eq h.places name

/-- A place that the map leads to is one where an entry of that name stands. -/
theorem entry (h : t.Keeps r) {name : String} {place : Nat} (found : t.places[name]? = some place) :
    ∃ e, r.entries[place]? = some e ∧ e.declared.name = name := by
  have stands := (h.places name place).mp found
  rw [Registry.names, List.getElem?_map] at stands
  exact Option.map_eq_some_iff.mp stands

theorem lookup_eq (h : t.Keeps r) (name : String) : t.lookup name = r.get? name := by
  rw [lookup, h.current, Registry.get?, h.find?_eq, Option.map_bind]
  refine congrArg (t.places[name]?.bind) (funext fun place => ?_)
  rw [Registry.toList, List.getElem?_map, Function.comp_apply]

theorem register (h : t.Keeps r) (v : Variable α) : (t.register v).Keeps (r.insert v) := by
  by_cases known : v.name ∈ r.names
  · rwa [Tables.register, if_pos (h.places.contains_iff.mpr known), Registry.insert_known known]
  · rw [Tables.register, if_neg (mt h.places.contains_iff.mp known), Registry.insert_new known, h.length_current]
    refine ⟨?_, ?_, ?_⟩
    · simp [h.current, Registry.toList]
    · simp [h.declared, Registry.declarations]
    · simpa [Registry.names] using h.places.insert known

theorem commit (h : t.Keeps r) (vs : List (Variable α)) : (t.commit vs).Keeps (r.insertAll vs) := by
  induction vs generalizing t r with
  | nil => exact h
  | cons v vs ih => exact ih (h.register v)

theorem enter (h : t.Keeps r) (vs : List (Variable α)) : (t.enter vs).Keeps (r.insertAll vs) := by
  rw [← r.insertAll_filter (fun v => !t.places.contains v.name) vs]
  · exact h.commit _
  · intro v _ known
    exact h.places.contains_iff.mp (by simpa using known)

theorem enterAll (h : t.Keeps r) (cs : List (Constraint α)) :
    (t.enterAll cs).Keeps (r.insertAll (cs.flatMap Constraint.occurrences)) := by
  induction cs generalizing t r with
  | nil => exact h
  | cons c cs ih =>
    rw [List.flatMap_cons, Registry.insertAll, List.foldl_append]
    exact ih (h.enter c.occurrences)

/-- Other variables in use under the same names. -/
theorem recast (h : t.Keeps r) {f : Registration α → Variable α} {current : List (Variable α)}
    (changed : current = r.entries.map f) : Keeps { t with current } (r.recast f) := by
  refine ⟨?_, h.declared.trans (r.declarations_recast f).symm, (r.names_recast f).symm ▸ h.places⟩
  rw [changed, Registry.toList, Registry.recast, List.map_map]
  rfl

theorem renew (h : t.Keeps r) (f : Variable α → Variable α) : (t.renew f).Keeps (r.mapCurrent f) := by
  refine h.recast (f := fun e => f e.current) ?_
  rw [h.current, Registry.toList, List.map_map]
  rfl

/-- The one place of a name is changed where the registry changes every entry of that name. -/
theorem revise (h : t.Keeps r) (name : String) (f : Variable α → Variable α) :
    (t.revise name f).Keeps (r.revise name f) := by
  unfold Tables.revise
  cases found : t.places[name]? with
  | none =>
    have unknown : r.get? name = none := Registry.get?_eq_none_iff.mpr (h.places.none_iff.mp found)
    rwa [Registry.revise, unknown]
  | some place =>
    obtain ⟨e, here, named⟩ := h.entry found
    have leads : r.get? name = some e.current := by
      rw [Registry.get?, h.find?_eq, found, Option.bind_some, here, Option.map_some]
    rw [Registry.revise_found leads, Registry.replace_eq_recast]
    refine h.recast (List.ext_getElem? fun j => ?_)
    rw [List.getElem?_modify, h.current, Registry.toList, List.getElem?_map, List.getElem?_map]
    by_cases same : place = j
    · subst same
      simp [here, named]
    · cases there : r.entries[j]? with
      | none => rfl
      | some other =>
        have elsewhere : other.declared.name ≠ name := by
          intro again
          have second : r.names[j]? = some name := by simp [Registry.names, there, again]
          exact same (h.places.place_unique ((h.places name place).mp found) second)
        simp [same, elsewhere]

section Staging

variable {w : Waiting α}

theorem declaration?_eq (h : t.Keeps r) (waits : Indexes w.places (w.staged.map (·.name))) (name : String) :
    t.declaration? w name = r.declaration? w.staged name := by
  rw [Tables.declaration?, Registry.declaration?, h.find?_eq, h.declared]
  cases found : t.places[name]? with
  | none => exact (waits.find?_eq name).symm
  | some place =>
    obtain ⟨e, here, -⟩ := h.entry found
    simp [Registry.declarations, here]

variable [Scalar α]

/-- One variable is judged as the registry judges it, and the map follows when it is staged. -/
theorem stageOne_alike (h : t.Keeps r) (waits : Indexes w.places (w.staged.map (·.name))) (v : Variable α) :
    (t.stageOne w v).map (·.staged) = r.stageOne w.staged v ∧
      ∀ w', t.stageOne w v = .ok w' → Indexes w'.places (w'.staged.map (·.name)) := by
  rw [stageOne, Registry.stageOne, h.declaration?_eq waits]
  cases known : r.declaration? w.staged v.name with
  | some declared =>
    dsimp only
    cases declared.checkRedefinition v with
    | error refusal =>
      refine ⟨rfl, fun w' refused => ?_⟩
      cases refused
    | ok u =>
      refine ⟨rfl, fun w' kept => ?_⟩
      rwa [← Except.ok.inj kept]
  | none =>
    refine ⟨rfl, fun w' added => ?_⟩
    have new : v.name ∉ w.staged.map (·.name) := by
      rw [Registry.declaration?_eq, firstOf?_append, Option.or_eq_none_iff] at known
      simpa [firstOf?] using known.2
    obtain rfl := Except.ok.inj added
    simpa using waits.insert new

theorem stage_eq (h : t.Keeps r) (incoming : List (Variable α)) : t.stage incoming = r.stage incoming :=
  foldlM_alike (P := fun w => Indexes w.places (w.staged.map (·.name)))
    (fun _ v waits => h.stageOne_alike waits v) incoming .empty

end Staging

end Keeps

end Tables

end Registry

section Rows

namespace Row

variable {α : Type} [Scalar α]

/-- Where the column is found its coefficient grows, and otherwise it comes last. -/
theorem accumulate_eq (coefficients : List (Nat × α)) (column : Nat) (weight : α) :
    accumulate coefficients column weight =
      match (coefficients.map (·.1)).idxOf? column with
      | some place => coefficients.modify place fun c => (c.1, c.2 + weight)
      | none => coefficients ++ [(column, weight)] := by
  induction coefficients with
  | nil => rfl
  | cons c rest ih =>
    obtain ⟨j, w⟩ := c
    rw [accumulate, List.map_cons, List.idxOf?_cons]
    by_cases same : j = column
    · simp [same]
    · rw [if_neg same, if_neg (mt beq_iff_eq.mp same), ih]
      cases (rest.map (·.1)).idxOf? column <;> rfl

namespace Tally

variable {tally : Tally α} {columns : Std.HashMap String Nat} {names : List String}

theorem add_alike (h : Indexes tally.places (tally.coefficients.map (·.1))) (column : Nat) (weight : α) :
    (tally.add column weight).coefficients = accumulate tally.coefficients column weight ∧
      Indexes (tally.add column weight).places ((tally.add column weight).coefficients.map (·.1)) := by
  have sums : (tally.add column weight).coefficients = accumulate tally.coefficients column weight := by
    rw [accumulate_eq, h.idxOf?_eq, add]
    cases tally.places[column]? <;> rfl
  refine ⟨sums, ?_⟩
  rw [sums, keys_accumulate, add]
  cases found : tally.places[column]? with
  | none =>
    have new := h.none_iff.mp found
    rw [if_neg new]
    simpa using h.insert new
  | some place =>
    rw [if_pos (List.mem_of_getElem? ((h column place).mp found))]
    exact h

theorem addTerm_alike (named : Indexes columns names) (h : Indexes tally.places (tally.coefficients.map (·.1)))
    (t : Term α) : (addTerm columns tally t).map (·.coefficients) = Row.addTerm names tally.coefficients t ∧
      ∀ next, addTerm columns tally t = .ok next → Indexes next.places (next.coefficients.map (·.1)) := by
  rw [addTerm, Row.addTerm]
  cases t.monomial with
  | product v w =>
    refine ⟨rfl, fun next refused => ?_⟩
    cases refused
  | single v =>
    dsimp only
    rw [named.idxOf?_eq]
    cases columns[v.name]? with
    | none =>
      refine ⟨rfl, fun next refused => ?_⟩
      cases refused
    | some column =>
      obtain ⟨sums, indexes⟩ := add_alike h column t.weight
      refine ⟨congrArg Except.ok sums, fun next added => ?_⟩
      rwa [← Except.ok.inj added]

theorem consolidate_eq (named : Indexes columns names) (terms : List (Term α)) :
    consolidate columns terms = Row.consolidate names terms :=
  foldlM_alike (P := fun tally => Indexes tally.places (tally.coefficients.map (·.1)))
    (fun _ t h => addTerm_alike named h t) terms .empty

end Tally

end Row

end Rows

section Runs

variable {α : Type} [Scalar α]

/-- What is left of the tables when an operation was tried. Passes read the problem that the tables are kept for. -/
def Operation.keep (a : Operation α) (p : Problem α) (t : Tables α) : Tables α :=
  match a with
  | change (.intake i) => (t.take i).toOption.getD t
  | change (.globalBounds low high) => t.overrideBounds low high
  | change (.bounds name bounds) => t.changeBounds name bounds
  | change (.value name x) => t.revise name (·.store x)
  | setSense _ | configure _ | remove _ _ => t
  | setValues values => t.renew fun v => v.store (values v.name)
  | substitute pass => t.enterAll (p.produced [pass])
  | lower => t.enterAll (p.produced p.policy.passes)
  | build config => (t.enterAll (p.produced p.policy.passes)).bounded config.bounds

namespace Tables

def keepAll (t : Tables α) (p : Problem α) : List (Operation α) → Tables α
  | [] => t
  | a :: as => keepAll (a.keep p t) (a.perform p) as

/-- The tables after a run. -/
def ofOperations (as : List (Operation α)) : Tables α := keepAll .empty .empty as

namespace Keeps

variable {t : Tables α} {p : Problem α}

theorem take (h : t.Keeps p.registry) (i : Intake α) :
    ((t.take i).toOption.getD t).Keeps ((Change.intake i).outcome p).registry := by
  rw [Change.outcome_eq, Change.apply, Tables.take, h.stage_eq]
  cases i with
  | objective e sense =>
    rw [Intake.apply, Problem.setObjective]
    dsimp only [Intake.occurrences]
    cases p.registry.stage e.occurrences with
    | error refusal => exact h
    | ok staged => exact h.commit staged
  | constraints cs =>
    rw [Intake.apply, Problem.addAll]
    dsimp only [Intake.occurrences, Intake.validate]
    cases (cs.forM Constraint.validate : Except (Refusal α) Unit) with
    | error refusal => exact h
    | ok u =>
      cases p.registry.stage (cs.flatMap Constraint.occurrences) with
      | error refusal => exact h
      | ok staged =>
        have stored := (Problem.push_fold { p with registry := p.registry.insertAll staged, flags := .none } cs).2.1
        exact stored.symm ▸ h.commit staged

theorem bounded (h : t.Keeps p.registry) (bounds : Option (α × α)) :
    (t.bounded bounds).Keeps (p.bounded bounds).registry := by
  cases bounds with
  | none => exact h
  | some b =>
    rw [Tables.bounded, Tables.overrideBounds, Problem.bounded]
    by_cases reversed : b.2 < b.1
    · rwa [if_pos reversed, if_pos reversed]
    · rw [if_neg reversed, if_neg reversed]
      exact h.renew _

theorem change (h : t.Keeps p.registry) (c : Change α) :
    ((Operation.change c).keep p t).Keeps (c.outcome p).registry := by
  cases c with
  | intake i => exact h.take i
  | globalBounds low high =>
    rw [Operation.keep, overrideBounds, Change.outcome_eq, Change.apply, Problem.applyGlobalBounds]
    by_cases reversed : high < low
    · rw [if_pos reversed, if_pos reversed]
      exact h
    · rw [if_neg reversed, if_neg reversed]
      exact h.renew _
  | bounds name bounds =>
    rw [Operation.keep, changeBounds, h.lookup_eq, Change.outcome_eq, Change.apply, Problem.changeBounds?]
    cases found : p.registry.get? name with
    | none =>
      rw [show p.lookup name = none from found]
      exact h
    | some v =>
      rw [show p.lookup name = some v from found]
      dsimp only [Option.map_some, Option.getD_some]
      cases v.changeBounds bounds with
      | error refusal => exact h
      | ok changed =>
        have revised := h.revise name fun _ => changed
        rwa [Registry.revise_found found] at revised
  | value name x =>
    rw [Operation.keep, Change.outcome_eq, Change.apply, Problem.setValue]
    have revised := h.revise name (·.store x)
    cases found : p.registry.get? name with
    | none =>
      rw [show p.lookup name = none from found]
      rwa [Registry.revise, found] at revised
    | some v =>
      rw [show p.lookup name = some v from found]
      rwa [Registry.revise_found found] at revised

theorem perform (h : t.Keeps p.registry) (a : Operation α) : (a.keep p t).Keeps (a.perform p).registry := by
  have passes (passes : List Pass) : (t.enterAll (p.produced passes)).Keeps (p.after passes).registry :=
    p.after_registry passes ▸ h.enterAll _
  have lowered : (t.enterAll (p.produced p.policy.passes)).Keeps p.lower.1.registry := by
    rw [p.lower_after]
    exact passes p.policy.passes
  cases a with
  | change c => exact h.change c
  | setSense | configure => exact h
  | setValues values => exact h.renew _
  | remove kind i => cases kind <;> exact h
  | substitute pass => exact passes [pass]
  | lower => exact lowered
  | build config =>
    rw [Operation.perform, p.assembly_bounded]
    exact lowered.bounded config.bounds

theorem keepAll (as : List (Operation α)) (h : t.Keeps p.registry) :
    (Tables.keepAll t p as).Keeps (Operation.performAll as p).registry := by
  induction as generalizing t p with
  | nil => exact h
  | cons a as ih => exact ih (h.perform a)

end Keeps

/-- The tables of a run answer as its problem does. A registered name leads to the place where it was registered, inside
both lists, any other name leads nowhere, and staging and rows come out as they do by searching. -/
theorem ofOperations_answers (as : List (Operation α)) :
    let t := ofOperations as
    let p := Problem.ofOperations as
    t.current = p.registered ∧ t.declared = p.registry.declarations ∧
    (∀ (name : String) (place : Nat), t.places[name]? = some place ↔ p.registry.names[place]? = some name) ∧
    (∀ (name : String) (place : Nat), t.places[name]? = some place →
      place < t.current.length ∧ place < t.declared.length) ∧
    (∀ name, t.places.contains name = true ↔ name ∈ p.registry.names) ∧
    (∀ name, t.lookup name = p.lookup name) ∧
    (∀ incoming, t.stage incoming = p.registry.stage incoming) ∧
    ∀ terms : List (Term α),
      Row.Tally.consolidate (Row.columnsOf t.current) terms = Row.consolidate p.registry.names terms := by
  intro t p
  have h : t.Keeps p.registry := Keeps.empty.keepAll as
  have consistent : p.registry.Consistent := (reachable_iff_ofOperations.mpr ⟨as, rfl⟩).grounded.registry
  have columns : Indexes (Row.columnsOf t.current) p.registry.names := by
    rw [Row.columnsOf, h.current, Problem.names_registered consistent]
    exact .ofList (Problem.names_registered consistent ▸ consistent.distinct)
  refine ⟨h.current, h.declared, h.places, fun name place found => ?_, fun _ => h.places.contains_iff, h.lookup_eq,
    h.stage_eq, Row.Tally.consolidate_eq columns⟩
  obtain ⟨e, here, -⟩ := h.entry found
  have within := (List.getElem?_eq_some_iff.mp here).1
  constructor
  · simpa [h.current, Registry.toList] using within
  · simpa [h.declared, Registry.declarations] using within

end Tables

end Runs

end MixedInteger
