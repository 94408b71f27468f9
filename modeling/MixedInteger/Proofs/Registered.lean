import Mathlib.Data.List.Nodup
import MixedInteger.Proofs.Checks
import MixedInteger.Registry

/-!
What a registry knows, and that it forgets nothing. The variable in use keeps the name and the domain of its
first declaration.
-/

namespace MixedInteger.Registry

variable {α : Type}

/-- A variable of this name and domain is registered. -/
def Knows (r : Registry α) (v : Variable α) : Prop :=
  ∃ w ∈ r.toList, w.name = v.name ∧ w.domain = v.domain

structure Consistent (r : Registry α) : Prop where
  distinct : r.names.Nodup
  named : ∀ e ∈ r.entries, e.current.name = e.declared.name
  domains : ∀ e ∈ r.entries, e.current.domain = e.declared.domain

/-- The later registry has the same names in front, and every variable in use has its name and domain still. -/
structure Grows (r r' : Registry α) : Prop where
  names : r.names <+: r'.names
  knows : ∀ v, r.Knows v → r'.Knows v

theorem Grows.refl (r : Registry α) : Grows r r := ⟨List.prefix_refl _, fun _ h => h⟩

theorem Grows.trans {r s t : Registry α} (h : Grows r s) (h' : Grows s t) : Grows r t :=
  ⟨h.names.trans h'.names, fun v hv => h'.knows v (h.knows v hv)⟩

theorem Knows.mem_names {r : Registry α} (h : r.Consistent) {v : Variable α} (hv : r.Knows v) :
    v.name ∈ r.names := by
  obtain ⟨w, hw, hn, -⟩ := hv
  obtain ⟨e, he, rfl⟩ := List.mem_map.mp hw
  exact hn ▸ h.named e he ▸ List.mem_map.mpr ⟨e, he, rfl⟩

theorem empty_consistent : (empty : Registry α).Consistent :=
  ⟨List.nodup_nil, by simp [empty], by simp [empty]⟩

theorem insert_known {r : Registry α} {v : Variable α} (h : v.name ∈ r.names) : r.insert v = r := by
  have known : (r.find? v.name).isSome :=
    Option.isSome_iff_ne_none.mpr fun hn => find?_eq_none_iff.mp hn h
  simp only [insert, known, ↓reduceIte]

theorem insert_new {r : Registry α} {v : Variable α} (h : v.name ∉ r.names) :
    r.insert v = ⟨r.entries ++ [⟨v, v⟩]⟩ := by
  simp only [insert, find?_eq_none_iff.mpr h, Option.isSome_none, Bool.false_eq_true, ↓reduceIte]

theorem Consistent.insert {r : Registry α} (h : r.Consistent) (v : Variable α) :
    (r.insert v).Consistent := by
  by_cases hv : v.name ∈ r.names
  · rwa [insert_known hv]
  · have names := names_insert r v
    rw [if_neg hv] at names
    refine ⟨?_, ?_, ?_⟩
    · rw [names]
      exact List.nodup_append.mpr ⟨h.distinct, List.nodup_singleton _, by
        rintro n hn m hm rfl
        exact hv (List.mem_singleton.mp hm ▸ hn)⟩
    all_goals
      rw [insert_new hv]
      intro e he
      rcases List.mem_append.mp he with he | he
    · exact h.named e he
    · rw [List.mem_singleton.mp he]
    · exact h.domains e he
    · rw [List.mem_singleton.mp he]

/-- The entries that inserting variables adds: each is a variable under a name that was not there. -/
theorem insertAll_entries (r : Registry α) (vs : List (Variable α)) :
    ∃ news : List (Variable α),
      (r.insertAll vs).entries = r.entries ++ news.map (fun v => ⟨v, v⟩) ∧
      (∀ v ∈ news, v ∈ vs ∧ v.name ∉ r.names) ∧
      (∀ v ∈ vs, v.name ∈ (r.insertAll vs).names) := by
  induction vs generalizing r with
  | nil => exact ⟨[], by simp [insertAll], by simp, by simp⟩
  | cons v vs ih =>
    obtain ⟨news, he, hn, hv⟩ := ih (r.insert v)
    by_cases known : v.name ∈ r.names
    · rw [insert_known known] at he hn hv
      refine ⟨news, ?_, fun w hw => ⟨List.mem_cons_of_mem _ (hn w hw).1, (hn w hw).2⟩, ?_⟩
      all_goals rw [insertAll, List.foldl_cons, insert_known known]
      · exact he
      · intro w hw
        rcases List.mem_cons.mp hw with rfl | hw
        · change _ ∈ (r.insertAll vs).names
          rw [names, he, List.map_append]
          exact List.mem_append_left _ known
        · exact hv w hw
    · rw [insert_new known] at he hn hv
      refine ⟨v :: news, ?_, ?_, ?_⟩
      · rw [insertAll, List.foldl_cons, insert_new known]
        exact he.trans (by simp)
      · intro w hw
        rcases List.mem_cons.mp hw with rfl | hw
        · exact ⟨List.mem_cons_self, known⟩
        · obtain ⟨hm, hf⟩ := hn w hw
          refine ⟨List.mem_cons_of_mem _ hm, fun h => hf ?_⟩
          simp only [names, List.map_append]
          exact List.mem_append_left _ h
      · intro w hw
        rw [insertAll, List.foldl_cons, insert_new known]
        rcases List.mem_cons.mp hw with rfl | hw
        · change _ ∈ (insertAll _ vs).names
          rw [names, he]
          simp
        · exact hv w hw

theorem Consistent.insertAll {r : Registry α} (h : r.Consistent) (vs : List (Variable α)) :
    (r.insertAll vs).Consistent := by
  induction vs generalizing r with
  | nil => exact h
  | cons v vs ih => exact ih (h.insert v)

theorem grows_insertAll (r : Registry α) (vs : List (Variable α)) : Grows r (r.insertAll vs) := by
  obtain ⟨news, he, -, -⟩ := r.insertAll_entries vs
  refine ⟨?_, ?_⟩
  · rw [names, names, he, List.map_append]
    exact List.prefix_append _ _
  · rintro v ⟨w, hw, hv⟩
    refine ⟨w, ?_, hv⟩
    rw [toList, he, List.map_append]
    exact List.mem_append_left _ hw

/-- Variables that enter together are known afterwards, if those of one name share a domain. -/
theorem knows_insertAll {r : Registry α} {vs : List (Variable α)} {v : Variable α} (hv : v ∈ vs)
    (h : r.Knows v ∨ v.name ∉ r.names ∧ ∀ w ∈ vs, w.name = v.name → w.domain = v.domain) :
    (r.insertAll vs).Knows v := by
  rcases h with h | ⟨unknown, alike⟩
  · exact (r.grows_insertAll vs).knows v h
  · obtain ⟨news, he, hn, hall⟩ := r.insertAll_entries vs
    have hm := hall v hv
    rw [names, he, List.map_append, List.mem_append] at hm
    rcases hm with hm | hm
    · exact absurd hm unknown
    · obtain ⟨e, hmem, hname⟩ := List.mem_map.mp hm
      obtain ⟨w, hw, rfl⟩ := List.mem_map.mp hmem
      refine ⟨w, ?_, hname, alike w (hn w hw).1 hname⟩
      rw [toList, he, List.map_append]
      exact List.mem_append_right _ (List.mem_map.mpr ⟨⟨w, w⟩, hmem, rfl⟩)

/-- The same entries with other variables in use. -/
def recast (r : Registry α) (f : Registration α → Variable α) : Registry α :=
  ⟨r.entries.map fun e => { e with current := f e }⟩

theorem names_recast (r : Registry α) (f : Registration α → Variable α) : (r.recast f).names = r.names := by
  simp only [names, recast, List.map_map]
  rfl

theorem recast_recast (r : Registry α) (f g : Registration α → Variable α) :
    (r.recast f).recast g = r.recast fun e => g { e with current := f e } := by
  simp only [recast, List.map_map]
  rfl

theorem replace_eq_recast (r : Registry α) (name : String) (v : Variable α) :
    r.replace name v = r.recast fun e => if e.declared.name == name then v else e.current := by
  refine congrArg Registry.mk (List.map_congr_left fun e _ => ?_)
  by_cases same : e.declared.name == name <;> simp [same]

/-- Where the new entry is not recast, it does not matter when it comes. -/
theorem recast_insert {r : Registry α} {f : Registration α → Variable α} {v : Variable α}
    (spared : v.name ∉ r.names → f ⟨v, v⟩ = v) :
    (r.recast f).insert v = (r.insert v).recast f := by
  by_cases known : v.name ∈ r.names
  · rw [insert_known known, insert_known (by rwa [names_recast])]
  · rw [insert_new known, insert_new (by rwa [names_recast])]
    simp only [recast, List.map_append, List.map_cons, List.map_nil, spared known]

theorem recast_insertAll {r : Registry α} {f : Registration α → Variable α} {vs : List (Variable α)}
    (spared : ∀ v ∈ vs, v.name ∉ r.names → f ⟨v, v⟩ = v) :
    (r.recast f).insertAll vs = (r.insertAll vs).recast f := by
  induction vs generalizing r with
  | nil => rfl
  | cons v vs ih =>
    obtain ⟨now, later⟩ := List.forall_mem_cons.mp spared
    rw [insertAll, List.foldl_cons, recast_insert now]
    refine ih fun w hw new => later w hw fun old => new ?_
    exact (r.grows_insertAll [v]).names.subset old

/-- A change of the variables in use that leaves names and domains alone. -/
theorem Consistent.recast {r : Registry α} (h : r.Consistent) {f : Registration α → Variable α}
    (hf : ∀ e ∈ r.entries, (f e).name = e.current.name ∧ (f e).domain = e.current.domain) :
    (r.recast f).Consistent ∧ Grows r (r.recast f) := by
  have names := r.names_recast f
  refine ⟨⟨names.symm ▸ h.distinct, ?_, ?_⟩, ⟨names.symm ▸ List.prefix_refl _, ?_⟩⟩
  · intro e' he'
    obtain ⟨e, he, rfl⟩ := List.mem_map.mp he'
    exact (hf e he).1.trans (h.named e he)
  · intro e' he'
    obtain ⟨e, he, rfl⟩ := List.mem_map.mp he'
    exact (hf e he).2.trans (h.domains e he)
  · rintro v ⟨w, hw, hname, hdomain⟩
    obtain ⟨e, he, rfl⟩ := List.mem_map.mp hw
    refine ⟨f e, ?_, (hf e he).1.trans hname, (hf e he).2.trans hdomain⟩
    simp only [toList, Registry.recast, List.map_map, List.mem_map, Function.comp_apply]
    exact ⟨e, he, rfl⟩

theorem Consistent.mapCurrent {r : Registry α} (h : r.Consistent) {f : Variable α → Variable α}
    (hf : ∀ v, (f v).name = v.name ∧ (f v).domain = v.domain) :
    (r.mapCurrent f).Consistent ∧ Grows r (r.mapCurrent f) :=
  h.recast (f := fun e => f e.current) fun e _ => hf e.current

/-- What a lookup returns is the one entry of the name. -/
theorem Consistent.get?_eq_some {r : Registry α} (h : r.Consistent) {name : String} {v : Variable α} :
    r.get? name = some v ↔ v ∈ r.toList ∧ v.name = name := by
  simp only [get?, Option.map_eq_some_iff, toList, List.mem_map]
  constructor
  · rintro ⟨e, he, rfl⟩
    have hm := List.mem_of_find?_eq_some he
    have hn := List.find?_some he
    exact ⟨⟨e, hm, rfl⟩, (h.named e hm).trans (by simpa using hn)⟩
  · rintro ⟨⟨e, he, rfl⟩, hn⟩
    refine ⟨e, ?_, rfl⟩
    have hd : e.declared.name = name := (h.named e he).symm.trans hn
    cases hf : r.find? name with
    | none => exact absurd (List.mem_map.mpr ⟨e, he, hd⟩) (find?_eq_none_iff.mp hf)
    | some e' =>
      have hm' := List.mem_of_find?_eq_some hf
      have hn' : e'.declared.name = name := by simpa using List.find?_some hf
      rw [List.inj_on_of_nodup_map h.distinct hm' he (hn'.trans hd.symm)]

theorem get?_eq_none_iff {r : Registry α} {name : String} : r.get? name = none ↔ name ∉ r.names := by
  rw [get?, Option.map_eq_none_iff, find?_eq_none_iff]

theorem Consistent.current_eq {r : Registry α} (h : r.Consistent) {name : String} {v : Variable α}
    (found : r.get? name = some v) {e : Registration α} (he : e ∈ r.entries) (same : e.declared.name = name) :
    e.current = v := by
  have current := h.get?_eq_some.mpr ⟨List.mem_map_of_mem he, (h.named e he).trans same⟩
  exact Option.some.inj (current.symm.trans found)

theorem Consistent.replace {r : Registry α} (h : r.Consistent) {name : String} {v w : Variable α}
    (found : r.get? name = some v) (hw : w.name = v.name ∧ w.domain = v.domain) :
    (r.replace name w).Consistent ∧ Grows r (r.replace name w) := by
  rw [replace_eq_recast]
  refine h.recast fun e he => ?_
  split
  · rename_i same
    rw [h.current_eq found he (beq_iff_eq.mp same)]
    exact hw
  · exact ⟨rfl, rfl⟩

/-- Replacing by name is changing every variable of that name, which is but one. -/
theorem Consistent.replace_eq_mapCurrent {r : Registry α} (h : r.Consistent) {name : String} {v : Variable α}
    (found : r.get? name = some v) (f : Variable α → Variable α) :
    r.replace name (f v) = r.mapCurrent fun w => if w.name = name then f w else w := by
  refine congrArg Registry.mk (List.map_congr_left fun e he => ?_)
  dsimp only
  have named := h.named e he
  by_cases same : e.declared.name = name
  · rw [if_pos (beq_iff_eq.mpr same), if_pos (named.trans same), h.current_eq found he same]
  · rw [if_neg (mt beq_iff_eq.mp same), if_neg (named ▸ same)]

section Staging

/-- What staging keeps true: the staged variables are new and one of a name, and everything seen so far
shares its domain with the declaration that binds its name. -/
structure Staged (r : Registry α) (seen staged : List (Variable α)) : Prop where
  new : ∀ w ∈ staged, w.name ∉ r.names
  distinct : (staged.map (·.name)).Nodup
  bound : ∀ v ∈ seen, (∃ e ∈ r.entries, e.declared.name = v.name ∧ e.declared.domain = v.domain) ∨
    ∃ w ∈ staged, w.name = v.name ∧ w.domain = v.domain

/-- A variable whose name is bound adds nothing. -/
theorem Staged.repeated {r : Registry α} {seen staged : List (Variable α)} {v d : Variable α}
    (h : Staged r seen staged) (found : r.declaration? staged v.name = some d)
    (same : d.domain = v.domain) : Staged r (seen ++ [v]) staged := by
  refine ⟨h.new, h.distinct, fun w hw => ?_⟩
  rcases List.mem_append.mp hw with hw | hw
  · exact h.bound w hw
  · rw [List.mem_singleton.mp hw]
    unfold declaration? at found
    split at found
    · rename_i e hf
      obtain rfl := Option.some.inj found
      exact .inl ⟨e, List.mem_of_find?_eq_some hf, by simpa using List.find?_some hf, same⟩
    · exact .inr ⟨d, List.mem_of_find?_eq_some found, by simpa using List.find?_some found, same⟩

/-- A variable of a new name is staged. -/
theorem Staged.add {r : Registry α} {seen staged : List (Variable α)} {v : Variable α}
    (h : Staged r seen staged) (unknown : v.name ∉ r.names) (other : ∀ w ∈ staged, w.name ≠ v.name) :
    Staged r (seen ++ [v]) (staged ++ [v]) := by
  refine ⟨fun w hw => ?_, ?_, fun w hw => ?_⟩
  · rcases List.mem_append.mp hw with hw | hw
    · exact h.new w hw
    · exact List.mem_singleton.mp hw ▸ unknown
  · rw [List.map_append]
    refine List.nodup_append.mpr ⟨h.distinct, List.nodup_singleton _, ?_⟩
    intro n hn m hm he
    obtain ⟨w, hw, rfl⟩ := List.mem_map.mp hn
    exact other w hw (he.trans (List.mem_singleton.mp hm))
  · rcases List.mem_append.mp hw with hw | hw
    · rcases h.bound w hw with hb | ⟨u, hu, hn⟩
      · exact .inl hb
      · exact .inr ⟨u, List.mem_append_left _ hu, hn⟩
    · rw [List.mem_singleton.mp hw]
      exact .inr ⟨v, by simp, rfl, rfl⟩

variable [Scalar α]

theorem checkRedefinition_domain {declared later : Variable α}
    (h : declared.checkRedefinition later = .ok ()) : declared.domain = later.domain := by
  unfold Variable.checkRedefinition at h
  split at h
  · simp at h
  · rename_i hd
    exact not_not.mp hd

theorem Staged.step {r : Registry α} {seen staged staged' : List (Variable α)} {v : Variable α}
    (h : Staged r seen staged) (hs : r.stageOne staged v = .ok staged') :
    Staged r (seen ++ [v]) staged' := by
  unfold stageOne at hs
  split at hs
  · rename_i d hd
    simp only [bind_eq_ok, pure_eq_ok] at hs
    obtain ⟨_, checked, rfl⟩ := hs
    exact h.repeated hd (checkRedefinition_domain checked)
  · rename_i hd
    obtain rfl := pure_eq_ok.mp hs
    unfold declaration? at hd
    split at hd
    · simp at hd
    · rename_i hf
      exact h.add (find?_eq_none_iff.mp hf) (by simpa using hd)

theorem staged_of_stage {r : Registry α} {incoming staged : List (Variable α)}
    (h : r.stage incoming = .ok staged) : Staged r incoming staged :=
  foldlM_ok h ⟨by simp, by simp, by simp⟩ fun _ _ _ _ staged ok => staged.step ok

/-- Everything that was staged for is known once the staged variables are in. -/
theorem Consistent.knows_staged {r : Registry α} (hr : r.Consistent)
    {incoming staged : List (Variable α)} (h : r.stage incoming = .ok staged) :
    ∀ v ∈ incoming, (r.insertAll staged).Knows v := by
  have hs := staged_of_stage h
  intro v hv
  rcases hs.bound v hv with ⟨e, he, hn, hd⟩ | ⟨w, hw, hn, hd⟩
  · exact (r.grows_insertAll staged).knows v
      ⟨e.current, List.mem_map.mpr ⟨e, he, rfl⟩, (hr.named e he).trans hn, (hr.domains e he).trans hd⟩
  · obtain ⟨u, hu, hun, hud⟩ := knows_insertAll hw (r := r) (.inr ⟨hs.new w hw, fun u hu hun => by
      rw [List.inj_on_of_nodup_map hs.distinct hu hw hun]⟩)
    exact ⟨u, hu, hun.trans hn, hud.trans hd⟩

end Staging

end MixedInteger.Registry
