import MixedInteger.Proofs.Auxiliaries

/-!
What a drawn name depends on. A search looks at the names from its first number on, so the auxiliaries of an earlier
pass, whose numbers are all behind, change nothing for a later one.
-/

namespace MixedInteger

namespace NameSupply

/-- Two supplies go on from one number, and from there on the same names are taken. -/
structure Alike (s t : NameSupply) : Prop where
  next : s.next = t.next
  taken : ∀ (stem : String) (n : Nat), s.next ≤ n → (numbered stem n ∈ s.taken ↔ numbered stem n ∈ t.taken)

namespace Alike

variable {s t u : NameSupply}

theorem refl (s : NameSupply) : s.Alike s := ⟨rfl, fun _ _ _ => Iff.rfl⟩

theorem trans (h : s.Alike t) (h' : t.Alike u) : s.Alike u :=
  ⟨h.next.trans h'.next, fun stem n ahead => (h.taken stem n ahead).trans (h'.taken stem n (h.next ▸ ahead))⟩

/-- Further on they are alike as well. -/
theorem later (h : s.Alike t) {n : Nat} (ahead : s.next ≤ n) :
    Alike { s with next := n } { t with next := n } :=
  ⟨rfl, fun stem m beyond => h.taken stem m (Nat.le_trans ahead beyond)⟩

end Alike

theorem Search.unique {stem : String} {taken : List String} {n rounds rounds' found found' : Nat}
    (h : Search stem taken n rounds found) (h' : Search stem taken n rounds' found') : found = found' := by
  induction h generalizing rounds' with
  | ends free =>
    cases h' with
    | ends => rfl
    | passes used => exact absurd used free
  | passes used _ ih =>
    cases h' with
    | ends free => exact absurd used free
    | passes _ rest => exact ih rest

theorem Search.congr {stem : String} {taken taken' : List String} {n rounds found : Nat}
    (h : Search stem taken n rounds found)
    (same : ∀ m, n ≤ m → (numbered stem m ∈ taken ↔ numbered stem m ∈ taken')) :
    Search stem taken' n rounds found := by
  induction h with
  | ends free => exact .ends fun used => free ((same _ (Nat.le_refl _)).mpr used)
  | passes used _ ih =>
    exact .passes ((same _ (Nat.le_refl _)).mp used) (ih fun m ahead => same m (Nat.le_of_succ_le ahead))

theorem Alike.firstFree {s t : NameSupply} (h : s.Alike t) (stem : String) :
    NameSupply.firstFree stem s.taken s.next = NameSupply.firstFree stem t.taken t.next := by
  obtain ⟨_, -, search⟩ := firstFree_search stem s.taken s.next
  obtain ⟨_, -, search'⟩ := firstFree_search stem t.taken t.next
  rw [← h.next] at search' ⊢
  exact (search.congr (h.taken stem)).unique search'

end NameSupply

namespace Naming

variable {β γ : Type}

/-- Work that answers the same for supplies that are alike and leaves them alike. -/
structure Steady (names : Naming β) : Prop where
  taken : ∀ s, (names s).2.taken = s.taken
  answer : ∀ {s t : NameSupply}, s.Alike t → (names s).1 = (names t).1
  alike : ∀ {s t : NameSupply}, s.Alike t → (names s).2.Alike (names t).2

namespace Steady

theorem fresh (stem : String) : (fresh stem).Steady where
  taken _ := rfl
  answer h := congrArg (NameSupply.numbered stem) (h.firstFree stem)
  alike {s t} h := by
    simp only [Naming.fresh, ← h.firstFree stem]
    exact h.later (Nat.le_succ_of_le (NameSupply.le_firstFree stem s.taken s.next))

theorem pure (b : β) : (Pure.pure b : Naming β).Steady := ⟨fun _ => rfl, fun _ => rfl, id⟩

theorem bind {x : Naming β} {f : β → Naming γ} (hx : x.Steady) (hf : ∀ b, (f b).Steady) : (x >>= f).Steady where
  taken s := ((hf (x s).1).taken (x s).2).trans (hx.taken s)
  answer {s t} h := by
    change (f (x s).1 (x s).2).1 = (f (x t).1 (x t).2).1
    rw [hx.answer h]
    exact (hf _).answer (hx.alike h)
  alike {s t} h := by
    change (f (x s).1 (x s).2).2.Alike (f (x t).1 (x t).2).2
    rw [hx.answer h]
    exact (hf _).alike (hx.alike h)

theorem map {x : Naming β} (hx : x.Steady) (f : β → γ) : (f <$> x).Steady :=
  hx.bind fun b => .pure (f b)

theorem mapM {f : β → Naming γ} (hf : ∀ b, (f b).Steady) (bs : List β) : (bs.mapM f).Steady := by
  induction bs with
  | nil => exact .pure []
  | cons b bs ih =>
    rw [List.mapM_cons]
    exact (hf b).bind fun c => ih.bind fun cs => .pure (c :: cs)

end Steady

end Naming

variable {α : Type} [Scalar α]

theorem Comparison.lower_steady (c : Comparison α) (bigM : α) : Naming.Steady (c.lower bigM) := by
  unfold lower
  cases c.relation with
  | le | eq | ge | lt | gt => exact .pure _
  | ne => exact ((Naming.Steady.fresh _).map _).bind fun _ => ((Naming.Steady.fresh _).map _).bind fun _ => .pure _

theorem Disjunction.lower_steady (d : Disjunction α) (bigM : α) : Naming.Steady (d.lower bigM) := by
  have drawn (stem : String) {β : Type} (make : String → β) : (make <$> Naming.fresh stem).Steady :=
    (Naming.Steady.fresh stem).map make
  have alternative (a : Alternative α) : Naming.Steady (d.lowerAlternative bigM a) := by
    unfold lowerAlternative
    split
    · exact (drawn _ _).bind fun _ => (drawn _ _).bind fun _ => (drawn _ _).bind fun _ => .pure _
    · exact (drawn _ _).bind fun _ => (drawn _ _).bind fun _ => (drawn _ _).bind fun _ =>
        (drawn _ _).bind fun _ => .pure _
  exact (Naming.Steady.mapM alternative _).bind fun _ => .pure _

theorem Sos1.lower_steady (s : Sos1 α) : Naming.Steady s.lower :=
  (Naming.Steady.mapM (fun _ => (Naming.Steady.fresh _).map _) _).bind fun _ => .pure _

namespace Problem

/-- Where a problem draws names from. -/
def supply (p : Problem α) : NameSupply := ⟨p.registry.names, p.nextAuxiliary⟩

omit [Scalar α] in
theorem draw_supply (p : Problem α) {β : Type} (names : Naming β) :
    p.draw names = ((names p.supply).1, (names p.supply).2.next) := rfl

/-- The auxiliaries that a pass registered are behind the number that it left. -/
theorem Grounded.supply_alike {p : Problem α} (h : p.Grounded) (pass : Pass) :
    (p.substitute pass).1.supply.Alike ⟨p.registry.names, (p.substitute pass).1.nextAuxiliary⟩ := by
  obtain ⟨kept, ws, passed⟩ := p.substitute_passed pass
  obtain ⟨news, entries, auxiliary⟩ := passed.new_entries h
  refine ⟨rfl, fun stem n ahead => ?_⟩
  change NameSupply.numbered stem n ∈ (p.substitute pass).1.registry.names ↔ _
  rw [Registry.names, entries, List.map_append, List.map_map, List.mem_append]
  refine or_iff_left fun among => ?_
  obtain ⟨v, hv, named⟩ := List.mem_map.mp among
  obtain ⟨stem', m, numbered, behind⟩ := passed.drawn.numbered_lt v (auxiliary v hv)
  have same : n = m := NameSupply.numbered_number (named.symm.trans numbered)
  change (p.substitute pass).1.nextAuxiliary ≤ n at ahead
  change m < (p.substitute pass).1.nextAuxiliary at behind
  omega

/-- Work that answers from a supply like the problem's answers so from the problem's own, and a pass that draws as that
work does goes on where it stopped. -/
theorem Grounded.supply_drawn {p : Problem α} (h : p.Grounded) (pass : Pass) {β : Type} {names : Naming β}
    (steady : names.Steady) (next : (p.substitute pass).1.nextAuxiliary = (names p.supply).2.next)
    {s t : NameSupply} {b : β} (alike : p.supply.Alike s) (drawing : names s = (b, t)) :
    (names p.supply).1 = b ∧ (p.substitute pass).1.supply.Alike t := by
  have drawn : (names p.supply).2 = ⟨p.registry.names, (p.substitute pass).1.nextAuxiliary⟩ := by
    rw [next, ← show (names p.supply).2.taken = p.registry.names from steady.taken p.supply]
  have answer := steady.answer alike
  have onward := (h.supply_alike pass).trans (drawn ▸ steady.alike alike)
  rw [drawing] at answer onward
  exact ⟨answer, onward⟩

end Problem
end MixedInteger
