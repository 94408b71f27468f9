import Mathlib.Data.List.Forall2
import MixedInteger.NameSupply

/-!
What a computation draws: names that differ from each other and from every name taken before.
-/

namespace MixedInteger

namespace NameSupply

theorem mark_not_mem_repr (n : Nat) : '#' ∉ n.repr.toList := by
  intro h
  have digit : '#'.isDigit := by
    refine Nat.isDigit_of_mem_toDigits (b := 10) (n := n) (by decide) (by decide) ?_
    simpa only [Nat.repr, String.toList_ofList] using h
  exact absurd digit (by decide)

/-- What follows the last mark of a numbered name is its number. -/
theorem numbered_suffix (stem : String) (n : Nat) :
    (numbered stem n).toList.reverse.takeWhile (· != '#') = n.repr.toList.reverse := by
  have digits : ∀ c ∈ n.repr.toList.reverse, (c != '#') = true := by
    intro c hc
    rw [bne_iff_ne]
    rintro rfl
    exact mark_not_mem_repr n (List.mem_reverse.mp hc)
  have mark : "#".toList = ['#'] := rfl
  rw [numbered, String.toList_append, String.toList_append, mark, List.reverse_append,
    List.takeWhile_append_of_pos digits]
  simp

/-- Two names of one number only: it does not matter which stems were used. -/
theorem numbered_number {stem stem' : String} {m n : Nat}
    (h : numbered stem m = numbered stem' n) : m = n := by
  have suffixes := numbered_suffix stem m
  rw [h, numbered_suffix, List.reverse_inj, String.toList_inj] at suffixes
  exact (repr_injective suffixes).symm

end NameSupply

variable {α β γ δ κ σ : Type}

/-- The variables were named one after the other, each with the next name drawn. -/
inductive Draws : NameSupply → List (Variable α) → NameSupply → Prop where
  | nil (s : NameSupply) : Draws s [] s
  | cons {s t : NameSupply} {v : Variable α} {vs : List (Variable α)} (stem : String)
      (named : v.name = (Naming.fresh stem s).1)
      (rest : Draws (Naming.fresh stem s).2 vs t) : Draws s (v :: vs) t

namespace Draws

theorem append {s t u : NameSupply} {vs ws : List (Variable α)}
    (h : Draws s vs t) (h' : Draws t ws u) : Draws s (vs ++ ws) u := by
  induction h with
  | nil => exact h'
  | cons stem named _ ih => exact .cons stem named (ih h')

theorem taken {s t : NameSupply} {vs : List (Variable α)} (h : Draws s vs t) :
    t.taken = s.taken := by
  induction h with
  | nil => rfl
  | cons stem named _ ih => exact ih

/-- Numbers never go back, so every name carries one that was not used before. -/
theorem numbered {s t : NameSupply} {vs : List (Variable α)} (h : Draws s vs t) :
    ∀ v ∈ vs, v.name ∉ s.taken ∧
      ∃ stem n, v.name = NameSupply.numbered stem n ∧ s.next ≤ n := by
  induction h with
  | nil => simp
  | @cons s t v vs stem named rest ih =>
    intro w hw
    rcases List.mem_cons.mp hw with rfl | hw
    · refine ⟨?_, stem, NameSupply.firstFree stem s.taken s.next, named,
        NameSupply.le_firstFree stem s.taken s.next⟩
      rw [named]
      exact NameSupply.firstFree_not_mem stem s.taken s.next
    · obtain ⟨free, stem', n, hn, hle⟩ := ih w hw
      have := NameSupply.le_firstFree stem s.taken s.next
      exact ⟨free, stem', n, hn, by simp only [Naming.fresh] at hle; omega⟩

theorem free {s t : NameSupply} {vs : List (Variable α)} (h : Draws s vs t) :
    ∀ v ∈ vs, v.name ∉ s.taken :=
  fun v hv => (h.numbered v hv).1

/-- Whoever has a name that is taken does not find it among those drawn. -/
theorem unread {s t : NameSupply} {vs : List (Variable α)} (h : Draws s vs t) {v : Variable α}
    (taken : v.name ∈ s.taken) : v.name ∉ vs.map (·.name) := by
  intro hm
  obtain ⟨u, hu, same⟩ := List.mem_map.mp hm
  exact h.free u hu (same ▸ taken)

theorem nodup {s t : NameSupply} {vs : List (Variable α)} (h : Draws s vs t) :
    (vs.map (·.name)).Nodup := by
  induction h with
  | nil => simp
  | @cons s t v vs stem named rest ih =>
    refine List.nodup_cons.mpr ⟨fun hm => ?_, ih⟩
    obtain ⟨w, hw, he⟩ := List.mem_map.mp hm
    obtain ⟨-, stem', n, hn, hle⟩ := rest.numbered w hw
    have same := NameSupply.numbered_number (named.symm.trans (he.symm.trans hn))
    simp only [Naming.fresh] at hle
    omega

theorem next_le {s t : NameSupply} {vs : List (Variable α)} (h : Draws s vs t) : s.next ≤ t.next := by
  induction h with
  | nil => exact Nat.le_refl _
  | @cons s t v vs stem named rest ih =>
    have := NameSupply.le_firstFree stem s.taken s.next
    simp only [Naming.fresh] at ih
    omega

/-- The numbers given out are behind the supply. -/
theorem numbered_lt {s t : NameSupply} {vs : List (Variable α)} (h : Draws s vs t) :
    ∀ v ∈ vs, ∃ stem n, v.name = NameSupply.numbered stem n ∧ n < t.next := by
  induction h with
  | nil => simp
  | @cons s t v vs stem named rest ih =>
    intro w hw
    rcases List.mem_cons.mp hw with rfl | hw
    · exact ⟨stem, _, named, rest.next_le⟩
    · exact ih w hw

/-- What is drawn later never repeats a name, even if others drew in between. -/
theorem disjoint {s t u w : NameSupply} {vs ws : List (Variable α)} (h : Draws s vs t)
    (later : t.next ≤ u.next) (h' : Draws u ws w) :
    ∀ v ∈ vs, v.name ∉ ws.map (·.name) := by
  intro v hv hm
  obtain ⟨x, hx, same⟩ := List.mem_map.mp hm
  obtain ⟨stem, m, hm, hlt⟩ := h.numbered_lt v hv
  obtain ⟨-, stem', n, hn, hle⟩ := h'.numbered x hx
  have number := NameSupply.numbered_number (hm.symm.trans (same.symm.trans hn))
  omega

end Draws

namespace NameSource

theorem map_run {f : β → γ} {names : StateM σ β} {s t : σ} {b : β} (h : names s = (b, t)) :
    (f <$> names) s = (f b, t) := by
  have run : (f <$> names) s = (f (names s).1, (names s).2) := rfl
  rw [run, h]

theorem mapM_map (f : γ → δ) (names : β → StateM σ γ) (bs : List β) :
    bs.mapM (fun b => f <$> names b) = List.map f <$> bs.mapM names := by
  induction bs with
  | nil => simp
  | cons b bs ih => simp [ih]

/-- Each answer is the answer for its place, at some point of the source. -/
theorem mapM_answers (f : β → StateM σ γ) (bs : List β) (s : σ) :
    List.Forall₂ (fun b c => ∃ t, c = (f b t).1) bs (bs.mapM f s).1 := by
  induction bs generalizing s with
  | nil => exact .nil
  | cons b bs ih =>
    rw [List.mapM_cons]
    exact .cons ⟨s, rfl⟩ (ih (f b s).2)

/-- What every answer tells of its place is told in order. -/
theorem mapM_told {f : β → StateM σ γ} {told : γ → δ} {place : β → δ} (tells : ∀ b t, told (f b t).1 = place b)
    (bs : List β) (s : σ) : (bs.mapM f s).1.map told = bs.map place := by
  induction bs generalizing s with
  | nil => rfl
  | cons b bs ih =>
    rw [List.mapM_cons]
    exact congrArg₂ (· :: ·) (tells b s) (ih (f b s).2)

end NameSource

/-- A computation over a list draws what its steps draw, in order. The witnesses `k` record what each
step did. -/
theorem Naming.mapM_draws (f : β → Naming γ) (wrap : β → δ) (source : κ → δ) (result : κ → γ)
    (drawn : κ → List (Variable α)) (bs : List β)
    (step : ∀ b ∈ bs, ∀ s, ∃ k t, source k = wrap b ∧ f b s = (result k, t) ∧ Draws s (drawn k) t)
    (s : NameSupply) :
    ∃ (ks : List κ) (t : NameSupply), ks.map source = bs.map wrap ∧ bs.mapM f s = (ks.map result, t) ∧
      Draws s (ks.flatMap drawn) t := by
  induction bs generalizing s with
  | nil => exact ⟨[], s, rfl, rfl, .nil s⟩
  | cons b bs ih =>
    obtain ⟨k, t, hk, hf, hd⟩ := step b (by simp) s
    obtain ⟨ks, u, hks, hfs, hds⟩ := ih (fun b hb => step b (by simp [hb])) t
    refine ⟨k :: ks, u, by simp [hk, hks], ?_, hd.append hds⟩
    rw [List.mapM_cons]
    simp only [bind, StateT.bind, hf, hfs]
    rfl

end MixedInteger
