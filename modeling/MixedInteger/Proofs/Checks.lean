import Mathlib.Data.List.Forall2

/-!
Checks that succeed. A refusal ends what was begun, so success tells of every step what came of it, and a refusal is
the refusal of a step.
-/

namespace MixedInteger

variable {ε β γ σ τ : Type}

@[simp] theorem throw_ne_ok {e : ε} {b : β} : (throw e : Except ε β) ≠ .ok b := nofun

@[simp] theorem pure_eq_ok {a b : β} : (pure a : Except ε β) = .ok b ↔ a = b := Except.ok.injEq a b ▸ Iff.rfl

/-- One after the other succeeds when the first does and the second does with what came of the first. -/
@[simp] theorem bind_eq_ok {x : Except ε β} {f : β → Except ε γ} {c : γ} :
    (x >>= f) = .ok c ↔ ∃ b, x = .ok b ∧ f b = .ok c := by
  cases x <;> simp [bind, Except.bind]

theorem forM_ok {f : β → Except ε Unit} {xs : List β} :
    xs.forM f = .ok () ↔ ∀ x ∈ xs, f x = .ok () := by
  induction xs with
  | nil => simp
  | cons x xs ih =>
    change (f x >>= fun _ => xs.forM f) = .ok () ↔ _
    rw [bind_eq_ok, List.forall_mem_cons, ih]
    exact ⟨fun ⟨_, first, rest⟩ => ⟨first, rest⟩, fun ⟨first, rest⟩ => ⟨(), first, rest⟩⟩

theorem mapM_ok {f : β → Except ε γ} {xs : List β} {ys : List γ} (h : xs.mapM f = .ok ys) :
    List.Forall₂ (fun x y => f x = .ok y) xs ys := by
  induction xs generalizing ys with
  | nil =>
    cases h
    exact .nil
  | cons x xs ih =>
    rw [List.mapM_cons] at h
    simp only [bind_eq_ok, pure_eq_ok] at h
    obtain ⟨y, hy, rest, hrest, rfl⟩ := h
    exact .cons hy (ih hrest)

/-- What holds of the start and is kept by every step that succeeds holds of what a run hands back. -/
theorem foldlM_ok {f : σ → β → Except ε σ} {P : List β → σ → Prop} {xs : List β} {start last : σ}
    (h : xs.foldlM f start = .ok last) (base : P [] start)
    (step : ∀ seen s x s', P seen s → f s x = .ok s' → P (seen ++ [x]) s') : P xs last := by
  -- The induction is on what is left, for a run that has begun.
  have run : ∀ (xs seen : List β) (s : σ), P seen s → xs.foldlM f s = .ok last → P (seen ++ xs) last := by
    intro xs
    induction xs with
    | nil =>
      intro seen s hs hl
      rw [List.foldlM_nil, pure_eq_ok] at hl
      rwa [List.append_nil, ← hl]
    | cons x xs ih =>
      intro seen s hs hl
      rw [List.foldlM_cons, bind_eq_ok] at hl
      obtain ⟨s', hx, hl⟩ := hl
      simpa using ih (seen ++ [x]) s' (step seen s x s' hs hx) hl
  exact run xs [] start base h

/-- Two runs answer alike if their steps do wherever an invariant of the first one holds. -/
theorem foldlM_alike {f : σ → β → Except ε σ} {g : τ → β → Except ε τ} {read : σ → τ} {P : σ → Prop}
    (step : ∀ s x, P s → (f s x).map read = g (read s) x ∧ ∀ s', f s x = .ok s' → P s')
    (xs : List β) {s : σ} (start : P s) : (xs.foldlM f s).map read = xs.foldlM g (read s) := by
  induction xs generalizing s with
  | nil => rfl
  | cons x xs ih =>
    obtain ⟨alike, kept⟩ := step s x start
    rw [List.foldlM_cons, List.foldlM_cons, ← alike]
    cases done : f s x with
    | error e => rfl
    | ok s' => exact ih (kept s' done)

theorem bind_eq_error {x : Except ε β} {f : β → Except ε γ} {e : ε} :
    (x >>= f) = .error e ↔ x = .error e ∨ ∃ b, x = .ok b ∧ f b = .error e := by
  cases x <;> simp [bind, Except.bind]

theorem mapError_eq_ok {ε' : Type} {x : Except ε β} {f : ε → ε'} {b : β} : x.mapError f = .ok b ↔ x = .ok b := by
  cases x <;> simp [Except.mapError]

theorem mapError_eq_error {ε' : Type} {x : Except ε β} {f : ε → ε'} {e : ε'} :
    x.mapError f = .error e ↔ ∃ e', x = .error e' ∧ f e' = e := by
  cases x <;> simp [Except.mapError]

theorem forM_error {f : β → Except ε Unit} {xs : List β} {e : ε} (h : xs.forM f = .error e) :
    ∃ x ∈ xs, f x = .error e := by
  induction xs with
  | nil => cases h
  | cons x xs ih =>
    change (f x >>= fun _ => xs.forM f) = .error e at h
    rcases bind_eq_error.mp h with now | ⟨_, -, later⟩
    · exact ⟨x, List.mem_cons_self, now⟩
    · obtain ⟨y, hy, refused⟩ := ih later
      exact ⟨y, List.mem_cons_of_mem x hy, refused⟩

theorem mapM_error {f : β → Except ε γ} {xs : List β} {e : ε} (h : xs.mapM f = .error e) :
    ∃ x ∈ xs, f x = .error e := by
  induction xs with
  | nil => cases h
  | cons x xs ih =>
    rw [List.mapM_cons] at h
    rcases bind_eq_error.mp h with now | ⟨_, -, rest⟩
    · exact ⟨x, List.mem_cons_self, now⟩
    · rcases bind_eq_error.mp rest with later | ⟨_, -, done⟩
      · obtain ⟨y, hy, refused⟩ := ih later
        exact ⟨y, List.mem_cons_of_mem x hy, refused⟩
      · cases done

theorem foldlM_error {f : σ → β → Except ε σ} {xs : List β} {start : σ} {e : ε}
    (h : xs.foldlM f start = .error e) : ∃ x ∈ xs, ∃ s, f s x = .error e := by
  induction xs generalizing start with
  | nil => cases h
  | cons x xs ih =>
    rw [List.foldlM_cons] at h
    rcases bind_eq_error.mp h with now | ⟨s, -, later⟩
    · exact ⟨x, List.mem_cons_self, start, now⟩
    · obtain ⟨y, hy, refused⟩ := ih later
      exact ⟨y, List.mem_cons_of_mem x hy, refused⟩

/-- A list is worked through when each of its members can be. -/
theorem exists_mapM_ok {f : β → Except ε γ} {xs : List β} :
    (∃ ys, xs.mapM f = .ok ys) ↔ ∀ x ∈ xs, ∃ y, f x = .ok y := by
  constructor
  · rintro ⟨ys, done⟩ x hx
    obtain ⟨i, hi, rfl⟩ := List.mem_iff_getElem.mp hx
    have each := mapM_ok done
    exact ⟨_, each.get hi (each.length_eq ▸ hi)⟩
  · intro each
    cases done : xs.mapM f with
    | ok ys => exact ⟨ys, rfl⟩
    | error e =>
      obtain ⟨x, hx, refused⟩ := mapM_error done
      obtain ⟨y, taken⟩ := each x hx
      rw [taken] at refused
      cases refused

end MixedInteger
