import MixedInteger.Variable

/-!
Names for auxiliary variables. They may come from anywhere. A supply numbers auxiliaries across all stems, and passes
over a number where somebody already uses the name.
-/

namespace MixedInteger

/-- A state that names are drawn from. Whether they differ is its own affair. -/
class NameSource (σ : Type) where
  fresh : (stem : String) → StateM σ String

namespace NameSource

variable {σ : Type} [NameSource σ] {α : Type} [Scalar α]

def freshBinary (stem : String) : StateM σ (Variable α) := Variable.binary <$> fresh stem

/-- A slack reaches from zero to the given bound. -/
def freshSlack (stem : String) (bigM : α) : StateM σ (Variable α) :=
  (fun name => (Variable.real name).between 0 bigM) <$> fresh stem

end NameSource

structure NameSupply where
  /-- Names that belong to others. -/
  taken : List String
  /-- The first number not yet tried. -/
  next : Nat

namespace NameSupply

def numbered (stem : String) (n : Nat) : String := stem ++ "#" ++ n.repr

/-- The first number from `n` on whose name is free. A name met once is never met again, so it can be
struck from the list. -/
def firstFree (stem : String) (taken : List String) (n : Nat) : Nat :=
  if _h : numbered stem n ∈ taken then firstFree stem (taken.erase (numbered stem n)) (n + 1) else n
termination_by taken.length
decreasing_by
  have := List.length_pos_of_mem _h
  rw [List.length_erase_of_mem _h]
  omega

theorem repr_injective {m n : Nat} (h : m.repr = n.repr) : m = n := by
  have hd : Nat.toDigits 10 m = Nat.toDigits 10 n := by
    simpa only [Nat.repr, String.ofList_inj] using h
  simpa only [Nat.ofDigitChars_toDigits (by decide : 1 < 10) (Nat.le_refl 10)] using
    congrArg (Nat.ofDigitChars 10 · 0) hd

/-- One stem never makes the same name twice. -/
theorem numbered_inj {stem : String} {m n : Nat} : numbered stem m = numbered stem n ↔ m = n :=
  ⟨fun h => repr_injective ((String.append_right_inj _).mp h), fun h => h ▸ rfl⟩

theorem le_firstFree (stem : String) (taken : List String) (n : Nat) :
    n ≤ firstFree stem taken n := by
  fun_induction firstFree stem taken n with
  | case1 taken n h ih => omega
  | case2 taken n h => exact Nat.le_refl n

theorem firstFree_not_mem (stem : String) (taken : List String) (n : Nat) :
    numbered stem (firstFree stem taken n) ∉ taken := by
  fun_induction firstFree stem taken n with
  | case1 taken n h ih =>
    have later := le_firstFree stem (taken.erase (numbered stem n)) (n + 1)
    have other : numbered stem (firstFree stem (taken.erase (numbered stem n)) (n + 1)) ≠
        numbered stem n := by
      rw [Ne, numbered_inj]
      omega
    rwa [List.mem_erase_of_ne other] at ih
  | case2 taken n h => exact h

end NameSupply

/-- Computations that draw names from a supply. -/
abbrev Naming := StateM NameSupply

def Naming.fresh (stem : String) : Naming String := fun supply =>
  let n := NameSupply.firstFree stem supply.taken supply.next
  (NameSupply.numbered stem n, { supply with next := n + 1 })

instance : NameSource NameSupply := ⟨Naming.fresh⟩

end MixedInteger
