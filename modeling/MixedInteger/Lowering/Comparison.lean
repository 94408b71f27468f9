import MixedInteger.Constraint
import MixedInteger.NameSupply

/-!
Strict and excluding comparisons lowered to the canonical relations.
-/

namespace MixedInteger.Comparison

variable {α : Type} [Scalar α] {σ : Type} [NameSource σ]

def plusAuxiliary (lhs : List (Term α)) (weight : α) (v : Variable α) : List (Term α) :=
  lhs ++ [.single weight v]

/-- An unnamed comparison of the same degree and margin. -/
def derived (c : Comparison α) (lhs : List (Term α)) (relation : Relation) (rhs : α) : Comparison α :=
  { c with lhs, relation, rhs, label := none }

/-- The side where the left-hand side exceeds the right, or falls short of it, by the margin. The slack of
the other side is what fills the gap; only one of them is away from zero and both together span two
margins. -/
def separation (c : Comparison α) (bigM : α) (above below : Variable α) : List (Constraint α) :=
  [ .comparison (c.derived [.single 1 above, .single 1 below] .ge (Scalar.two * c.margin)),
    .sos1 { Sos1.ofMembers [above, below] with bound := bigM, margin := c.margin },
    .comparison (c.derived (plusAuxiliary c.lhs 1 above) .ge (c.rhs + c.margin)),
    .comparison (c.derived (plusAuxiliary c.lhs (-1) below) .le (c.rhs - c.margin)) ]

/-- Nothing for a canonical comparison. A strict one keeps its name and moves by its margin, and `≠` leaves
a gap of a margin on both sides. -/
def lower (c : Comparison α) (bigM : α) : StateM σ (List (Constraint α)) :=
  match c.relation with
  | .le | .eq | .ge => pure []
  | .lt => pure [.comparison { c with relation := .le, rhs := c.rhs - c.margin }]
  | .gt => pure [.comparison { c with relation := .ge, rhs := c.rhs + c.margin }]
  | .ne => do
    let above ← NameSource.freshSlack "psi" bigM
    let below ← NameSource.freshSlack "psi_prime" bigM
    return c.separation bigM above below

end MixedInteger.Comparison
