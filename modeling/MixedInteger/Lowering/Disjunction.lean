import MixedInteger.Lowering.Comparison

/-!
Disjunctions lowered to rows with indicators: an indicator is on only where its alternative holds, and at least
one indicator is on. The rows still use strict relations and sets, which later passes lower in turn.
-/

namespace MixedInteger.Disjunction

variable {α : Type} [Scalar α] {σ : Type} [NameSource σ]

/-- The part of a disjunction that one indicator stands for. -/
structure Alternative (α : Type) where
  lhs : List (Term α)
  relation : Relation
  rhs : α

/-- A disjunct is one alternative, save that `≠` is the choice between the two sides. -/
def alternativesOf (c : Comparison α) : List (Alternative α) :=
  match c.relation with
  | .ne => [⟨c.lhs, .gt, c.rhs⟩, ⟨c.lhs, .lt, c.rhs⟩]
  | relation => [⟨c.lhs, relation, c.rhs⟩]

def alternatives (d : Disjunction α) : List (Alternative α) := d.disjuncts.flatMap alternativesOf

def row (d : Disjunction α) (lhs : List (Term α)) (relation : Relation) (rhs : α) : Constraint α :=
  .comparison (.ofLinear lhs relation rhs d.margin)

def exclusive (d : Disjunction α) (bigM : α) (members : List (Variable α)) : Constraint α :=
  .sos1 { Sos1.ofMembers members with bound := bigM, margin := d.margin }

/-- Sign with which a slack makes up for a violation. -/
def slackSign : Relation → α
  | .ge | .gt => 1
  | _ => -1

/-- Exactly one of `on` and `off` is one. The alternative is relaxed by `phi` and its complement by `psi`;
the indicator of each side excludes the slack of that side, and one of the two is away from zero. -/
def inequalityRows (d : Disjunction α) (bigM : α) (a : Alternative α)
    (on off phi psi : Variable α) : List (Constraint α) :=
  let sign := slackSign a.relation
  let gap := Scalar.two * d.margin
  [ d.row [.single 1 on, .single 1 off] .eq 1,
    d.row (Comparison.plusAuxiliary a.lhs sign phi) a.relation a.rhs,
    d.row (Comparison.plusAuxiliary a.lhs (-sign) psi) a.relation.complement a.rhs,
    d.row [.single 1 phi, .single 1 on] .ge gap,
    d.row [.single 1 psi, .single 1 off] .ge gap,
    d.exclusive bigM [phi, on],
    d.exclusive bigM [psi, off] ]

/-- The slacks make up for a violation on either side; at most one of them and the indicator is away from
zero, and one of the three is. -/
def equalityRows (d : Disjunction α) (bigM : α) (a : Alternative α)
    (on phi psi : Variable α) : List (Constraint α) :=
  [ d.row (Comparison.plusAuxiliary a.lhs 1 phi) .ge a.rhs,
    d.row (Comparison.plusAuxiliary a.lhs (-1) psi) .le a.rhs,
    d.row [.single 1 phi, .single 1 psi, .single 1 on] .gt d.margin,
    d.exclusive bigM [phi, psi, on] ]

/-- The indicator of an alternative and the rows that tie it. -/
def lowerAlternative (d : Disjunction α) (bigM : α) (a : Alternative α) :
    StateM σ (Variable α × List (Constraint α)) :=
  match a.relation with
  | .eq => do
    let on ← NameSource.freshBinary "or_s"
    let phi ← NameSource.freshSlack "or_phi" bigM
    let psi ← NameSource.freshSlack "or_phi_prime" bigM
    return (on, d.equalityRows bigM a on phi psi)
  | _ => do
    let on ← NameSource.freshBinary "or_s"
    let off ← NameSource.freshBinary "or_s_prime"
    let phi ← NameSource.freshSlack "or_phi" bigM
    let psi ← NameSource.freshSlack "or_phi_prime" bigM
    return (on, d.inequalityRows bigM a on off phi psi)

def lower (d : Disjunction α) (bigM : α) : StateM σ (List (Constraint α)) := do
  let switched ← d.alternatives.mapM (d.lowerAlternative bigM)
  return switched.flatMap (·.2) ++ [d.row (switched.map fun s => .single 1 s.1) .ge 1]

end MixedInteger.Disjunction
