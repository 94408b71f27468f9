import MixedInteger.Constraint

/-!
Logical links between binary variables lowered to rows: the result is at least each operand and at most
their sum.
-/

namespace MixedInteger.BinaryOr

variable {α : Type} [Scalar α]

def lower (b : BinaryOr α) : List (Comparison α) :=
  b.operands.map (fun v => .ofLinear [.single 1 b.result, .single (-1) v] .ge 0 defaultMargin) ++
    [.ofLinear (.single 1 b.result :: b.operands.map (.single (-1))) .le 0 defaultMargin]

end MixedInteger.BinaryOr
