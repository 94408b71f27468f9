import MixedInteger.Constraint
import MixedInteger.NameSupply

/-!
Sets lowered to rows with one switch for each position: a member reaches its bound only when its switch is on,
and at most one switch is on.
-/

namespace MixedInteger.Sos1

variable {α : Type} [Scalar α] {σ : Type} [NameSource σ]

/-- With the switch off the member is zero. -/
def switchedRows (s : Sos1 α) (member switch : Variable α) : List (Comparison α) :=
  [ .ofLinear [.single 1 member, .single (-s.bound) switch] .le 0 s.margin,
    .ofLinear [.single 1 member, .single s.bound switch] .ge 0 s.margin ]

def rows (s : Sos1 α) (switches : List (Variable α)) : List (Comparison α) :=
  (s.members.zip switches).flatMap (fun (member, switch) => s.switchedRows member switch) ++
    [.ofLinear (switches.map (.single 1)) .le 1 s.margin]

def lower (s : Sos1 α) : StateM σ (List (Comparison α)) := do
  let switches ← s.members.mapM fun _ => NameSource.freshBinary "sos_binary"
  return s.rows switches

end MixedInteger.Sos1
