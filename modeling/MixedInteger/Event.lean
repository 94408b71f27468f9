import MixedInteger.Problem
import MixedInteger.Solver.Config

/-!
What the library reports while it works. Operations return their events; nothing is reported by an
operation on a problem that is refused.
-/

namespace MixedInteger

inductive Event (α : Type) where
  | constantObjective
  | passed (pass : Pass) (consumed produced : Nat)
  /-- A set whose weights leave the order open was kept for an engine. -/
  | duplicateWeights (s : Sos1 α)
  | optionIgnored (option : IgnoredOption)
  | modelHanded (p : Problem α)
  | modelBuilt (columns rows : Nat)
  | searched (status : Status)

end MixedInteger
