import MixedInteger.Scalar

/-!
Decision variables. A variable is known by its name; two variables of one name stand for one decision.
-/

namespace MixedInteger

/-- The values a decision may take between its bounds. -/
inductive Domain where
  | binary
  | integer
  | real
  deriving DecidableEq

namespace Domain

def text : Domain → String
  | binary => "binary"
  | integer => "integer"
  | real => "real"

end Domain

/-- A bound remembers whether anyone chose it, so that a global bound replaces only the others. -/
structure Bound (α : Type) where
  value : α
  isDefault : Bool
  deriving BEq

namespace Bound

variable {α : Type}

def chosen (value : α) : Bound α := ⟨value, false⟩

def override (b : Bound α) (value : α) : Bound α := if b.isDefault then chosen value else b

/-- A later declaration may leave the bound open or repeat it. -/
def accepts [BEq α] (declared later : Bound α) : Bool :=
  later.isDefault || later.value == declared.value

end Bound

structure Variable (α : Type) where
  name : String
  domain : Domain
  lower : Bound α
  upper : Bound α
  /-- What the last search wrote back, zero before. -/
  value : α
  deriving BEq

/-- A value for every name. -/
abbrev Assignment (α : Type) := String → α

namespace Variable

variable {α : Type} [Scalar α]

/-- Distance from zero of the bounds that nobody chose. -/
def defaultReach : α := Scalar.ofRat 10000

def binary (name : String) : Variable α := ⟨name, .binary, .chosen 0, .chosen 1, 0⟩

def integer (name : String) : Variable α :=
  ⟨name, .integer, ⟨-defaultReach, true⟩, ⟨defaultReach, true⟩, 0⟩

def real (name : String) : Variable α := { integer name with domain := .real }

def ofDomain (name : String) : Domain → Variable α
  | .binary => binary name
  | .integer => integer name
  | .real => real name

def atLeast (v : Variable α) (bound : α) : Variable α := { v with lower := .chosen bound }

def atMost (v : Variable α) (bound : α) : Variable α := { v with upper := .chosen bound }

def between (v : Variable α) (low high : α) : Variable α := (v.atLeast low).atMost high

/-- Bounds from an interval, an absent end keeping what the variable has. -/
def within (v : Variable α) (low high : Option α) : Variable α :=
  let v := low.elim v v.atLeast
  high.elim v v.atMost

def isIntegral (v : Variable α) : Bool := v.domain != .real

/-- What the domain makes of a value found by a search, which may be a little off an integer. -/
def fit (v : Variable α) (value : α) : α :=
  match v.domain with
  | .binary => if Scalar.round value == 0 then 0 else 1
  | .integer => Scalar.round value
  | .real => value

def store (v : Variable α) (value : α) : Variable α := { v with value := v.fit value }

/-- Replaces the bounds nobody chose. A binary variable has its bounds from its domain. -/
def overrideBounds (v : Variable α) (low high : α) : Variable α :=
  if v.domain = .binary then v
  else { v with lower := v.lower.override low, upper := v.upper.override high }

def eval (v : Variable α) (values : Assignment α) : α := values v.name

end Variable

end MixedInteger
