import MixedInteger.Expression

/-!
Arithmetic on variables, terms and expressions. Operators make new expressions, so they widen the degree
to fit what enters; the checked additions of `MixedInteger.Expression.Addition` refuse instead.
-/

namespace MixedInteger

namespace Expression

variable {α : Type}

def plusTerm (e : Expression α) (t : Term α) : Expression α :=
  { e with degree := e.degree.join t.degree, terms := e.terms ++ [t] }

def plusConstant (e : Expression α) (c : α) : Expression α :=
  { e with constants := e.constants ++ [c] }

/-- The whole expression as the only inner one of a new level. -/
def weighted (e : Expression α) (weight : α) : Expression α := ⟨e.degree, [], [], [(weight, e)]⟩

def ofTerms (terms : List (Term α)) : Expression α := terms.foldl plusTerm (empty .linear)

def ofTerm (t : Term α) : Expression α := (empty .linear).plusTerm t

variable [Scalar α]

def ofVariable (v : Variable α) : Expression α := ofTerm (.single 1 v)

/-- The second expression keeps its own level. -/
def plus (e f : Expression α) : Expression α :=
  { e with degree := e.degree.join f.degree, nested := e.nested ++ [(1, f)] }

def neg (e : Expression α) : Expression α := e.weighted (-1)

def minus (e f : Expression α) : Expression α := e.plus f.neg

def minusTerm (e : Expression α) (t : Term α) : Expression α := e.plusTerm t.neg

def minusConstant (e : Expression α) (c : α) : Expression α := e.plusConstant (-c)

def plusVariable (e : Expression α) (v : Variable α) : Expression α := e.plusTerm (.single 1 v)

def minusVariable (e : Expression α) (v : Variable α) : Expression α := e.plusTerm (.single (-1) v)

def sumOf (es : List (Expression α)) : Expression α := es.foldl plus (empty .linear)

end Expression

section Operators

variable {α : Type} [Scalar α]

instance : HMul (Variable α) α (Term α) := ⟨fun v weight => .single weight v⟩
instance : HMul α (Variable α) (Term α) := ⟨fun weight v => .single weight v⟩
instance : HMul (Variable α) (Variable α) (Term α) := ⟨fun v w => .product 1 v w⟩

instance : Neg (Term α) := ⟨Term.neg⟩
instance : HMul (Term α) α (Term α) := ⟨Term.scale⟩
instance : HMul α (Term α) (Term α) := ⟨fun factor t => t.scale factor⟩

instance : Neg (Expression α) := ⟨Expression.neg⟩
instance : HMul (Expression α) α (Expression α) := ⟨Expression.weighted⟩
instance : HMul α (Expression α) (Expression α) := ⟨fun weight e => e.weighted weight⟩

instance : Add (Expression α) := ⟨Expression.plus⟩
instance : HAdd (Expression α) (Term α) (Expression α) := ⟨Expression.plusTerm⟩
instance : HAdd (Expression α) (Variable α) (Expression α) := ⟨Expression.plusVariable⟩
instance : HAdd (Expression α) α (Expression α) := ⟨Expression.plusConstant⟩

instance : Sub (Expression α) := ⟨Expression.minus⟩
instance : HSub (Expression α) (Term α) (Expression α) := ⟨Expression.minusTerm⟩
instance : HSub (Expression α) (Variable α) (Expression α) := ⟨Expression.minusVariable⟩
instance : HSub (Expression α) α (Expression α) := ⟨Expression.minusConstant⟩

instance : HAdd (Term α) (Expression α) (Expression α) := ⟨fun t e => Expression.ofTerm t + e⟩
instance : HAdd (Term α) (Term α) (Expression α) := ⟨fun t u => Expression.ofTerm t + u⟩
instance : HAdd (Term α) (Variable α) (Expression α) := ⟨fun t v => Expression.ofTerm t + v⟩
instance : HAdd (Term α) α (Expression α) := ⟨fun t c => Expression.ofTerm t + c⟩
instance : HSub (Term α) (Term α) (Expression α) := ⟨fun t u => Expression.ofTerm t - u⟩
instance : HSub (Term α) (Variable α) (Expression α) := ⟨fun t v => Expression.ofTerm t - v⟩
instance : HSub (Term α) α (Expression α) := ⟨fun t c => Expression.ofTerm t - c⟩

instance : HAdd (Variable α) (Term α) (Expression α) := ⟨fun v t => Expression.ofVariable v + t⟩
instance : HAdd (Variable α) (Variable α) (Expression α) := ⟨fun v w => Expression.ofVariable v + w⟩
instance : HSub (Variable α) (Term α) (Expression α) := ⟨fun v t => Expression.ofVariable v - t⟩
instance : HSub (Variable α) (Variable α) (Expression α) := ⟨fun v w => Expression.ofVariable v - w⟩

end Operators

end MixedInteger
