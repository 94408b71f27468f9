import MixedInteger.Proofs.DeclaredDegree
import MixedInteger.Proofs.Expansion

/-!
Operators denote arithmetic. A formula is a tree of operators over variables, terms, expressions and numbers. What the
operators make of it has the value of the formula at every point, and is quadratic just when something quadratic
enters.
-/

namespace MixedInteger

theorem Degree.ne_linear {d : Degree} : d ≠ .linear ↔ d = .quadratic := by
  cases d <;> simp

/-- What may bring a quadratic part into a formula. -/
inductive Entry (α : Type) where
  | product (v w : Variable α)
  | term (t : Term α)
  | expression (e : Expression α)

def Entry.degree {α : Type} : Entry α → Degree
  | product _ _ => .quadratic
  | term t => t.degree
  | expression e => e.degree

namespace Entry

variable {α : Type} {d d' : Degree} {entries more : List (Entry α)}

theorem join_linear_iff (h : d = .linear ↔ ∀ x ∈ entries, x.degree = .linear)
    (h' : d' = .linear ↔ ∀ x ∈ more, x.degree = .linear) :
    d.join d' = .linear ↔ ∀ x ∈ entries ++ more, x.degree = .linear := by
  rw [Degree.join_eq_linear, h, h', List.forall_mem_append]

/-- Linear throughout, or with something quadratic among the entries. -/
theorem quadratic_iff (h : d = .linear ↔ ∀ x ∈ entries, x.degree = .linear) :
    d = .quadratic ↔ ∃ x ∈ entries, x.degree = .quadratic := by
  simp only [← Degree.ne_linear, ne_eq, h, not_forall, exists_prop]

end Entry

/-- One constructor for each operator that makes a term. -/
inductive Term.Formula (α : Type) where
  | given (t : Term α)
  | variableTimes (v : Variable α) (weight : α)
  | timesVariable (weight : α) (v : Variable α)
  | product (v w : Variable α)
  | neg (f : Formula α)
  | times (f : Formula α) (factor : α)
  | timesLeft (factor : α) (f : Formula α)

/-- One constructor for each conversion, sum and operator that makes an expression. What the library does not provide,
such as a term less an expression, is no formula. -/
inductive Expression.Formula (α : Type) where
  | given (e : Expression α)
  | ofTerm (t : Term.Formula α)
  | ofTerms (ts : List (Term.Formula α))
  | ofVariable (v : Variable α)
  | sum (fs : List (Formula α))
  | neg (f : Formula α)
  | times (f : Formula α) (weight : α)
  | timesLeft (weight : α) (f : Formula α)
  | add (f g : Formula α)
  | sub (f g : Formula α)
  | addTerm (f : Formula α) (t : Term.Formula α)
  | subTerm (f : Formula α) (t : Term.Formula α)
  | addVariable (f : Formula α) (v : Variable α)
  | subVariable (f : Formula α) (v : Variable α)
  | addNumber (f : Formula α) (c : α)
  | subNumber (f : Formula α) (c : α)
  | termAdd (t : Term.Formula α) (f : Formula α)
  | termAddTerm (t u : Term.Formula α)
  | termSubTerm (t u : Term.Formula α)
  | termAddVariable (t : Term.Formula α) (v : Variable α)
  | termSubVariable (t : Term.Formula α) (v : Variable α)
  | termAddNumber (t : Term.Formula α) (c : α)
  | termSubNumber (t : Term.Formula α) (c : α)
  | variableAddTerm (v : Variable α) (t : Term.Formula α)
  | variableSubTerm (v : Variable α) (t : Term.Formula α)
  | variableAddVariable (v w : Variable α)
  | variableSubVariable (v w : Variable α)

namespace Term.Formula

/-- What the operators make of a formula. -/
def build {α : Type} [Scalar α] : Formula α → Term α
  | given t => t
  | variableTimes v weight => v * weight
  | timesVariable weight v => weight * v
  | product v w => v * w
  | neg f => -f.build
  | times f factor => f.build * factor
  | timesLeft factor f => factor * f.build

/-- Ordinary arithmetic. -/
def value : Formula Rat → Assignment Rat → Rat
  | given t, values => t.eval values
  | variableTimes v weight, values => values v.name * weight
  | timesVariable weight v, values => weight * values v.name
  | product v w, values => values v.name * values w.name
  | neg f, values => -f.value values
  | times f factor, values => f.value values * factor
  | timesLeft factor f, values => factor * f.value values

def total : List (Formula Rat) → Assignment Rat → Rat
  | [], _ => 0
  | f :: fs, values => f.value values + total fs values

def entries {α : Type} : Formula α → List (Entry α)
  | given t => [.term t]
  | variableTimes _ _ | timesVariable _ _ => []
  | product v w => [.product v w]
  | neg f | times f _ | timesLeft _ f => f.entries

end Term.Formula

namespace Expression.Formula

mutual

/-- What the operators make of a formula. -/
def build {α : Type} [Scalar α] : Formula α → Expression α
  | given e => e
  | ofTerm t => .ofTerm t.build
  | ofTerms ts => .ofTerms (ts.map (·.build))
  | ofVariable v => .ofVariable v
  | sum fs => .sumOf (buildAll fs)
  | neg f => -f.build
  | times f weight => f.build * weight
  | timesLeft weight f => weight * f.build
  | add f g => f.build + g.build
  | sub f g => f.build - g.build
  | addTerm f t => f.build + t.build
  | subTerm f t => f.build - t.build
  | addVariable f v => f.build + v
  | subVariable f v => f.build - v
  | addNumber f c => f.build + c
  | subNumber f c => f.build - c
  | termAdd t f => t.build + f.build
  | termAddTerm t u => t.build + u.build
  | termSubTerm t u => t.build - u.build
  | termAddVariable t v => t.build + v
  | termSubVariable t v => t.build - v
  | termAddNumber t c => t.build + c
  | termSubNumber t c => t.build - c
  | variableAddTerm v t => v + t.build
  | variableSubTerm v t => v - t.build
  | variableAddVariable v w => v + w
  | variableSubVariable v w => v - w

def buildAll {α : Type} [Scalar α] : List (Formula α) → List (Expression α)
  | [] => []
  | f :: fs => f.build :: buildAll fs

end

mutual

/-- Ordinary arithmetic. -/
def value : Formula Rat → Assignment Rat → Rat
  | given e, values => e.eval values
  | ofTerm t, values => t.value values
  | ofTerms ts, values => Term.Formula.total ts values
  | ofVariable v, values => values v.name
  | sum fs, values => total fs values
  | neg f, values => -f.value values
  | times f weight, values => f.value values * weight
  | timesLeft weight f, values => weight * f.value values
  | add f g, values => f.value values + g.value values
  | sub f g, values => f.value values - g.value values
  | addTerm f t, values => f.value values + t.value values
  | subTerm f t, values => f.value values - t.value values
  | addVariable f v, values => f.value values + values v.name
  | subVariable f v, values => f.value values - values v.name
  | addNumber f c, values => f.value values + c
  | subNumber f c, values => f.value values - c
  | termAdd t f, values => t.value values + f.value values
  | termAddTerm t u, values => t.value values + u.value values
  | termSubTerm t u, values => t.value values - u.value values
  | termAddVariable t v, values => t.value values + values v.name
  | termSubVariable t v, values => t.value values - values v.name
  | termAddNumber t c, values => t.value values + c
  | termSubNumber t c, values => t.value values - c
  | variableAddTerm v t, values => values v.name + t.value values
  | variableSubTerm v t, values => values v.name - t.value values
  | variableAddVariable v w, values => values v.name + values w.name
  | variableSubVariable v w, values => values v.name - values w.name

def total : List (Formula Rat) → Assignment Rat → Rat
  | [], _ => 0
  | f :: fs, values => f.value values + total fs values

end

mutual

def entries {α : Type} : Formula α → List (Entry α)
  | given e => [.expression e]
  | ofTerm t => t.entries
  | ofTerms ts => ts.flatMap (·.entries)
  | ofVariable _ | variableAddVariable _ _ | variableSubVariable _ _ => []
  | sum fs => allEntries fs
  | neg f | times f _ | timesLeft _ f => f.entries
  | add f g | sub f g => f.entries ++ g.entries
  | addTerm f t | subTerm f t => f.entries ++ t.entries
  | addVariable f _ | subVariable f _ | addNumber f _ | subNumber f _ => f.entries
  | termAdd t f => t.entries ++ f.entries
  | termAddTerm t u | termSubTerm t u => t.entries ++ u.entries
  | termAddVariable t _ | termSubVariable t _ | termAddNumber t _ | termSubNumber t _ => t.entries
  | variableAddTerm _ t | variableSubTerm _ t => t.entries

def allEntries {α : Type} : List (Formula α) → List (Entry α)
  | [] => []
  | f :: fs => f.entries ++ allEntries fs

end

end Expression.Formula

/-- A term with the value of a formula at every point, quadratic just when something quadratic enters. -/
structure Term.Denotes (t : Term Rat) (value : Assignment Rat → Rat) (entries : List (Entry Rat)) : Prop where
  eval : ∀ values, t.eval values = value values
  degree : t.degree = .linear ↔ ∀ x ∈ entries, x.degree = .linear

namespace Term.Denotes

variable {t : Term Rat} {value other : Assignment Rat → Rat} {entries : List (Entry Rat)}

theorem as (h : t.Denotes value entries) (same : ∀ values, value values = other values) :
    t.Denotes other entries :=
  ⟨fun values => (h.eval values).trans (same values), h.degree⟩

theorem single (weight : Rat) (v : Variable Rat) :
    (Term.single weight v).Denotes (fun values => weight * values v.name) [] where
  eval _ := rfl
  degree := by simp [Term.degree, Term.single, Monomial.degree]

theorem product (v w : Variable Rat) :
    (Term.product 1 v w).Denotes (fun values => values v.name * values w.name) [.product v w] where
  eval values := congrArg (· * values w.name) (one_mul _)
  degree := by simp [Term.degree, Term.product, Monomial.degree, Entry.degree]

theorem scale (h : t.Denotes value entries) (factor : Rat) :
    (t.scale factor).Denotes (fun values => factor * value values) entries where
  eval values := by rw [eval_scale, h.eval]
  degree := h.degree

end Term.Denotes

/-- An expression with the value of a formula at every point, quadratic just when something quadratic enters. -/
structure Expression.Denotes (e : Expression Rat) (value : Assignment Rat → Rat) (entries : List (Entry Rat)) :
    Prop where
  eval : ∀ values, e.eval values = value values
  degree : e.degree = .linear ↔ ∀ x ∈ entries, x.degree = .linear

namespace Expression

theorem nestedValues_append (values : Assignment Rat) (ns ms : List (Rat × Expression Rat)) :
    nestedValues values (ns ++ ms) = nestedValues values ns ++ nestedValues values ms := by
  induction ns with
  | nil => rfl
  | cons n ns ih => simp [nestedValues, ih]

namespace Denotes

variable {e f : Expression Rat} {t : Term Rat} {value other : Assignment Rat → Rat} {entries more : List (Entry Rat)}

theorem as (h : e.Denotes value entries) (same : ∀ values, value values = other values) :
    e.Denotes other entries :=
  ⟨fun values => (h.eval values).trans (same values), h.degree⟩

theorem empty : (empty .linear : Expression Rat).Denotes (fun _ => 0) [] where
  eval values := by simp [Expression.empty, Expression.eval, nestedValues, Scalar.sum_rat]
  degree := by simp [Expression.empty]

theorem plusTerm (h : e.Denotes value entries) (ht : t.Denotes other more) :
    (e.plusTerm t).Denotes (fun values => value values + other values) (entries ++ more) where
  eval values := by
    rw [← h.eval, ← ht.eval]
    obtain ⟨degree, terms, constants, nested⟩ := e
    simp only [Expression.plusTerm, Expression.eval, sumTerms_append, sumTerms_cons, sumTerms_nil]
    ring
  degree := Entry.join_linear_iff h.degree ht.degree

theorem plusConstant (h : e.Denotes value entries) (c : Rat) :
    (e.plusConstant c).Denotes (fun values => value values + c) entries where
  eval values := by
    rw [← h.eval]
    obtain ⟨degree, terms, constants, nested⟩ := e
    simp only [Expression.plusConstant, Expression.eval, Scalar.sum_rat, List.sum_append, List.sum_singleton]
    ring
  degree := h.degree

theorem weighted (h : e.Denotes value entries) (weight : Rat) :
    (e.weighted weight).Denotes (fun values => weight * value values) entries where
  eval values := by
    rw [← h.eval]
    simp [Expression.weighted, Expression.eval, nestedValues, Scalar.sum_rat]
  degree := h.degree

theorem plus (h : e.Denotes value entries) (hf : f.Denotes other more) :
    (e.plus f).Denotes (fun values => value values + other values) (entries ++ more) where
  eval values := by
    rw [← h.eval, ← hf.eval]
    obtain ⟨degree, terms, constants, nested⟩ := e
    simp only [Expression.plus, Expression.eval, nestedValues_append, nestedValues, Scalar.sum_rat, List.sum_append,
      List.sum_singleton]
    ring
  degree := Entry.join_linear_iff h.degree hf.degree

theorem ofTerm (ht : t.Denotes value entries) : (ofTerm t).Denotes value entries :=
  (empty.plusTerm ht).as fun _ => zero_add _

theorem minus (h : e.Denotes value entries) (hf : f.Denotes other more) :
    (e.minus f).Denotes (fun values => value values - other values) (entries ++ more) :=
  (h.plus (hf.weighted (-1))).as fun _ => by rw [neg_one_mul, ← sub_eq_add_neg]

theorem minusTerm (h : e.Denotes value entries) (ht : t.Denotes other more) :
    (e.minusTerm t).Denotes (fun values => value values - other values) (entries ++ more) :=
  (h.plusTerm (ht.scale (-1))).as fun _ => by rw [neg_one_mul, ← sub_eq_add_neg]

theorem minusConstant (h : e.Denotes value entries) (c : Rat) :
    (e.minusConstant c).Denotes (fun values => value values - c) entries :=
  (h.plusConstant (-c)).as fun _ => (sub_eq_add_neg _ _).symm

/-- A variable brings nothing quadratic. -/
theorem plusSingle (h : e.Denotes value entries) (weight : Rat) (v : Variable Rat) :
    (e.plusTerm (.single weight v)).Denotes (fun values => value values + weight * values v.name) entries := by
  simpa using h.plusTerm (.single weight v)

theorem plusVariable (h : e.Denotes value entries) (v : Variable Rat) :
    (e.plusVariable v).Denotes (fun values => value values + values v.name) entries :=
  (h.plusSingle 1 v).as fun _ => by rw [one_mul]

theorem minusVariable (h : e.Denotes value entries) (v : Variable Rat) :
    (e.minusVariable v).Denotes (fun values => value values - values v.name) entries :=
  (h.plusSingle (-1) v).as fun _ => by rw [neg_one_mul, ← sub_eq_add_neg]

theorem ofVariable (v : Variable Rat) : (ofVariable v).Denotes (fun values => values v.name) [] :=
  (ofTerm (.single 1 v)).as fun _ => one_mul _

end Denotes
end Expression

theorem Term.Formula.denotes (f : Formula Rat) : f.build.Denotes f.value f.entries := by
  induction f with
  | given t => exact ⟨fun _ => rfl, by simp [build, entries, Entry.degree]⟩
  | variableTimes v weight => exact (Denotes.single weight v).as fun _ => mul_comm _ _
  | timesVariable weight v => exact .single weight v
  | product v w => exact .product v w
  | neg f ih => exact (ih.scale (-1)).as fun _ => neg_one_mul _
  | times f factor ih => exact (ih.scale factor).as fun _ => mul_comm _ _
  | timesLeft factor f ih => exact ih.scale factor

namespace Expression.Formula

/-- Terms are added one after the other. -/
theorem ofTerms_denotes (ts : List (Term.Formula Rat)) {e : Expression Rat} {value : Assignment Rat → Rat}
    {entries : List (Entry Rat)} (h : e.Denotes value entries) :
    ((ts.map (·.build)).foldl plusTerm e).Denotes (fun values => value values + Term.Formula.total ts values)
      (entries ++ ts.flatMap (·.entries)) := by
  induction ts generalizing e value entries with
  | nil =>
    rw [List.flatMap_nil, List.append_nil]
    exact h.as fun _ => (add_zero _).symm
  | cons t ts ih =>
    have rest := ih (h.plusTerm t.denotes)
    rw [List.append_assoc] at rest
    exact rest.as fun values => by rw [Term.Formula.total, add_assoc]

mutual

/-- One case for each operator, by what it does to values and degrees. -/
theorem denotes : ∀ f : Formula Rat, f.build.Denotes f.value f.entries
  | given e => ⟨fun _ => rfl, by simp [build, entries, Entry.degree]⟩
  | ofTerm t => .ofTerm t.denotes
  | ofTerms ts => (ofTerms_denotes ts .empty).as fun _ => zero_add _
  | ofVariable v => .ofVariable v
  | sum fs => (sum_denotes fs .empty).as fun _ => zero_add _
  | neg f => (f.denotes.weighted (-1)).as fun _ => neg_one_mul _
  | times f weight => (f.denotes.weighted weight).as fun _ => mul_comm _ _
  | timesLeft weight f => f.denotes.weighted weight
  | add f g => f.denotes.plus g.denotes
  | sub f g => f.denotes.minus g.denotes
  | addTerm f t => f.denotes.plusTerm t.denotes
  | subTerm f t => f.denotes.minusTerm t.denotes
  | addVariable f v => f.denotes.plusVariable v
  | subVariable f v => f.denotes.minusVariable v
  | addNumber f c => f.denotes.plusConstant c
  | subNumber f c => f.denotes.minusConstant c
  | termAdd t f => (Denotes.ofTerm t.denotes).plus f.denotes
  | termAddTerm t u => (Denotes.ofTerm t.denotes).plusTerm u.denotes
  | termSubTerm t u => (Denotes.ofTerm t.denotes).minusTerm u.denotes
  | termAddVariable t v => (Denotes.ofTerm t.denotes).plusVariable v
  | termSubVariable t v => (Denotes.ofTerm t.denotes).minusVariable v
  | termAddNumber t c => (Denotes.ofTerm t.denotes).plusConstant c
  | termSubNumber t c => (Denotes.ofTerm t.denotes).minusConstant c
  | variableAddTerm v t => (Denotes.ofVariable v).plusTerm t.denotes
  | variableSubTerm v t => (Denotes.ofVariable v).minusTerm t.denotes
  | variableAddVariable v w => (Denotes.ofVariable v).plusVariable w
  | variableSubVariable v w => (Denotes.ofVariable v).minusVariable w

/-- Expressions are added one after the other, each as an inner one. -/
theorem sum_denotes : ∀ (fs : List (Formula Rat)) {e : Expression Rat} {value : Assignment Rat → Rat}
    {entries : List (Entry Rat)}, e.Denotes value entries →
      ((buildAll fs).foldl plus e).Denotes (fun values => value values + total fs values) (entries ++ allEntries fs)
  | [], _, _, _, h => by
    rw [allEntries, List.append_nil]
    exact h.as fun _ => (add_zero _).symm
  | f :: fs, _, _, _, h => by
    have rest := sum_denotes fs (h.plus f.denotes)
    rw [List.append_assoc] at rest
    exact rest.as fun values => by rw [total, add_assoc]

end

end Expression.Formula

/-- Whatever is built with operators has the value that ordinary arithmetic gives the formula, and is quadratic exactly
when a product, a quadratic term or a quadratic expression enters it. -/
theorem Expression.formulas_denote :
    (∀ f : Term.Formula Rat, (∀ values, f.build.eval values = f.value values) ∧
      (f.build.degree = .quadratic ↔ ∃ x ∈ f.entries, x.degree = .quadratic)) ∧
    ∀ f : Expression.Formula Rat, (∀ values, f.build.eval values = f.value values) ∧
      (f.build.degree = .quadratic ↔ ∃ x ∈ f.entries, x.degree = .quadratic) := by
  constructor
  · intro f
    exact ⟨f.denotes.eval, Entry.quadratic_iff f.denotes.degree⟩
  · intro f
    exact ⟨f.denotes.eval, Entry.quadratic_iff f.denotes.degree⟩

end MixedInteger
