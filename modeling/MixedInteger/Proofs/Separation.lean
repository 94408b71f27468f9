import Mathlib.Algebra.Order.Ring.Abs
import Mathlib.Algebra.Order.Ring.Rat
import Mathlib.Tactic.Linarith
import Mathlib.Tactic.Ring
import MixedInteger.Lowering.Disjunction

/-!
Variables and constraints over the rationals: the values that a variable may take, and constraints held with
the separation that lowering gives to strictness, and with some slack for a search that is not exact.
-/

namespace MixedInteger

namespace Scalar

@[simp] theorem abs_rat (x : Rat) : Scalar.abs x = |x| := by
  change Rat.abs x = |x|
  rw [Rat.abs]
  split
  · rename_i h
    exact (abs_of_nonneg h).symm
  · rename_i h
    exact (abs_of_neg (not_le.mp h)).symm

@[simp] theorem two_rat : (Scalar.two : Rat) = 2 := one_add_one_eq_two

end Scalar

namespace Term

@[simp] theorem eval_single (weight : Rat) (v : Variable Rat) (values : Assignment Rat) :
    (Term.single weight v).eval values = weight * values v.name := rfl

end Term

/-- A value that a binary variable may take. -/
def IsBit (x : Rat) : Prop := x = 0 ∨ x = 1

theorem IsBit.eq_one {x : Rat} (h : IsBit x) (pos : 0 < x) : x = 1 := by
  rcases h with h | h
  · rw [h] at pos
    exact absurd pos (lt_irrefl 0)
  · exact h

theorem IsBit.nonneg {x : Rat} (h : IsBit x) : 0 ≤ x := by
  rcases h with h | h <;> rw [h]
  exact zero_le_one

namespace Variable

/-- What an engine lets a variable be. It knows a binary variable by its domain alone. -/
def Takes (v : Variable Rat) (x : Rat) : Prop :=
  match v.domain with
  | .binary => IsBit x
  | .integer => (∃ n : Int, x = n) ∧ v.lower.value ≤ x ∧ x ≤ v.upper.value
  | .real => v.lower.value ≤ x ∧ x ≤ v.upper.value

/-- A value of the domain, between the bounds. -/
def Allows (v : Variable Rat) (x : Rat) : Prop :=
  v.Takes x ∧ v.lower.value ≤ x ∧ x ≤ v.upper.value

end Variable

/-- Links are read over bits only. -/
def Constraint.LinksBits (values : Assignment Rat) : Constraint Rat → Prop
  | binaryOr b => ∀ v ∈ b.occurrences, IsBit (values v.name)
  | comparison _ | sos1 _ | disjunction _ => True

section Sums

variable {values other : Assignment Rat}

@[simp] theorem sumTerms_nil : sumTerms [] values = (0 : Rat) := rfl

@[simp] theorem sumTerms_cons (t : Term Rat) (ts : List (Term Rat)) :
    sumTerms (t :: ts) values = t.eval values + sumTerms ts values := by
  simp only [sumTerms, Scalar.sum_rat, List.map_cons, List.sum_cons]

@[simp] theorem sumTerms_append (ts us : List (Term Rat)) :
    sumTerms (ts ++ us) values = sumTerms ts values + sumTerms us values := by
  simp only [sumTerms, Scalar.sum_rat, List.map_append, List.sum_append]

/-- A sum only reads the variables that occur in it. -/
theorem sumTerms_congr {ts : List (Term Rat)}
    (h : ∀ v ∈ ts.flatMap Term.occurrences, other v.name = values v.name) :
    sumTerms ts other = sumTerms ts values := by
  have evals : ∀ t ∈ ts, t.eval other = t.eval values := by
    intro t ht
    have read : ∀ v ∈ t.occurrences, other v.name = values v.name := fun v hv =>
      h v (List.mem_flatMap.mpr ⟨t, ht, hv⟩)
    obtain ⟨weight, monomial⟩ := t
    cases monomial with
    | single v => simp only [Term.eval, read v (by simp [Term.occurrences, Monomial.occurrences])]
    | product v w =>
      simp only [Term.eval, read v (by simp [Term.occurrences, Monomial.occurrences]),
        read w (by simp [Term.occurrences, Monomial.occurrences])]
  simp only [sumTerms, List.map_congr_left evals]

/-- A sum of variables of one weight. -/
theorem sumTerms_map_weighted {ι : Type} (weight : Rat) (f : ι → Variable Rat) (items : List ι) :
    sumTerms (items.map fun i => .single weight (f i)) values =
      weight * (items.map fun i => values (f i).name).sum := by
  induction items with
  | nil => simp
  | cons i items ih => simp [ih, mul_add]

theorem sumTerms_map_single (weight : Rat) (vs : List (Variable Rat)) :
    sumTerms (vs.map (.single weight)) values = weight * (vs.map fun v => values v.name).sum :=
  sumTerms_map_weighted weight id vs

end Sums

namespace Relation

/-- The relation of a left-hand side that exceeds the right one by `gap`. Strictness asks for a margin, and
every condition may be missed by the slack. -/
def HoldsApart (r : Relation) (gap margin slack : Rat) : Prop :=
  match r with
  | lt => gap ≤ slack - margin
  | le => gap ≤ slack
  | eq => |gap| ≤ slack
  | ge => -slack ≤ gap
  | gt => margin - slack ≤ gap
  | ne => margin - slack ≤ |gap|

/-- A change of the gap is one of the slack. -/
theorem HoldsApart.shift {r : Relation} {gap margin slack d t : Rat} (h : r.HoldsApart gap margin slack)
    (hd : |d| ≤ t) : r.HoldsApart (gap + d) margin (slack + t) := by
  obtain ⟨low, high⟩ := abs_le.mp hd
  cases r with
  | lt | le | ge | gt =>
    simp only [HoldsApart] at h ⊢
    linarith
  | eq =>
    simp only [HoldsApart] at h ⊢
    linarith [abs_add_le gap d]
  | ne =>
    have split := abs_add_le (gap + d) (-d)
    rw [add_neg_cancel_right, abs_neg] at split
    simp only [HoldsApart] at h ⊢
    linarith

theorem HoldsApart.holds {r : Relation} {lhs rhs margin slack tolerance : Rat}
    (h : r.HoldsApart (lhs - rhs) margin slack) (small : slack ≤ tolerance)
    (apart : r.isCanonical = false → slack + tolerance < margin) :
    r.holds lhs rhs tolerance = true := by
  cases r with
  | le | eq | ge =>
    simp only [HoldsApart] at h
    simp only [Relation.holds, Scalar.abs_rat, decide_eq_true_eq]
    linarith
  | lt | gt | ne =>
    have := apart rfl
    simp only [HoldsApart] at h
    simp only [Relation.holds, Scalar.abs_rat, decide_eq_true_eq]
    linarith

/-- A search decides the canonical relations, which know no margin. -/
theorem holds_iff_apart {r : Relation} (h : r.isCanonical) (lhs rhs margin tolerance : Rat) :
    r.holds lhs rhs tolerance = true ↔ r.HoldsApart (lhs - rhs) margin tolerance := by
  cases r <;> simp [isCanonical, Relation.holds, HoldsApart] at h ⊢

end Relation

namespace Comparison

/-- By how much the left-hand side exceeds the right. -/
def gap (c : Comparison Rat) (values : Assignment Rat) : Rat := c.evalLhs values - c.rhs

/-- The two sides of `≠` are tied by a slack variable, which costs the slack once more. -/
def HoldsApart (c : Comparison Rat) (values : Assignment Rat) (slack : Rat) : Prop :=
  c.relation.HoldsApart (c.gap values) c.margin (if c.relation = .ne then 2 * slack else slack)

theorem holdsApart_iff {c : Comparison Rat} (h : c.relation ≠ .ne) {values : Assignment Rat}
    {slack : Rat} : c.HoldsApart values slack ↔ c.relation.HoldsApart (c.gap values) c.margin slack := by
  rw [HoldsApart, if_neg h]

theorem HoldsApart.isSatisfied {c : Comparison Rat} {values : Assignment Rat} {slack : Rat}
    (h : c.HoldsApart values slack) (hs : 0 ≤ slack)
    (apart : c.relation.isCanonical = false → 4 * slack < c.margin) :
    c.isSatisfied values (2 * slack) = true := by
  unfold HoldsApart at h
  split at h
  · exact h.holds le_rfl fun hc => by linarith [apart hc]
  · exact h.holds (by linarith) fun hc => by linarith [apart hc]

theorem isSatisfied_iff_apart {c : Comparison Rat} (h : c.relation.isCanonical)
    (values : Assignment Rat) (slack : Rat) :
    c.isSatisfied values slack = true ↔ c.HoldsApart values slack := by
  have canonical : c.relation ≠ .ne := by
    intro hn
    rw [hn] at h
    simp [Relation.isCanonical] at h
  rw [holdsApart_iff canonical]
  exact Relation.holds_iff_apart h _ _ _ _

end Comparison

/-- Of any two positions of the set, one is near zero. -/
theorem Sos1.isSatisfied_iff_pairwise {s : Sos1 Rat} {values : Assignment Rat} {slack : Rat} :
    s.isSatisfied values slack = true ↔
      s.members.Pairwise fun v w => |values v.name| ≤ slack ∨ |values w.name| ≤ slack := by
  have count : ∀ vs : List (Variable Rat), vs.countP (fun v => slack < |values v.name|) ≤ 1 ↔
      vs.Pairwise fun v w => |values v.name| ≤ slack ∨ |values w.name| ≤ slack := by
    intro vs
    induction vs with
    | nil => simp
    | cons v vs ih =>
      rw [List.countP_cons, List.pairwise_cons, ← ih]
      by_cases away : slack < |values v.name|
      · have near : vs.countP (fun v => slack < |values v.name|) = 0 ↔
            ∀ w ∈ vs, |values w.name| ≤ slack := by
          simp [List.countP_eq_zero]
        simp only [away, decide_true, ↓reduceIte, not_le.mpr away, false_or, ← near]
        omega
      · simp [away, not_lt.mp away]
  simp only [isSatisfied, Scalar.abs_rat, decide_eq_true_eq]
  exact count s.members

namespace Disjunction

def Alternative.gap (a : Alternative Rat) (values : Assignment Rat) : Rat :=
  sumTerms a.lhs values - a.rhs

/-- An alternative read with the margin of its disjunction. -/
def Alternative.HoldsApart (a : Alternative Rat) (values : Assignment Rat) (margin slack : Rat) : Prop :=
  a.relation.HoldsApart (a.gap values) margin slack

/-- The alternative fails clearly: its complement holds, with a margin where that is strict. -/
def Alternative.FailsApart (a : Alternative Rat) (values : Assignment Rat) (margin slack : Rat) : Prop :=
  a.relation.complement.HoldsApart (a.gap values) margin slack

/-- Some alternative holds, and every inequality among them either holds or fails clearly. -/
structure HoldsApart (d : Disjunction Rat) (values : Assignment Rat) (slack : Rat) : Prop where
  chosen : ∃ a ∈ d.alternatives, a.HoldsApart values d.margin slack
  clear : ∀ a ∈ d.alternatives, a.relation ≠ .eq →
    a.HoldsApart values d.margin slack ∨ a.FailsApart values d.margin slack

end Disjunction

namespace Disjunction

/-- An alternative satisfies the disjunct it comes from. -/
theorem isSatisfied_of_alternative {c : Comparison Rat} {a : Alternative Rat} (ha : a ∈ alternativesOf c)
    {values : Assignment Rat} {tolerance : Rat}
    (h : a.relation.holds (sumTerms a.lhs values) a.rhs tolerance = true) :
    c.isSatisfied values tolerance = true := by
  cases hr : c.relation with
  | ne =>
    simp only [alternativesOf, hr, List.mem_cons, List.not_mem_nil, or_false] at ha
    simp only [Comparison.isSatisfied, hr, Relation.holds, Scalar.abs_rat, decide_eq_true_eq, lt_abs]
    rcases ha with rfl | rfl
    · exact .inl (by simpa [Relation.holds, Comparison.evalLhs] using h)
    · refine .inr ?_
      have below : c.evalLhs values - c.rhs < -tolerance := by
        simpa [Relation.holds, Comparison.evalLhs] using h
      exact lt_neg.mp below
  | lt | le | eq | ge | gt =>
    simp only [alternativesOf, hr, List.mem_singleton] at ha
    subst ha
    simpa only [Comparison.isSatisfied, Comparison.evalLhs, hr] using h

theorem HoldsApart.isSatisfied {d : Disjunction Rat} {values : Assignment Rat} {slack : Rat}
    (h : d.HoldsApart values slack) (apart : 2 * slack < d.margin) :
    d.isSatisfied values slack = true := by
  obtain ⟨a, ha, holds⟩ := h.chosen
  obtain ⟨c, hc, ha⟩ := List.mem_flatMap.mp ha
  refine List.any_eq_true.mpr ⟨c, hc, isSatisfied_of_alternative ha ?_⟩
  exact Relation.HoldsApart.holds holds le_rfl fun _ => by linarith

end Disjunction

/-- What lowering preserves. Each row of a disjunction reaches it through a slack variable. -/
def Constraint.HoldsApart (values : Assignment Rat) (slack : Rat) : Constraint Rat → Prop
  | comparison c => c.HoldsApart values slack
  | sos1 s => s.isSatisfied values slack = true
  | disjunction d => d.HoldsApart values (2 * slack)
  | binaryOr b => b.isSatisfied values slack = true

/-- Every separation that the constraint asks for is wider than this. -/
def Constraint.Wider (width : Rat) : Constraint Rat → Prop
  | comparison c => c.relation.isCanonical = false → width < c.margin
  | disjunction d => width < d.margin
  | sos1 _ | binaryOr _ => True

theorem Constraint.HoldsApart.isSatisfied {c : Constraint Rat} {values : Assignment Rat} {slack : Rat}
    (h : c.HoldsApart values slack) (hs : 0 ≤ slack) (wider : c.Wider (4 * slack)) :
    c.isSatisfied values (2 * slack) = true := by
  cases c with
  | comparison c => exact Comparison.HoldsApart.isSatisfied h hs wider
  | sos1 s =>
    refine Sos1.isSatisfied_iff_pairwise.mpr ((Sos1.isSatisfied_iff_pairwise.mp h).imp ?_)
    exact fun near => near.imp (fun h => by linarith) (fun h => by linarith)
  | disjunction d =>
    have wide : 4 * slack < d.margin := wider
    exact Disjunction.HoldsApart.isSatisfied h (by linarith)
  | binaryOr b =>
    simp only [Constraint.HoldsApart, BinaryOr.isSatisfied, Scalar.abs_rat, decide_eq_true_eq] at h
    simp only [Constraint.isSatisfied, BinaryOr.isSatisfied, Scalar.abs_rat, decide_eq_true_eq]
    linarith

/-- A constraint that a lowered problem may hold. -/
def Constraint.IsLowered {α : Type} : Constraint α → Prop
  | comparison c => c.relation.isCanonical = true
  | disjunction _ => False
  | sos1 _ | binaryOr _ => True

/-- Nothing asks for a separation any more. -/
theorem Constraint.IsLowered.holdsApart_iff {c : Constraint Rat} (h : c.IsLowered)
    {values : Assignment Rat} {slack : Rat} :
    c.HoldsApart values slack ↔ c.isSatisfied values slack = true := by
  cases c with
  | comparison c => exact (Comparison.isSatisfied_iff_apart h values slack).symm
  | sos1 s => exact Iff.rfl
  | disjunction d => exact False.elim h
  | binaryOr b => exact Iff.rfl

end MixedInteger
