import Mathlib.Tactic.Tauto
import MixedInteger.Constraint.Statement
import MixedInteger.Expression.Arithmetic
import MixedInteger.Expression.InPlace
import MixedInteger.Proofs.Checks

/-!
The degree that an expression declares covers all of it. Operators widen the degree to fit what enters and additions
refuse what does not fit, so nothing quadratic hides below a level that is declared linear.
-/

namespace MixedInteger

namespace Degree

theorem join_eq_linear {d d' : Degree} : d.join d' = .linear ↔ d = .linear ∧ d' = .linear := by
  cases d <;> cases d' <;> simp [join]

theorem admits_iff {whole part : Degree} : whole.admits part = true ↔ (whole = .linear → part = .linear) := by
  cases whole <;> cases part <;> simp [admits]

/-- Joining what fits changes nothing. -/
theorem join_eq_left {d d' : Degree} (fits : d = .linear → d' = .linear) : d.join d' = d := by
  cases d with
  | linear =>
    rw [fits rfl]
    rfl
  | quadratic => rfl

end Degree

variable {α : Type}

/-- Each level that is declared linear has linear terms, and linear expressions right inside it. -/
inductive Expression.Covered : Expression α → Prop where
  | mk {e : Expression α} (terms : e.degree = .linear → ∀ t ∈ e.terms, t.degree = .linear)
      (nested : e.degree = .linear → ∀ n ∈ e.nested, n.2.degree = .linear)
      (inner : ∀ n ∈ e.nested, Covered n.2) : Covered e

/-- The expression itself, or one at some depth inside it. -/
inductive Expression.Within : Expression α → Expression α → Prop where
  | self (e : Expression α) : Within e e
  | nested {f e : Expression α} {n : α × Expression α} (among : n ∈ e.nested) (within : Within f n.2) : Within f e

namespace Expression

namespace Covered

variable {e f : Expression α}

theorem terms (h : e.Covered) : e.degree = .linear → ∀ t ∈ e.terms, t.degree = .linear := by
  cases h
  assumption

theorem nested (h : e.Covered) : e.degree = .linear → ∀ n ∈ e.nested, n.2.degree = .linear := by
  cases h
  assumption

theorem inner (h : e.Covered) : ∀ n ∈ e.nested, n.2.Covered := by
  cases h
  assumption

theorem empty (degree : Degree) : (empty degree : Expression α).Covered :=
  ⟨fun _ => nofun, fun _ => nofun, nofun⟩

/-- A wider degree covers as much. -/
theorem widen (h : e.Covered) {degree : Degree} (wider : degree = .linear → e.degree = .linear) :
    { e with degree }.Covered :=
  ⟨fun linear => h.terms (wider linear), fun linear => h.nested (wider linear), h.inner⟩

theorem withTerm (h : e.Covered) {t : Term α} (fits : e.degree = .linear → t.degree = .linear) :
    { e with terms := e.terms ++ [t] }.Covered := by
  refine ⟨fun linear u hu => ?_, h.nested, h.inner⟩
  rcases List.mem_append.mp hu with hu | hu
  · exact h.terms linear u hu
  · rw [List.mem_singleton.mp hu]
    exact fits linear

theorem withConstant (h : e.Covered) (c : α) : { e with constants := e.constants ++ [c] }.Covered :=
  ⟨h.terms, h.nested, h.inner⟩

theorem withNested (h : e.Covered) (hf : f.Covered) (fits : e.degree = .linear → f.degree = .linear) (weight : α) :
    { e with nested := e.nested ++ [(weight, f)] }.Covered := by
  refine ⟨h.terms, fun linear n hn => ?_, fun n hn => ?_⟩
  all_goals rcases List.mem_append.mp hn with hn | hn
  · exact h.nested linear n hn
  · rw [List.mem_singleton.mp hn]
    exact fits linear
  · exact h.inner n hn
  · rw [List.mem_singleton.mp hn]
    exact hf

theorem addTerm (h : e.Covered) {t : Term α} (ok : e.addTerm t = .ok f) : f.Covered := by
  unfold Expression.addTerm at ok
  split at ok
  · rename_i admits
    obtain rfl := pure_eq_ok.mp ok
    exact h.withTerm (Degree.admits_iff.mp admits)
  · simp at ok

theorem addNested (h : e.Covered) {g : Expression α} (hg : g.Covered) {weight : α}
    (ok : e.addNested g weight = .ok f) : f.Covered := by
  unfold Expression.addNested at ok
  split at ok
  · rename_i admits
    obtain rfl := pure_eq_ok.mp ok
    exact h.withNested hg (Degree.admits_iff.mp admits) weight
  · simp at ok

theorem plusTerm (h : e.Covered) (t : Term α) : (e.plusTerm t).Covered :=
  (h.widen fun linear => (Degree.join_eq_linear.mp linear).1).withTerm
    fun linear => (Degree.join_eq_linear.mp linear).2

theorem weighted (h : e.Covered) (weight : α) : (e.weighted weight).Covered :=
  (empty e.degree).withNested h id weight

theorem ofTerm (t : Term α) : (ofTerm t).Covered := (empty .linear).plusTerm t

theorem ofTerms (ts : List (Term α)) : (ofTerms ts).Covered :=
  List.foldlRecOn ts Expression.plusTerm (empty .linear) fun _ h t _ => h.plusTerm t

/-- A linear level makes everything inside it linear. -/
theorem linear_within (h : e.Covered) (linear : e.degree = .linear) (within : f.Within e) :
    f.degree = .linear ∧ ∀ t ∈ f.terms, t.degree = .linear := by
  induction within with
  | self => exact ⟨linear, h.terms linear⟩
  | nested among _ ih => exact ih (h.inner _ among) (h.nested linear _ among)

variable [Scalar α]

theorem plus (h : e.Covered) (hf : f.Covered) : (e.plus f).Covered :=
  (h.widen fun linear => (Degree.join_eq_linear.mp linear).1).withNested hf
    (fun linear => (Degree.join_eq_linear.mp linear).2) 1

theorem sumOf {es : List (Expression α)} (h : ∀ e ∈ es, e.Covered) : (sumOf es).Covered :=
  List.foldlRecOn es Expression.plus (empty .linear) fun _ hb e he => hb.plus (h e he)

/-- The terms of every level fit the declared degree, and no inner degree widens it. -/
theorem flat (h : e.Covered) :
    e.flatDegree = e.degree ∧ (e.degree = .linear → ∀ t ∈ e.flatTerms, t.degree = .linear) := by
  induction h with
  | @mk e terms fits inner ih =>
    obtain ⟨degree, own, constants, nested⟩ := e
    -- The induction is on what is left of the inner expressions.
    have rest : ∀ ns : List (α × Expression α), (∀ n ∈ ns, n ∈ nested) →
        nestedDegree degree ns = degree ∧ (degree = .linear → ∀ t ∈ nestedTerms ns, t.degree = .linear) := by
      intro ns
      induction ns with
      | nil => exact fun _ => ⟨rfl, fun _ => nofun⟩
      | cons n ns ihn =>
        intro among
        obtain ⟨now, later⟩ := List.forall_mem_cons.mp among
        obtain ⟨sameDegree, innerTerms⟩ := ih n now
        obtain ⟨joined, restTerms⟩ := ihn later
        constructor
        · rw [nestedDegree, sameDegree, Degree.join_eq_left fun linear => fits linear n now, joined]
        · intro linear t ht
          rcases List.mem_append.mp ht with ht | ht
          · obtain ⟨u, hu, rfl⟩ := List.mem_map.mp ht
            exact innerTerms (fits linear n now) u hu
          · exact restTerms linear t ht
    obtain ⟨joined, innerTerms⟩ := rest nested fun _ hn => hn
    refine ⟨joined, fun linear t ht => ?_⟩
    rcases List.mem_append.mp ht with ht | ht
    · exact terms linear t ht
    · exact innerTerms linear t ht

theorem expand (h : e.Covered) : e.expand.Covered := by
  obtain ⟨same, terms⟩ := h.flat
  exact ⟨fun linear => terms (same.symm.trans linear), fun _ => nofun, nofun⟩

end Covered

end Expression

theorem Draft.on_checked (part : Degree) (refusal : Expression α → Refusal α) (f : Expression α → Expression α)
    (e : Expression α) : (do checkDegree part refusal; modify f : Draft α Unit).on e =
      if e.degree.admits part then (.ok (), f e) else (.error (refusal e), e) := by
  have passed : (checkDegree part refusal).on e =
      (if e.degree.admits part then pure () else throw (refusal e), e) := rfl
  have bind (x : Draft α Unit) : (do x; modify f : Draft α Unit).on e =
      match x.on e with
      | (.ok _, e) => (.ok (), f e)
      | (.error r, e) => (.error r, e) := by
    simp only [on, ExceptT.run_bind, StateT.run_bind]
    rcases x.run.run e with ⟨_ | _, _⟩ <;> rfl
  rw [bind, passed]
  cases e.degree.admits part <;> rfl

namespace Addition

/-- Work in place comes to the addition as a value, and after a refusal to nothing at all. -/
theorem draft_on (a : Addition α) (e : Expression α) : a.draft.on e =
    match a.apply e with
    | .ok f => (.ok (), f)
    | .error r => (.error r, e) := by
  cases a with
  | linear | constant => rfl
  | term t =>
    refine (Draft.on_checked t.degree .quadraticTerm _ e).trans ?_
    simp only [apply, Expression.addTerm]
    split <;> rfl
  | quadratic v w weight =>
    refine (Draft.on_checked (Term.product weight v w).degree .quadraticTerm _ e).trans ?_
    simp only [apply, Expression.addQuadratic, Expression.addTerm]
    split <;> rfl
  | nested inner weight =>
    refine (Draft.on_checked inner.degree .quadraticNested _ e).trans ?_
    simp only [apply, Expression.addNested]
    split <;> rfl

/-- Work in place keeps an expression covered, whether or not it is refused. -/
theorem covered_draft {a : Addition α} {e : Expression α} (h : e.Covered) (inner : ∀ f ∈ a.inner?, f.Covered) :
    (a.draft.on e).2.Covered := by
  rw [draft_on]
  cases taken : a.apply e with
  | error r => exact h
  | ok f =>
    cases a with
    | linear v weight =>
      obtain rfl := Except.ok.inj taken
      exact h.withTerm fun _ => rfl
    | constant c =>
      obtain rfl := Except.ok.inj taken
      exact h.withConstant c
    | term t => exact h.addTerm taken
    | quadratic v w weight => exact h.addTerm taken
    | nested g weight => exact h.addNested (inner g rfl) taken

end Addition

variable [Scalar α]

/-- The expressions that can be made from outside: by constructors and conversions, by every operator between
expressions, terms, variables and numbers, by sums, by expansion, and by work in place that may be refused. -/
inductive Expression.Built : Expression α → Prop where
  | empty (degree : Degree) : Built (.empty degree)
  | ofTerm (t : Term α) : Built (.ofTerm t)
  | ofTerms (ts : List (Term α)) : Built (.ofTerms ts)
  | ofVariable (v : Variable α) : Built (.ofVariable v)
  | sumOf {es : List (Expression α)} (built : ∀ e ∈ es, Built e) : Built (.sumOf es)
  | add {e f : Expression α} (built : Built e) (other : Built f) : Built (e + f)
  | sub {e f : Expression α} (built : Built e) (other : Built f) : Built (e - f)
  | neg {e : Expression α} (built : Built e) : Built (-e)
  | mul {e : Expression α} (built : Built e) (weight : α) : Built (e * weight)
  | mulLeft {e : Expression α} (weight : α) (built : Built e) : Built (weight * e)
  | addTerm {e : Expression α} (built : Built e) (t : Term α) : Built (e + t)
  | subTerm {e : Expression α} (built : Built e) (t : Term α) : Built (e - t)
  | addVariable {e : Expression α} (built : Built e) (v : Variable α) : Built (e + v)
  | subVariable {e : Expression α} (built : Built e) (v : Variable α) : Built (e - v)
  | addNumber {e : Expression α} (built : Built e) (c : α) : Built (e + c)
  | subNumber {e : Expression α} (built : Built e) (c : α) : Built (e - c)
  | termAdd {e : Expression α} (t : Term α) (built : Built e) : Built (t + e)
  | termAddTerm (t u : Term α) : Built (t + u)
  | termSubTerm (t u : Term α) : Built (t - u)
  | termAddVariable (t : Term α) (v : Variable α) : Built (t + v)
  | termSubVariable (t : Term α) (v : Variable α) : Built (t - v)
  | termAddNumber (t : Term α) (c : α) : Built (t + c)
  | termSubNumber (t : Term α) (c : α) : Built (t - c)
  | variableAddTerm (v : Variable α) (t : Term α) : Built (v + t)
  | variableSubTerm (v : Variable α) (t : Term α) : Built (v - t)
  | variableAddVariable (v w : Variable α) : Built (v + w)
  | variableSubVariable (v w : Variable α) : Built (v - w)
  | expand {e : Expression α} (built : Built e) : Built e.expand
  | nested {e : Expression α} (built : Built e) {n : α × Expression α} (among : n ∈ e.nested) : Built n.2
  | worked {e : Expression α} (built : Built e) (a : Addition α) (inner : ∀ f ∈ a.inner?, Built f) :
      Built (a.draft.on e).2

theorem Expression.Built.covered {e : Expression α} (h : e.Built) : e.Covered := by
  induction h with
  | empty degree => exact .empty degree
  | ofTerm t => exact .ofTerm t
  | ofTerms ts => exact .ofTerms ts
  | ofVariable v => exact .ofTerm _
  | sumOf _ ih => exact .sumOf ih
  | add _ _ ih other => exact ih.plus other
  | sub _ _ ih other => exact ih.plus (other.weighted _)
  | neg _ ih => exact ih.weighted _
  | mul _ weight ih | mulLeft weight _ ih => exact ih.weighted weight
  | addTerm _ t ih | subTerm _ t ih => exact ih.plusTerm _
  | addVariable _ v ih | subVariable _ v ih => exact ih.plusTerm _
  | addNumber _ c ih | subNumber _ c ih => exact ih.withConstant _
  | termAdd t _ ih => exact (Covered.ofTerm t).plus ih
  | termAddTerm t _ | termSubTerm t _ | termAddVariable t _ | termSubVariable t _ =>
    exact (Covered.ofTerm t).plusTerm _
  | termAddNumber t _ | termSubNumber t _ => exact (Covered.ofTerm t).withConstant _
  | variableAddTerm v _ | variableSubTerm v _ | variableAddVariable v _ | variableSubVariable v _ =>
    exact (Covered.ofTerm (.single 1 v)).plusTerm _
  | expand _ ih => exact ih.expand
  | nested _ among ih => exact ih.inner _ among
  | worked _ a _ ih inner => exact Addition.covered_draft ih inner

/-- An expression of linear degree has nothing quadratic at any depth, so expansion keeps the degree and it can be
stated as a linear comparison. An addition that is refused leaves it as it was. -/
theorem Expression.Built.linear_throughout {e : Expression α} (built : e.Built) :
    (e.degree = .linear → ∀ f : Expression α, f.Within e → f.degree = .linear ∧ ∀ t ∈ f.terms, t.degree = .linear) ∧
      e.expand.degree = e.degree ∧
      (e.degree = .linear →
        ∀ (relation : Relation) (rhs : α), ∃ c, Comparison.linear e relation rhs = .ok c) ∧
      ∀ (a : Addition α) (r : Refusal α), (a.draft.on e).1 = .error r → (a.draft.on e).2 = e := by
  have covered := built.covered
  obtain ⟨sameDegree, flatTerms⟩ := covered.flat
  refine ⟨fun linear f within => covered.linear_within linear within, sameDegree, ?_, ?_⟩
  · intro linear relation rhs
    have none : e.expand.terms.find? (·.degree == .quadratic) = none := by
      refine List.find?_eq_none.mpr fun t ht quadratic => ?_
      rw [flatTerms linear t ht] at quadratic
      exact absurd quadratic (by decide)
    exact ⟨_, by simp only [Comparison.linear, none]; rfl⟩
  · intro a r refused
    rw [a.draft_on] at refused ⊢
    cases taken : a.apply e with
    | error r => rfl
    | ok f =>
      rw [taken] at refused
      cases refused

namespace Expression

/-- `2 (x + y) - z` after somebody tried to add the square of `x`. -/
def tried : Expression Rat :=
  let x : Variable Rat := .real "x"
  let y : Variable Rat := .real "y"
  let z : Variable Rat := .real "z"
  ((Addition.quadratic x x 1).draft.on ((x + y : Expression Rat) * (2 : Rat) - z)).2

theorem tried_linear_throughout :
    tried.Built ∧ tried.degree = .linear ∧
      (∀ f : Expression Rat, f.Within tried → f.degree = .linear ∧ ∀ t ∈ f.terms, t.degree = .linear) ∧
      (∃ c, Comparison.linear tried .le 3 = .ok c) ∧
      ((Addition.nested (empty .quadratic) 1).draft.on tried).1 = .error (.quadraticNested tried) ∧
      ((Addition.nested (empty .quadratic) 1).draft.on tried).2 = tried := by
  have sum : ((Variable.real "x" : Variable Rat) + (Variable.real "y" : Variable Rat) : Expression Rat).Built :=
    .variableAddVariable _ _
  have built : tried.Built := ((sum.mul 2).subVariable (.real "z")).worked (.quadratic (.real "x") (.real "x") 1) nofun
  obtain ⟨inside, -, stated, unchanged⟩ := built.linear_throughout
  exact ⟨built, rfl, inside rfl, stated rfl .le 3, rfl, unchanged _ (.quadraticNested tried) rfl⟩

end Expression
end MixedInteger
