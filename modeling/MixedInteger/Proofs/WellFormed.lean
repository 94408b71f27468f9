import MixedInteger.Expression.Arithmetic
import MixedInteger.Proofs.Reachable

/-!
Well-formed problems. Whatever is done to a problem, its registry gives each name one place, knows the
variables of the objective and of every constraint, and the constraints are such as their checks let in.
-/

namespace MixedInteger

variable {α : Type}

/-- Quadratic terms occur only in what is declared quadratic. -/
def Comparison.Fits (c : Comparison α) : Prop :=
  c.degree = .linear → ∀ t ∈ c.lhs, t.degree = .linear

/-- Disjuncts have no quadratic term at all. -/
def Constraint.Fits : Constraint α → Prop
  | .comparison c => c.Fits
  | .disjunction d => ∀ c ∈ d.disjuncts, ∀ t ∈ c.lhs, t.degree = .linear
  | .sos1 _ | .binaryOr _ => True

/-- The registry knows every variable of the objective. -/
def Problem.ObjectiveKnown (p : Problem α) : Prop :=
  ∀ e ∈ p.objective, ∀ v ∈ e.occurrences, p.registry.Knows v

/-- The names have one place each and are found there, the variables in use are known under their domain, and
the constraints pass their checks. -/
structure Problem.WellFormed (p : Problem α) : Prop where
  distinct : p.registry.names.Nodup
  named : p.registered.map (·.name) = p.registry.names
  found : ∀ (i : Nat) (name : String), p.registry.names[i]? = some name → p.lookup name = p.registered[i]?
  absent : ∀ name, name ∉ p.registry.names → p.lookup name = none
  objective : ∀ e ∈ p.objective, ∀ v ∈ e.occurrences, ∃ w, p.lookup v.name = some w ∧ w.domain = v.domain
  constraints : ∀ c ∈ p.constraints, ∀ v ∈ c.occurrences,
    ∃ w, p.lookup v.name = some w ∧ w.domain = v.domain
  valid : ∀ c ∈ p.constraints, c.validate = .ok ()
  fits : ∀ c ∈ p.constraints, c.Fits

namespace Registry.Consistent

variable {r : Registry α}

/-- A name leads to the place where it was registered. -/
theorem get?_place (h : r.Consistent) {i : Nat} {name : String} (hn : r.names[i]? = some name) :
    r.get? name = r.toList[i]? := by
  rw [names, List.getElem?_map, Option.map_eq_some_iff] at hn
  obtain ⟨e, he, rfl⟩ := hn
  have hm : e ∈ r.entries := List.mem_of_getElem? he
  rw [toList, List.getElem?_map, he]
  exact h.get?_eq_some.mpr ⟨List.mem_map_of_mem hm, h.named e hm⟩

theorem get?_known (h : r.Consistent) {v : Variable α} (hv : r.Knows v) :
    ∃ w, r.get? v.name = some w ∧ w.domain = v.domain := by
  obtain ⟨w, hw, hn, hd⟩ := hv
  exact ⟨w, h.get?_eq_some.mpr ⟨hw, hn⟩, hd⟩

end Registry.Consistent

section Degrees

theorem Comparison.addTerm_fits {c c' : Comparison α} {t : Term α} (h : c.Fits)
    (ok : c.addTerm t = .ok c') : c'.Fits := by
  unfold addTerm at ok
  split at ok
  · rename_i admits
    obtain rfl := Except.ok.inj ok
    intro linear u hu
    rcases List.mem_append.mp hu with hu | hu
    · exact h linear u hu
    · obtain rfl := List.mem_singleton.mp hu
      cases hd : u.degree with
      | linear => rfl
      | quadratic =>
        change c.degree = .linear at linear
        simp [linear, hd, Degree.admits] at admits
  · simp at ok

theorem Disjunction.push_fits {d d' : Disjunction α} {c : Comparison α}
    (h : (Constraint.disjunction d).Fits) (hc : c.Fits) (ok : d.push c = .ok d') :
    (Constraint.disjunction d').Fits := by
  unfold push at ok
  split at ok
  · rename_i linear
    obtain rfl := Except.ok.inj ok
    intro c' hc'
    rcases List.mem_append.mp hc' with hc' | hc'
    · exact h c' hc'
    · rw [List.mem_singleton.mp hc']
      exact hc linear
  · simp at ok

theorem Comparison.mem_plusAuxiliary {lhs : List (Term α)} {weight : α} {v : Variable α} {t : Term α}
    (h : t ∈ plusAuxiliary lhs weight v) : t ∈ lhs ∨ t.degree = .linear := by
  refine (List.mem_append.mp h).imp_right fun single => ?_
  rw [List.mem_singleton.mp single]
  rfl

/-- The terms of the comparisons that a constraint is made of. -/
def Constraint.terms : Constraint α → List (Term α)
  | .comparison c => c.lhs
  | .disjunction d => d.disjuncts.flatMap (·.lhs)
  | .sos1 _ | .binaryOr _ => []

/-- No term is quadratic, whatever is declared. -/
def Constraint.IsLinear (c : Constraint α) : Prop := ∀ t ∈ c.terms, t.degree = .linear

theorem Constraint.IsLinear.fits {c : Constraint α} (h : c.IsLinear) : c.Fits := by
  cases c with
  | comparison c => exact fun _ => h
  | disjunction d => exact fun c hc t ht => h t (List.mem_flatMap.mpr ⟨c, hc, ht⟩)
  | sos1 | binaryOr => trivial

theorem Disjunction.isLinear_of_fits {d : Disjunction α} (h : (Constraint.disjunction d).Fits) :
    (Constraint.disjunction d).IsLinear := by
  intro t ht
  obtain ⟨c, hc, ht⟩ := List.mem_flatMap.mp ht
  exact h c hc t ht

variable [Scalar α]

theorem Comparison.linear_fits {e : Expression α} {relation : Relation} {rhs : α} {c : Comparison α}
    (ok : Comparison.linear e relation rhs = .ok c) : c.Fits := by
  unfold Comparison.linear at ok
  dsimp only at ok
  split at ok
  · simp at ok
  · rename_i hf
    obtain rfl := Except.ok.inj ok
    intro _ t ht
    have hq := List.find?_eq_none.mp hf t ht
    cases hd : t.degree with
    | linear => rfl
    | quadratic => simp [hd] at hq

/-- Rows have the terms of their alternative, and single auxiliaries. -/
theorem Disjunction.Choice.rows_terms {d : Disjunction α} {bigM : α} {k : Choice α} :
    ∀ r ∈ k.rows d bigM, ∀ t ∈ r.terms, t ∈ k.alternative.lhs ∨ t.degree = .linear := by
  have relaxed (weight : α) (v : Variable α) (relation : Relation) (rhs : α) :
      ∀ t ∈ (d.row (Comparison.plusAuxiliary k.alternative.lhs weight v) relation rhs).terms,
        t ∈ k.alternative.lhs ∨ t.degree = .linear :=
    fun _ => Comparison.mem_plusAuxiliary
  have tied (vs : List (Variable α)) (relation : Relation) (rhs : α) :
      ∀ t ∈ (d.row (vs.map (.single 1)) relation rhs).terms, t ∈ k.alternative.lhs ∨ t.degree = .linear := by
    intro t ht
    obtain ⟨v, -, rfl⟩ := List.mem_map.mp ht
    exact .inr rfl
  have exclusive (vs : List (Variable α)) :
      ∀ t ∈ (d.exclusive bigM vs).terms, t ∈ k.alternative.lhs ∨ t.degree = .linear := nofun
  intro r hr
  unfold rows at hr
  split at hr
  · simp only [equalityRows, List.mem_cons, List.not_mem_nil, or_false] at hr
    rcases hr with rfl | rfl | rfl | rfl
    exacts [relaxed _ _ _ _, relaxed _ _ _ _, tied [_, _, _] _ _, exclusive _]
  · simp only [inequalityRows, List.mem_cons, List.not_mem_nil, or_false] at hr
    rcases hr with rfl | rfl | rfl | rfl | rfl | rfl | rfl
    exacts [tied [_, _] _ _, relaxed _ _ _ _, relaxed _ _ _ _, tied [_, _] _ _, tied [_, _] _ _, exclusive _,
      exclusive _]

namespace Lowering

variable {bigM : α} {c : Constraint α} {vs : List (Variable α)} {rows : List (Constraint α)}

/-- Rows carry the terms of what they stand for, and single variables. -/
theorem terms (h : Lowering bigM c vs rows) : ∀ r ∈ rows, ∀ t ∈ r.terms, t ∈ c.terms ∨ t.degree = .linear := by
  intro r hr t ht
  cases h with
  | below | above =>
    rw [List.mem_singleton.mp hr] at ht
    exact .inl ht
  | apart excluding above below =>
    simp only [Comparison.separation, List.mem_cons, List.not_mem_nil, or_false] at hr
    rcases hr with rfl | rfl | rfl | rfl
    · simp only [Constraint.terms, Comparison.derived, List.mem_cons, List.not_mem_nil, or_false] at ht
      rcases ht with rfl | rfl <;> exact .inr rfl
    · cases ht
    all_goals exact Comparison.mem_plusAuxiliary ht
  | sos1 s names positions =>
    obtain ⟨row, hrow, rfl⟩ := List.mem_map.mp hr
    right
    rcases Sos1.mem_rows hrow with ⟨m, -, w, -, rfl | rfl⟩ | rfl
    all_goals
      simp only [Constraint.terms, Comparison.ofLinear, List.mem_cons, List.not_mem_nil, or_false, List.mem_map] at ht
    · rcases ht with rfl | rfl <;> rfl
    · rcases ht with rfl | rfl <;> rfl
    · obtain ⟨w, -, rfl⟩ := ht
      rfl
  | binaryOr b =>
    obtain ⟨row, hrow, rfl⟩ := List.mem_map.mp hr
    right
    rcases BinaryOr.mem_lower hrow with ⟨v, -, rfl⟩ | rfl
    all_goals
      simp only [Constraint.terms, Comparison.ofLinear, List.mem_cons, List.not_mem_nil, or_false, List.mem_map] at ht
    · rcases ht with rfl | rfl <;> rfl
    · rcases ht with rfl | ⟨v, -, rfl⟩ <;> rfl
  | disjunction d ks choices =>
    rcases List.mem_append.mp hr with hr | hr
    · obtain ⟨k, hk, hr⟩ := List.mem_flatMap.mp hr
      have ha : k.alternative ∈ d.alternatives := choices ▸ List.mem_map_of_mem hk
      obtain ⟨c, hc, hs⟩ := List.mem_flatMap.mp ha
      refine (Disjunction.Choice.rows_terms r hr t ht).imp_left fun ht => List.mem_flatMap.mpr ⟨c, hc, ?_⟩
      rwa [(Disjunction.alternative_sides hs).1] at ht
    · rw [List.mem_singleton.mp hr] at ht
      obtain ⟨k, -, rfl⟩ := List.mem_map.mp ht
      exact .inr rfl

theorem isLinear (h : Lowering bigM c vs rows) (linear : c.IsLinear) : ∀ r ∈ rows, r.IsLinear :=
  fun r hr t ht => (h.terms r hr t ht).elim (linear t) id

theorem fits (h : Lowering bigM c vs rows) (fits : c.Fits) : ∀ r ∈ rows, r.Fits := by
  intro r hr
  by_cases linear : c.IsLinear
  · exact (h.isLinear linear r hr).fits
  · -- Only comparisons may have a quadratic term, and their rows declare the degree that they declare.
    cases h with
    | below | above =>
      rw [List.mem_singleton.mp hr]
      exact fits
    | apart excluding above below =>
      simp only [Comparison.separation, List.mem_cons, List.not_mem_nil, or_false] at hr
      rcases hr with rfl | rfl | rfl | rfl
      case inr.inl => trivial
      all_goals exact fun declared => absurd (fits declared) linear
    | sos1 | binaryOr => exact absurd (List.forall_mem_nil _) linear
    | disjunction => exact absurd (Disjunction.isLinear_of_fits fits) linear

end Lowering

end Degrees

variable [Scalar α]

namespace Expression

mutual

theorem flat_occurrences : ∀ e : Expression α, e.flatTerms.flatMap Term.occurrences = e.occurrences
  | ⟨_, _, _, nested⟩ => by
    rw [flatTerms, occurrences, List.flatMap_append, nested_occurrences nested]

theorem nested_occurrences : ∀ nested : List (α × Expression α),
    (nestedTerms nested).flatMap Term.occurrences = nestedOccurrences nested
  | [] => rfl
  | (weight, e) :: rest => by
    have scaled : (e.flatTerms.map (·.scale weight)).flatMap Term.occurrences =
        e.flatTerms.flatMap Term.occurrences := by
      rw [List.flatMap_map]
      rfl
    rw [nestedTerms, nestedOccurrences, List.flatMap_append, scaled, flat_occurrences e,
      nested_occurrences rest]

end

/-- Expansion loses no variable, and finds no new one. -/
theorem occurrences_expand (e : Expression α) : e.expand.occurrences = e.occurrences := by
  rw [← flat_occurrences e, expand, occurrences, nestedOccurrences, List.append_nil]

end Expression

/-- The constraints that can be made from outside, where no field of a constraint can be set unchecked. Rows
that lowering hands out are among them, whichever names they were given. -/
inductive Constraint.Built : Constraint α → Prop where
  | linear {e : Expression α} {relation : Relation} {rhs : α} {c : Comparison α}
      (ok : Comparison.linear e relation rhs = .ok c) : Built (.comparison c)
  | quadratic (e : Expression α) (relation : Relation) (rhs : α) :
      Built (.comparison (.quadratic e relation rhs))
  | termAdded {c c' : Comparison α} {t : Term α} (built : Built (.comparison c))
      (ok : c.addTerm t = .ok c') : Built (.comparison c')
  | separated {c : Comparison α} (built : Built (.comparison c)) (margin : α) :
      Built (.comparison { c with margin })
  | labelled {c : Comparison α} (built : Built (.comparison c)) (label : String) :
      Built (.comparison { c with label := some label })
  | sos1 (s : Sos1 α) : Built (.sos1 s)
  | noDisjunct : Built (.disjunction .empty)
  | pushed {d d' : Disjunction α} {c : Comparison α} (built : Built (.disjunction d))
      (disjunct : Built (.comparison c)) (ok : d.push c = .ok d') : Built (.disjunction d')
  | disjunctionSeparated {d : Disjunction α} (built : Built (.disjunction d)) (margin : α) :
      Built (.disjunction { d with margin })
  | disjunct {d : Disjunction α} {c : Comparison α} (built : Built (.disjunction d))
      (among : c ∈ d.disjuncts) : Built (.comparison c)
  | binaryOr (b : BinaryOr α) : Built (.binaryOr b)
  | lowered {bigM : α} {c r : Constraint α} {vs : List (Variable α)} {rows : List (Constraint α)}
      (built : Built c) (lowers : Lowering bigM c vs rows) (row : r ∈ rows) : Built r

theorem Constraint.Built.fits {c : Constraint α} (h : c.Built) : c.Fits := by
  induction h with
  | linear ok => exact Comparison.linear_fits ok
  | quadratic => exact fun linear => (nomatch linear)
  | termAdded _ ok ih => exact Comparison.addTerm_fits ih ok
  | separated _ _ ih => exact ih
  | labelled _ _ ih => exact ih
  | sos1 | binaryOr => trivial
  | noDisjunct => exact fun _ hc => absurd hc List.not_mem_nil
  | pushed _ _ ok ih disjunct => exact Disjunction.push_fits ih disjunct ok
  | disjunctionSeparated _ _ ih => exact ih
  | disjunct _ among ih => exact fun _ => ih _ among
  | lowered _ lowers row ih => exact lowers.fits ih _ row

/-- What a problem becomes when all that is posted was built. -/
inductive Constructible : Problem α → Prop where
  | start : Constructible .empty
  | step {p q : Problem α} {cs : List (Constraint α)} (before : Constructible p) (step : Step p cs q)
      (built : ∀ c ∈ cs, c.Built) : Constructible q
  | removal {p q : Problem α} (before : Constructible p) (removal : Removal p q) : Constructible q

theorem Constructible.reachable {p : Problem α} (h : Constructible p) : Reachable p := by
  induction h with
  | start => exact .start
  | step _ step _ ih => exact .step ih step
  | removal _ removal ih => exact .removal ih removal

section Inherited

/-- Lowering hands a property of constraints on to the rows. -/
def Inherited (P : Constraint α → Prop) : Prop :=
  ∀ ⦃bigM : α⦄ ⦃c : Constraint α⦄ ⦃vs : List (Variable α)⦄ ⦃rows : List (Constraint α)⦄,
    Lowering bigM c vs rows → P c → ∀ r ∈ rows, P r

variable {P : Constraint α → Prop} {p q : Problem α}

theorem Problem.after_all (inherited : Inherited P) (passes : List Pass) (h : ∀ c ∈ p.constraints, P c) :
    ∀ c ∈ (p.after passes).constraints, P c := by
  refine after_keeps (P := fun q => ∀ c ∈ q.constraints, P c) h ?_ passes
  intro q r pass kept ws passed h c hc
  rcases passed.mem_after hc with hk | ⟨w, hw, hr⟩
  · exact h c (passed.kept_mem hk)
  · exact inherited w.lowers (h _ (passed.source_mem hw)) c hr

theorem Problem.lower_all (inherited : Inherited P) (h : ∀ c ∈ p.constraints, P c) :
    ∀ c ∈ p.lower.1.constraints, P c := by
  rw [lower_after]
  exact p.after_all inherited p.policy.passes h

/-- A property that is handed on, and that everything posted has, stays with all constraints. -/
theorem Step.all_constraints (inherited : Inherited P) {cs : List (Constraint α)} (step : Step p cs q)
    (posted : ∀ c ∈ cs, P c) (h : ∀ c ∈ p.constraints, P c) : ∀ c ∈ q.constraints, P c := by
  cases step with
  | objective ok =>
    obtain ⟨staged, -, rfl⟩ := Problem.setObjective_ok ok
    exact h
  | sense | configured | valuesStored => exact h
  | posted ok =>
    obtain ⟨staged, -, -, -, constraints, -⟩ := Problem.addAll_ok ok
    intro c hc
    exact (List.mem_append.mp (constraints.mem_iff.mp hc)).elim (h c) (posted c)
  | substituted pass => exact p.after_all inherited [pass] h
  | lowered => exact Problem.lower_all inherited h
  | globalBounds ok =>
    rw [Problem.applyGlobalBounds_ok ok]
    exact h
  | boundsChanged ok =>
    obtain ⟨v, w, -, -, -, rfl⟩ := Problem.changeBounds?_ok ok
    exact h
  | valueStored ok =>
    obtain ⟨v, -, rfl⟩ := Problem.setValue_ok ok
    exact h
  | built config =>
    rcases Problem.assembly_problem config p with hq | ⟨low, high, hq⟩
    · exact hq ▸ Problem.lower_all inherited h
    · rw [Problem.applyGlobalBounds_ok hq]
      exact Problem.lower_all inherited h

end Inherited

namespace Problem

variable {p q : Problem α}

omit [Scalar α] in
theorem ObjectiveKnown.kept (h : p.ObjectiveKnown) (grows : p.Extends q)
    (same : q.objective = p.objective) : q.ObjectiveKnown :=
  fun e he v hv => grows.knows v (h e (same ▸ he) v hv)

theorem ObjectiveKnown.expanded (h : p.ObjectiveKnown) (grows : p.Extends q)
    (same : q.objective = p.objective.map Expression.expand) : q.ObjectiveKnown := by
  intro e he v hv
  rw [same] at he
  obtain ⟨inner, hi, rfl⟩ := Option.map_eq_some_iff.mp he
  rw [Expression.occurrences_expand] at hv
  exact grows.knows v (h inner hi v hv)

/-- An objective enters with its variables staged; afterwards it is at most expanded. -/
theorem ObjectiveKnown.step {cs : List (Constraint α)} (h : p.ObjectiveKnown) (grounded : p.Grounded)
    (step : Step p cs q) : q.ObjectiveKnown := by
  have grows := (grounded.step step).2
  cases step with
  | objective ok =>
    obtain ⟨staged, hs, rfl⟩ := setObjective_ok ok
    intro e he
    obtain rfl := Option.some.inj he
    exact grounded.registry.knows_staged hs
  | sense | configured | valuesStored => exact h.kept grows rfl
  | posted ok =>
    obtain ⟨staged, -, -, -, -, -, same⟩ := addAll_ok ok
    exact h.kept grows same
  | substituted pass => exact h.kept grows (p.after_frame [pass]).1
  | lowered => exact h.expanded grows p.lower_objective.1
  | globalBounds ok =>
    rw [applyGlobalBounds_ok ok] at grows ⊢
    exact h.kept grows rfl
  | boundsChanged ok =>
    obtain ⟨v, w, -, -, -, rfl⟩ := changeBounds?_ok ok
    exact h.kept grows rfl
  | valueStored ok =>
    obtain ⟨v, -, rfl⟩ := setValue_ok ok
    exact h.kept grows rfl
  | built config => exact h.expanded grows (p.assembly_objective config)

end Problem

theorem Reachable.objective_known {p : Problem α} (h : Reachable p) : p.ObjectiveKnown := by
  induction h with
  | start => exact fun e he => (nomatch he)
  | step before step ih => exact ih.step before.grounded step
  | removal _ removal ih => cases removal <;> exact ih

theorem Constructible.fits {p : Problem α} (h : Constructible p) : ∀ c ∈ p.constraints, c.Fits := by
  induction h with
  | start => simp [Problem.empty, Problem.withPolicy, Problem.constraints]
  | step _ step built ih =>
    exact step.all_constraints (fun _ _ _ _ lowers => lowers.fits) (fun c hc => (built c hc).fits) ih
  | removal _ removal ih => exact fun c hc => ih c (removal.mem_constraints hc)

/-- Problems stay well-formed through every change and removal, every pass and every assembly. -/
theorem Constructible.wellFormed {p : Problem α} (h : Constructible p) : p.WellFormed := by
  have grounded := h.reachable.grounded
  refine ⟨grounded.registry.distinct, (p.names_registered grounded.registry).symm, ?_, ?_, ?_, ?_, grounded.valid,
    h.fits⟩
  · exact fun i name hn => grounded.registry.get?_place hn
  · intro name hn
    rw [Problem.lookup, Registry.get?, Registry.find?_eq_none_iff.mpr hn, Option.map_none]
  · exact fun e he v hv => grounded.registry.get?_known (h.reachable.objective_known e he v hv)
  · exact fun c hc v hv => grounded.registry.get?_known (grounded.known c hc v hv)

/-- Half of `x`, nested. -/
def Expression.halved : Expression Rat := (Expression.ofVariable (.real "x")).weighted (1 / 2)

/-- The choice of a side of zero for `x`. -/
def Disjunction.sides : Disjunction Rat :=
  ⟨[.ofFlat .linear (Expression.ofVariable (.real "x")).expand .ne 0], defaultMargin⟩

def Problem.sided : Problem Rat :=
  { Problem.empty.push (.disjunction .sides) with
    objective := some .halved
    registry := Registry.empty.insert (.real "x") }

theorem Problem.sided_wellFormed :
    Problem.sided.lower.1.comparisons.length = 31 ∧ Problem.sided.lower.1.WellFormed := by
  have aimed : Problem.empty.setObjective Expression.halved .minimise = .ok (_, _) := rfl
  have posted : Problem.addAll { Problem.empty with
      objective := some .halved
      registry := Registry.empty.insert (.real "x") } [.disjunction .sides] = .ok Problem.sided := rfl
  have stated : Comparison.linear (.ofVariable (.real "x")) .ne 0 = .ok (_ : Comparison Rat) := rfl
  have built : (Constraint.disjunction .sides).Built := .pushed .noDisjunct (.linear stated) rfl
  have constructible : Constructible Problem.sided.lower.1 :=
    .step (.step (.step .start (.objective aimed) (by simp)) (.posted posted) (by simpa using built))
      (.lowered _) (by simp)
  exact ⟨by decide +kernel, constructible.wellFormed⟩

end MixedInteger
