import MixedInteger.Proofs.Completeness

/-!
Exactness of the rows of a disjunction before their own strict relations are lowered: with strictness taken at its
word, the rows can be met just where a disjunct holds, and the indicators say which one.
-/

namespace MixedInteger

/-- What a relation says of the gap between its sides, with nothing allowed for. -/
def Relation.HoldsExactly (r : Relation) (gap : Rat) : Prop :=
  match r with
  | lt => gap < 0
  | le => gap ≤ 0
  | eq => gap = 0
  | ge => 0 ≤ gap
  | gt => 0 < gap
  | ne => gap ≠ 0

namespace Relation

variable {r : Relation} {gap : Rat}

theorem holds_iff_exactly {lhs rhs : Rat} : r.holds lhs rhs 0 = true ↔ r.HoldsExactly (lhs - rhs) := by
  cases r <;> simp [holds, HoldsExactly]

theorem exactly_le : le.HoldsExactly gap ↔ gap ≤ 0 := Iff.rfl

theorem exactly_eq : eq.HoldsExactly gap ↔ gap = 0 := Iff.rfl

theorem exactly_ge : ge.HoldsExactly gap ↔ 0 ≤ gap := Iff.rfl

theorem exactly_gt : gt.HoldsExactly gap ↔ 0 < gap := Iff.rfl

theorem complement_exactly : r.complement.HoldsExactly gap ↔ ¬r.HoldsExactly gap := by
  cases r <;> simp [complement, HoldsExactly]

end Relation

namespace Disjunction

variable {d : Disjunction Rat} {a : Alternative Rat} {bigM : Rat} {values : Assignment Rat}

/-- The alternative is true of the values. -/
def Alternative.Holds (a : Alternative Rat) (values : Assignment Rat) : Prop :=
  a.relation.holds (sumTerms a.lhs values) a.rhs 0 = true

theorem Alternative.holds_iff : a.Holds values ↔ a.relation.HoldsExactly (a.gap values) :=
  Relation.holds_iff_exactly

theorem isSatisfied_iff_alternative {c : Comparison Rat} :
    c.isSatisfied values 0 = true ↔ ∃ a ∈ alternativesOf c, a.Holds values := by
  constructor
  · intro h
    cases hr : c.relation with
    | ne =>
      have apart : c.evalLhs values - c.rhs ≠ 0 := by
        simpa [Comparison.isSatisfied, hr, Relation.holds] using h
      simp only [alternativesOf, hr, List.mem_cons, List.not_mem_nil, or_false, exists_eq_or_imp, exists_eq_left,
        Alternative.holds_iff]
      exact (lt_or_gt_of_ne apart).symm
    | lt | le | eq | ge | gt =>
      simp only [alternativesOf, hr, List.mem_singleton, exists_eq_left, Alternative.Holds]
      simpa only [Comparison.isSatisfied, Comparison.evalLhs, hr] using h
  · rintro ⟨a, ha, holds⟩
    exact isSatisfied_of_alternative ha holds

/-- A disjunction is the choice between its alternatives. -/
theorem isSatisfied_iff : d.isSatisfied values 0 = true ↔ ∃ a ∈ d.alternatives, a.Holds values := by
  simp only [isSatisfied, List.any_eq_true, isSatisfied_iff_alternative, alternatives, List.mem_flatMap]
  constructor
  · rintro ⟨c, hc, a, ha, holds⟩
    exact ⟨a, ⟨c, hc, ha⟩, holds⟩
  · rintro ⟨a, ⟨c, hc, ha⟩, holds⟩
    exact ⟨c, hc, a, ha, holds⟩

theorem row_isSatisfied {lhs : List (Term Rat)} {relation : Relation} {rhs : Rat} :
    (d.row lhs relation rhs).isSatisfied values 0 = true ↔
      relation.HoldsExactly (sumTerms lhs values - rhs) :=
  Relation.holds_iff_exactly

theorem relaxed_isSatisfied {relation : Relation} {weight : Rat} {v : Variable Rat} :
    (d.row (Comparison.plusAuxiliary a.lhs weight v) relation a.rhs).isSatisfied values 0 = true ↔
      relation.HoldsExactly (a.gap values + weight * values v.name) := by
  rw [row_isSatisfied, Comparison.plusAuxiliary, sumTerms_append, sumTerms_cons, sumTerms_nil, Term.eval_single,
    add_zero, Alternative.gap, sub_add_eq_add_sub]

theorem exclusive_isSatisfied {members : List (Variable Rat)} :
    (d.exclusive bigM members).isSatisfied values 0 = true ↔
      members.Pairwise fun v w => values v.name = 0 ∨ values w.name = 0 := by
  refine Sos1.isSatisfied_iff_pairwise.trans ?_
  simp only [abs_nonpos_iff]
  rfl

namespace Choice

variable {k : Choice Rat}

/-- What the rows of an equality say. -/
theorem equality_met (equality : k.alternative.relation = .eq) :
    (∀ r ∈ k.rows d bigM, r.isSatisfied values 0 = true) ↔
      0 ≤ k.alternative.gap values + values k.phi ∧ k.alternative.gap values ≤ values k.psi ∧
      d.margin < values k.phi + (values k.psi + values k.on) ∧
      (values k.phi = 0 ∨ values k.psi = 0) ∧ (values k.phi = 0 ∨ values k.on = 0) ∧
      (values k.psi = 0 ∨ values k.on = 0) := by
  simp only [(of_equality equality d bigM).2, equalityRows, List.forall_mem_cons, List.not_mem_nil, false_implies,
    implies_true, and_true, relaxed_isSatisfied, exclusive_isSatisfied, List.pairwise_cons, List.Pairwise.nil,
    Relation.exactly_ge, Relation.exactly_le, Variable.binary_name, Variable.slack_name]
  simp only [row_isSatisfied, Relation.exactly_gt, sumTerms_cons, sumTerms_nil, Term.eval_single,
    Variable.binary_name, Variable.slack_name, one_mul, add_zero, neg_mul, sub_pos, sub_nonpos, ← sub_eq_add_neg,
    and_assoc]

/-- What the rows of an inequality say. -/
theorem inequality_met (inequality : k.alternative.relation ≠ .eq) :
    (∀ r ∈ k.rows d bigM, r.isSatisfied values 0 = true) ↔
      values k.on + values k.off = 1 ∧
      k.alternative.relation.HoldsExactly
        (k.alternative.gap values + slackSign k.alternative.relation * values k.phi) ∧
      k.alternative.relation.complement.HoldsExactly
        (k.alternative.gap values - slackSign k.alternative.relation * values k.psi) ∧
      2 * d.margin ≤ values k.phi + values k.on ∧ 2 * d.margin ≤ values k.psi + values k.off ∧
      (values k.phi = 0 ∨ values k.on = 0) ∧ (values k.psi = 0 ∨ values k.off = 0) := by
  simp only [(of_inequality inequality d bigM).2, inequalityRows, List.forall_mem_cons, List.not_mem_nil,
    false_implies, implies_true, and_true, relaxed_isSatisfied, exclusive_isSatisfied, List.pairwise_pair,
    Variable.binary_name, Variable.slack_name]
  simp only [row_isSatisfied, Relation.exactly_eq, Relation.exactly_ge, sumTerms_cons, sumTerms_nil,
    Term.eval_single, Variable.binary_name, Variable.slack_name, Scalar.two_rat, one_mul, add_zero, neg_mul,
    sub_nonneg, sub_eq_zero, ← sub_eq_add_neg]

/-- An indicator that is on leaves no slack to its alternative. That of an inequality, when off, leaves none to the
complement. -/
theorem speaks (allowed : ∀ v ∈ k.auxiliaries bigM, v.Allows (values v.name))
    (met : ∀ r ∈ k.rows d bigM, r.isSatisfied values 0 = true) :
    (values k.on = 1 → k.alternative.Holds values) ∧
      (k.alternative.relation ≠ .eq → (values k.on = 1 ↔ k.alternative.Holds values)) := by
  simp only [Alternative.holds_iff]
  by_cases equality : k.alternative.relation = .eq
  · obtain ⟨low, high, -, -, phiZero, psiZero⟩ := (equality_met equality).mp met
    refine ⟨fun on => ?_, fun inequality => absurd equality inequality⟩
    have isOn : values k.on ≠ 0 := by simp [on]
    rw [phiZero.resolve_right isOn] at low
    rw [psiZero.resolve_right isOn] at high
    rw [equality, Relation.exactly_eq]
    linarith
  · obtain ⟨one, alternative, complement, -, -, phiZero, psiZero⟩ := (inequality_met equality).mp met
    have true_of_on : values k.on = 1 → k.alternative.relation.HoldsExactly (k.alternative.gap values) := by
      intro on
      rwa [phiZero.resolve_right (by simp [on]), mul_zero, add_zero] at alternative
    have bit : IsBit (values k.on) := (allowed _ (k.indicator_mem bigM)).1
    refine ⟨true_of_on, fun _ => ⟨true_of_on, fun holds => bit.resolve_left fun off => ?_⟩⟩
    rw [off, zero_add] at one
    rw [psiZero.resolve_right (by simp [one]), mul_zero, sub_zero] at complement
    exact Relation.complement_exactly.mp complement holds

/-- A slack variable beyond the gap makes up for any violation. -/
theorem covered_exactly {r : Relation} (inequality : r ≠ .eq ∧ r ≠ .ne) {gap cover : Rat} (covers : |gap| < cover) :
    r.HoldsExactly (gap + slackSign r * cover) := by
  obtain ⟨low, high⟩ := abs_lt.mp covers
  cases r with
  | eq => exact absurd rfl inequality.1
  | ne => exact absurd rfl inequality.2
  | lt | le | ge | gt =>
    simp only [Relation.HoldsExactly, slackSign]
    linarith

/-- The rows of a choice are met at fitting values of its auxiliaries, and the indicator is on where the alternative
is true. -/
structure Fits (k : Choice Rat) (d : Disjunction Rat) (bigM : Rat) (values other : Assignment Rat) : Prop where
  rows : ∀ r ∈ k.rows d bigM, r.isSatisfied other 0 = true
  allowed : ∀ v ∈ k.auxiliaries bigM, v.Allows (other v.name)
  on : k.alternative.Holds values → other k.on = 1

theorem Fits.congr {one two : Assignment Rat} (h : k.Fits d bigM values one)
    (same : ∀ v ∈ k.alternative.lhs.flatMap Term.occurrences ++ k.auxiliaries bigM,
      two v.name = one v.name) : k.Fits d bigM values two := by
  refine ⟨?_, ?_, ?_⟩
  · intro r hr
    have read := fun v hv => same v (List.mem_append.mpr (k.rows_occurrences d bigM r hr v hv))
    rw [Constraint.isSatisfied_congr read]
    exact h.rows r hr
  · intro v hv
    rw [same v (List.mem_append_right _ hv)]
    exact h.allowed v hv
  · intro holds
    exact (same k.indicator (List.mem_append_right _ (k.indicator_mem bigM))).trans (h.on holds)

section Fitting

variable (nodup : ((k.auxiliaries bigM).map (·.name)).Nodup)
  (unread : ∀ v ∈ k.alternative.lhs.flatMap Term.occurrences, v.name ∉ (k.auxiliaries bigM).map (·.name))

include nodup unread

theorem exists_equality_values (equality : k.alternative.relation = .eq) {on phi psi : Rat} (bit : IsBit on)
    (ranges : (0 ≤ phi ∧ phi ≤ bigM) ∧ 0 ≤ psi ∧ psi ≤ bigM) :
    ∃ other, Assignment.AgreesOff (k.auxiliaries bigM) values other ∧
      (∀ v ∈ k.auxiliaries bigM, v.Allows (other v.name)) ∧
      k.alternative.gap other = k.alternative.gap values ∧
      other k.on = on ∧ other k.phi = phi ∧ other k.psi = psi := by
  obtain ⟨other, agree, allowed, gap, placed⟩ := exists_placed
    [(.binary k.on, on), (.slack bigM k.phi, phi), (.slack bigM k.psi, psi)]
    (of_equality equality .empty bigM).1.symm nodup unread
    (by simp [allows_binary bit, allows_slack ranges.1, allows_slack ranges.2])
  simp only [List.forall_mem_cons, Variable.binary_name, Variable.slack_name] at placed
  obtain ⟨hon, hphi, hpsi, -⟩ := placed
  exact ⟨other, agree, allowed, gap, hon, hphi, hpsi⟩

theorem exists_inequality_values (inequality : k.alternative.relation ≠ .eq) {on off phi psi : Rat}
    (bits : IsBit on ∧ IsBit off) (ranges : (0 ≤ phi ∧ phi ≤ bigM) ∧ 0 ≤ psi ∧ psi ≤ bigM) :
    ∃ other, Assignment.AgreesOff (k.auxiliaries bigM) values other ∧
      (∀ v ∈ k.auxiliaries bigM, v.Allows (other v.name)) ∧
      k.alternative.gap other = k.alternative.gap values ∧
      other k.on = on ∧ other k.off = off ∧ other k.phi = phi ∧ other k.psi = psi := by
  obtain ⟨other, agree, allowed, gap, placed⟩ := exists_placed
    [(.binary k.on, on), (.binary k.off, off), (.slack bigM k.phi, phi), (.slack bigM k.psi, psi)]
    (of_inequality inequality .empty bigM).1.symm nodup unread
    (by simp [allows_binary bits.1, allows_binary bits.2, allows_slack ranges.1, allows_slack ranges.2])
  simp only [List.forall_mem_cons, Variable.binary_name, Variable.slack_name] at placed
  obtain ⟨hon, hoff, hphi, hpsi, -⟩ := placed
  exact ⟨other, agree, allowed, gap, hon, hoff, hphi, hpsi⟩

variable (small : 0 < d.margin ∧ d.margin ≤ 1 / 2) (big : 2 * d.margin ≤ bigM)
  (reach : |k.alternative.gap values| < bigM)

include small big reach

/-- The slack variable of the side that is violated spans its whole range. -/
theorem exists_fits_equality (equality : k.alternative.relation = .eq) :
    ∃ other, Assignment.AgreesOff (k.auxiliaries bigM) values other ∧ k.Fits d bigM values other := by
  obtain ⟨low, high⟩ := abs_lt.mp reach
  have range : 0 ≤ bigM := by linarith [small.1]
  have true_iff : k.alternative.Holds values ↔ k.alternative.gap values = 0 := by
    rw [Alternative.holds_iff, equality, Relation.exactly_eq]
  rcases lt_trichotomy (k.alternative.gap values) 0 with below | equal | above
  · obtain ⟨other, agree, allowed, gap, hon, hphi, hpsi⟩ :=
      exists_equality_values nodup unread equality (.inl rfl) ⟨⟨range, le_rfl⟩, ⟨le_rfl, range⟩⟩
    refine ⟨other, agree, ?_, allowed, fun holds => absurd (true_iff.mp holds) below.ne⟩
    rw [equality_met equality, hon, hphi, hpsi, gap]
    exact ⟨by linarith, below.le, by linarith [small.1], .inr rfl, .inr rfl, .inl rfl⟩
  · obtain ⟨other, agree, allowed, gap, hon, hphi, hpsi⟩ :=
      exists_equality_values nodup unread equality (.inr rfl) ⟨⟨le_rfl, range⟩, ⟨le_rfl, range⟩⟩
    refine ⟨other, agree, ?_, allowed, fun _ => hon⟩
    rw [equality_met equality, hon, hphi, hpsi, gap]
    exact ⟨by linarith, by linarith, by linarith [small.2], .inl rfl, .inl rfl, .inl rfl⟩
  · obtain ⟨other, agree, allowed, gap, hon, hphi, hpsi⟩ :=
      exists_equality_values nodup unread equality (.inl rfl) ⟨⟨le_rfl, range⟩, ⟨range, le_rfl⟩⟩
    refine ⟨other, agree, ?_, allowed, fun holds => absurd (true_iff.mp holds) above.ne'⟩
    rw [equality_met equality, hon, hphi, hpsi, gap]
    exact ⟨by linarith, high.le, by linarith [small.1], .inl rfl, .inl rfl, .inr rfl⟩

/-- The slack variable of the side that fails, be it the alternative or its complement, spans its whole range. -/
theorem exists_fits_inequality (inequality : k.alternative.relation ≠ .eq ∧ k.alternative.relation ≠ .ne) :
    ∃ other, Assignment.AgreesOff (k.auxiliaries bigM) values other ∧ k.Fits d bigM values other := by
  have range : 0 ≤ bigM := by linarith [small.1]
  have complement : k.alternative.relation.complement ≠ .eq ∧ k.alternative.relation.complement ≠ .ne := by
    cases hr : k.alternative.relation <;> simp_all [Relation.complement]
  by_cases holds : k.alternative.Holds values
  · obtain ⟨other, agree, allowed, gap, hon, hoff, hphi, hpsi⟩ := exists_inequality_values nodup unread
      inequality.1 ⟨.inr rfl, .inl rfl⟩ ⟨⟨le_rfl, range⟩, ⟨range, le_rfl⟩⟩
    refine ⟨other, agree, ?_, allowed, fun _ => hon⟩
    rw [inequality_met inequality.1, hon, hoff, hphi, hpsi, gap]
    refine ⟨add_zero 1, ?_, ?_, by linarith [small.2], by linarith, .inl rfl, .inr rfl⟩
    · rw [mul_zero, add_zero]
      exact Alternative.holds_iff.mp holds
    · rw [sub_eq_add_neg, ← neg_mul, ← slackSign_complement inequality]
      exact covered_exactly complement reach
  · obtain ⟨other, agree, allowed, gap, hon, hoff, hphi, hpsi⟩ := exists_inequality_values nodup unread
      inequality.1 ⟨.inl rfl, .inr rfl⟩ ⟨⟨range, le_rfl⟩, ⟨le_rfl, range⟩⟩
    refine ⟨other, agree, ?_, allowed, fun h => absurd h holds⟩
    rw [inequality_met inequality.1, hon, hoff, hphi, hpsi, gap]
    refine ⟨zero_add 1, covered_exactly inequality reach, ?_, by linarith, by linarith [small.2], ?_, ?_⟩
    · rw [mul_zero, sub_zero, Relation.complement_exactly, ← Alternative.holds_iff]
      exact holds
    · exact .inr rfl
    · exact .inl rfl

theorem exists_fits (noNe : k.alternative.relation ≠ .ne) :
    ∃ other, Assignment.AgreesOff (k.auxiliaries bigM) values other ∧ k.Fits d bigM values other := by
  by_cases equality : k.alternative.relation = .eq
  · exact exists_fits_equality nodup unread small big reach equality
  · exact exists_fits_inequality nodup unread small big reach ⟨equality, noNe⟩

end Fitting

end Choice

section Choices

variable {ks : List (Choice Rat)} (alternatives : ks.map (·.alternative) = d.alternatives)

theorem closing_isLowered : (d.closing ks).IsLowered := rfl

include alternatives

/-- Some indicator is on, and its alternative is true. -/
theorem exists_holds_of_rows (allowed : ∀ v ∈ ks.flatMap (·.auxiliaries bigM), v.Allows (values v.name))
    (met : ∀ r ∈ ks.flatMap (·.rows d bigM) ++ [d.closing ks], r.isSatisfied values 0 = true) :
    ∃ a ∈ d.alternatives, a.Holds values := by
  have each : ∀ k ∈ ks, ∀ v ∈ k.auxiliaries bigM, v.Allows (values v.name) := fun k hk v hv =>
    allowed v (List.mem_flatMap.mpr ⟨k, hk, hv⟩)
  have bits : ∀ k ∈ ks, IsBit (values k.on) := fun k hk => (each k hk _ (k.indicator_mem bigM)).1
  have closed : (d.closing ks).HoldsApart values 0 :=
    closing_isLowered.holdsApart_iff.mpr (met _ (by simp))
  obtain ⟨k, hk, on⟩ := exists_on_of_closing bits zero_lt_one closed
  have rows : ∀ r ∈ k.rows d bigM, r.isSatisfied values 0 = true := fun r hr =>
    met r (List.mem_append_left _ (List.mem_flatMap.mpr ⟨k, hk, hr⟩))
  exact ⟨k.alternative, alternatives ▸ List.mem_map_of_mem hk, (Choice.speaks (each k hk) rows).1 on⟩

/-- Each choice is met by itself, and the indicator of an alternative that is true closes the disjunction. -/
theorem extendsTo_rows (nodup : ((ks.flatMap (·.auxiliaries bigM)).map (·.name)).Nodup)
    (unread : ∀ v ∈ d.occurrences, v.name ∉ (ks.flatMap (·.auxiliaries bigM)).map (·.name))
    (small : 0 < d.margin ∧ d.margin ≤ 1 / 2) (big : 2 * d.margin ≤ bigM)
    (reach : ∀ c ∈ d.disjuncts, |c.gap values| < bigM) (chosen : ∃ a ∈ d.alternatives, a.Holds values) :
    Assignment.ExtendsTo (ks.flatMap (·.auxiliaries bigM)) (ks.flatMap (·.rows d bigM) ++ [d.closing ks])
      values := by
  obtain ⟨other, agree, fits⟩ := exists_joint_choices alternatives nodup unread (fun k => k.Fits d bigM values)
    (fun k _ one two same fits => fits.congr same) (by
      intro k hk distinct untouched one gap
      have alternative : k.alternative ∈ d.alternatives := alternatives ▸ List.mem_map_of_mem hk
      obtain ⟨c, hc, ha⟩ := List.mem_flatMap.mp alternative
      have near : |k.alternative.gap one| < bigM := by
        rw [gap, Alternative.gap_eq ha]
        exact reach c hc
      obtain ⟨two, agree, fits⟩ :=
        Choice.exists_fits distinct untouched small big near (alternative_relation ha)
      refine ⟨two, agree, fits.rows, fits.allowed, fun holds => fits.on ?_⟩
      rw [Alternative.holds_iff] at holds ⊢
      rwa [gap])
  have allowed : ∀ v ∈ ks.flatMap (·.auxiliaries bigM), v.Allows (other v.name) := by
    intro v hv
    obtain ⟨k, hk, hv⟩ := List.mem_flatMap.mp hv
    exact (fits k hk).allowed v hv
  refine ⟨other, agree, allowed, ?_⟩
  intro r hr
  rcases List.mem_append.mp hr with hr | hr
  · obtain ⟨k, hk, hr⟩ := List.mem_flatMap.mp hr
    exact (fits k hk).rows r hr
  · obtain ⟨a, ha, holds⟩ := chosen
    rw [← alternatives] at ha
    obtain ⟨k, hk, rfl⟩ := List.mem_map.mp ha
    have bits : ∀ k ∈ ks, IsBit (other k.on) := fun k hk => ((fits k hk).allowed _ (k.indicator_mem bigM)).1
    have closed : (d.closing ks).HasRoom bigM other := closing_hasRoom bits hk ((fits k hk).on holds)
    rw [List.mem_singleton.mp hr]
    exact closed.isSatisfied closing_isLowered

end Choices

/-- Lowering is exact before strict relations are, wherever the names come from. If they differ, as those of a supply
always do, and no disjunct reads them, then within reach the rows can be met with fitting auxiliaries where a disjunct
holds and nowhere else. In reach or not, an indicator of the closing row is on only where its disjunct holds, and the
one of an inequality, or of a side of `≠`, is on wherever that is true. -/
theorem choices_exact {σ : Type} [NameSource σ] (d : Disjunction Rat) {bigM : Rat} {s t : σ} {ks : List (Choice Rat)}
    (small : 0 < d.margin ∧ d.margin ≤ 1 / 2) (big : 2 * d.margin ≤ bigM) (named : d.choices s = (ks, t)) :
    ks.map (·.alternative) = d.alternatives ∧
    d.lower bigM s =
      (ks.flatMap (·.rows d bigM) ++ [d.row (ks.map fun k => .single 1 k.indicator) .ge 1], t) ∧
    (∀ supply : NameSupply, (((d.choices supply).1.flatMap (·.auxiliaries bigM)).map (·.name)).Nodup) ∧
    (((ks.flatMap (·.auxiliaries bigM)).map (·.name)).Nodup →
      (∀ v ∈ d.occurrences, v.name ∉ (ks.flatMap (·.auxiliaries bigM)).map (·.name)) →
      ∀ values, (∀ c ∈ d.disjuncts, |c.gap values| < bigM) →
        (Assignment.ExtendsTo (ks.flatMap (·.auxiliaries bigM)) (d.lower bigM s).1 values ↔
          d.isSatisfied values 0 = true)) ∧
    ∀ values, (∀ v ∈ ks.flatMap (·.auxiliaries bigM), v.Allows (values v.name)) →
      (∀ r ∈ (d.lower bigM s).1, r.isSatisfied values 0 = true) → ∀ k ∈ ks,
        (values k.on = 1 → ∀ c ∈ d.disjuncts, k.alternative ∈ alternativesOf c →
          c.isSatisfied values 0 = true) ∧
        (k.alternative.relation ≠ .eq → (values k.on = 1 ↔ k.alternative.Holds values)) := by
  have alternatives : ks.map (·.alternative) = d.alternatives := by
    rw [← d.choices_alternatives s, named]
  have lowered : d.lower bigM s = (ks.flatMap (·.rows d bigM) ++ [d.closing ks], t) := by
    rw [lower_eq, NameSource.map_run named]
  refine ⟨alternatives, lowered, ?_, ?_, ?_⟩
  · intro supply
    obtain ⟨ks, t, -, named, drawn⟩ := d.choices_draws bigM supply
    rw [named]
    exact drawn.nodup
  · intro distinct unread values reach
    rw [lowered, isSatisfied_iff]
    constructor
    · rintro ⟨other, agree, allowed, met⟩
      obtain ⟨a, ha, holds⟩ := exists_holds_of_rows alternatives allowed met
      refine ⟨a, ha, ?_⟩
      have gap : a.gap other = a.gap values := by
        have untouched := fun v hv => unread v (alternative_occurrences ha v hv)
        rw [Alternative.gap, agree.sumTerms untouched, Alternative.gap]
      rwa [Alternative.holds_iff, ← gap, ← Alternative.holds_iff]
    · exact extendsTo_rows alternatives distinct unread small big reach
  · intro values allowed met k hk
    rw [lowered] at met
    have rows : ∀ r ∈ k.rows d bigM, r.isSatisfied values 0 = true := fun r hr =>
      met r (List.mem_append_left _ (List.mem_flatMap.mpr ⟨k, hk, hr⟩))
    obtain ⟨true_of_on, on_iff⟩ :=
      Choice.speaks (fun v hv => allowed v (List.mem_flatMap.mpr ⟨k, hk, hv⟩)) rows
    exact ⟨fun on c _ ha => isSatisfied_of_alternative ha (true_of_on on), on_iff⟩

/-- An inequality, an equality and a value to stay away from. -/
def miscellaneous : Disjunction Rat :=
  ⟨[.ofLinear [.single 1 (.real "x")] .ge 4 defaultMargin, .ofLinear [.single 1 (.real "x")] .ne 1 defaultMargin,
    .ofLinear [.single 1 (.real "y")] .eq 2 defaultMargin], 1 / 4⟩

theorem miscellaneous_exact :
    let s : NameSupply := ⟨["x", "y"], 1⟩
    ∃ ks t, miscellaneous.choices s = (ks, t) ∧
      Assignment.ExtendsTo (ks.flatMap (·.auxiliaries 10)) (miscellaneous.lower 10 s).1
        (fun name => if name = "x" then 1 else 2) ∧
      ¬Assignment.ExtendsTo (ks.flatMap (·.auxiliaries 10)) (miscellaneous.lower 10 s).1
        (fun name => if name = "x" then 1 else 3) := by
  intro s
  obtain ⟨ks, t, -, named, drawn⟩ := miscellaneous.choices_draws 10 s
  have taken : ∀ v ∈ miscellaneous.occurrences, v.name ∈ ["x", "y"] := by decide +kernel
  have reaching : 2 * miscellaneous.margin ≤ 10 := by decide +kernel
  obtain ⟨-, -, distinct, exact_there, -⟩ := choices_exact miscellaneous (by decide +kernel) reaching named
  have differ := distinct s
  rw [named] at differ
  have extends_iff := exact_there differ fun v hv => drawn.unread (taken v hv)
  have reach (y : Rat) (hy : y = 2 ∨ y = 3) :
      ∀ c ∈ miscellaneous.disjuncts, |c.gap fun name => if name = "x" then 1 else y| < 10 := by
    simp only [← Scalar.abs_rat]
    rcases hy with rfl | rfl
    · decide +kernel
    · decide +kernel
  refine ⟨ks, t, named, ?_, ?_⟩
  · rw [extends_iff _ (reach 2 (.inl rfl))]
    decide +kernel
  · rw [extends_iff _ (reach 3 (.inr rfl))]
    decide +kernel

end Disjunction
end MixedInteger
