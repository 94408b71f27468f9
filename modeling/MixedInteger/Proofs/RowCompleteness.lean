import Mathlib.Algebra.Order.Ring.Rat
import Mathlib.Algebra.Order.BigOperators.Group.List
import Mathlib.Logic.Function.Basic
import MixedInteger.Proofs.Room

/-!
Values with room for a constraint extend to its rows, on its auxiliaries only.
-/

namespace MixedInteger

/-- Only these variables have other values. -/
def Assignment.AgreesOff (vs : List (Variable Rat)) (values other : Assignment Rat) : Prop :=
  ∀ name, name ∉ vs.map (·.name) → other name = values name

/-- With fitting values of these variables, and all others as they are, the rows are satisfied. -/
def Assignment.ExtendsTo (vs : List (Variable Rat)) (rows : List (Constraint Rat))
    (values : Assignment Rat) : Prop :=
  ∃ other, AgreesOff vs values other ∧ (∀ v ∈ vs, v.Allows (other v.name)) ∧
    ∀ r ∈ rows, r.isSatisfied other 0 = true

/-- Items that set variables of their own, and read nothing else that any of them sets, can all be met at
once: each keeps what it met while the others follow. -/
theorem Assignment.exists_joint {ι : Type} (items : List ι) (drawn reads : ι → List (Variable Rat))
    (meets : ι → Assignment Rat → Prop) (fixed : String → Prop) (values : Assignment Rat)
    (nodup : ((items.flatMap drawn).map (·.name)).Nodup)
    (new : ∀ v ∈ items.flatMap drawn, ¬fixed v.name)
    (own : ∀ i ∈ items, ∀ v ∈ reads i, v ∈ drawn i ∨ fixed v.name)
    (congr : ∀ i ∈ items, ∀ one two : Assignment Rat, (∀ v ∈ reads i, two v.name = one v.name) →
      meets i one → meets i two)
    (alone : ∀ i ∈ items, ((drawn i).map (·.name)).Nodup → ∀ one : Assignment Rat,
      (∀ name, fixed name → one name = values name) →
        ∃ two, AgreesOff (drawn i) one two ∧ meets i two) :
    ∃ all, AgreesOff (items.flatMap drawn) values all ∧ ∀ i ∈ items, meets i all := by
  induction items with
  | nil => exact ⟨values, fun _ _ => rfl, by simp⟩
  | cons i items ih =>
    rw [List.flatMap_cons, List.map_append] at nodup
    obtain ⟨first, rest, disjoint⟩ := List.nodup_append.mp nodup
    obtain ⟨one, agree, met⟩ := ih rest
      (fun v hv => new v (List.mem_append_right _ hv))
      (fun j hj => own j (List.mem_cons_of_mem _ hj))
      (fun j hj => congr j (List.mem_cons_of_mem _ hj))
      (fun j hj => alone j (List.mem_cons_of_mem _ hj))
    have unset : ∀ name, fixed name → ∀ j ∈ i :: items, name ∉ (drawn j).map (·.name) := by
      intro name hf j hj hm
      obtain ⟨v, hv, rfl⟩ := List.mem_map.mp hm
      exact new v (List.mem_flatMap.mpr ⟨j, hj, hv⟩) hf
    obtain ⟨two, agree', met'⟩ := alone i List.mem_cons_self first one (by
      intro name hf
      apply agree
      intro hm
      obtain ⟨v, hv, rfl⟩ := List.mem_map.mp hm
      exact new v (List.mem_append_right _ hv) hf)
    refine ⟨two, ?_, ?_⟩
    · intro name hn
      rw [List.flatMap_cons, List.map_append, List.mem_append, not_or] at hn
      rw [agree' name hn.1, agree name hn.2]
    · intro j hj
      rcases List.mem_cons.mp hj with rfl | hm
      · exact met'
      · apply congr j hj one two _ (met j hm)
        intro v hv
        apply agree'
        rcases own j hj v hv with hd | hf
        · intro hi
          exact disjoint _ hi _ (List.mem_map_of_mem (List.mem_flatMap.mpr ⟨j, hm, hd⟩)) rfl
        · exact unset _ hf i List.mem_cons_self

/-- Variables of different names can be set to anything. -/
theorem Assignment.exists_setting (settings : List (Variable Rat × Rat))
    (nodup : ((settings.map (·.1)).map (·.name)).Nodup) (values : Assignment Rat) :
    ∃ other, AgreesOff (settings.map (·.1)) values other ∧ ∀ s ∈ settings, other s.1.name = s.2 := by
  have singles : settings.flatMap (fun s => [s.1]) = settings.map (·.1) := List.map_eq_flatMap.symm
  have disjoint : ∀ v ∈ settings.flatMap (fun s => [s.1]),
      ¬v.name ∉ (settings.map (·.1)).map (·.name) := by
    intro v hv hf
    rw [singles] at hv
    exact hf (List.mem_map_of_mem hv)
  obtain ⟨other, agree, met⟩ := exists_joint settings (fun s => [s.1]) (fun s => [s.1])
    (fun s one => one s.1.name = s.2) (fun name => name ∉ (settings.map (·.1)).map (·.name)) values
    (by rwa [singles]) disjoint (fun s _ v hv => .inl hv)
    (by
      intro s _ one two same h
      rw [same _ List.mem_cons_self, h])
    (by
      intro s _ _ one _
      refine ⟨Function.update one s.1.name s.2, ?_, Function.update_self ..⟩
      intro name hn
      exact Function.update_of_ne (by simpa using hn) ..)
  exact ⟨other, singles ▸ agree, met⟩

section Rows

variable {values : Assignment Rat} {bigM : Rat}

theorem Assignment.AgreesOff.sumTerms {vs : List (Variable Rat)} {values other : Assignment Rat}
    (agree : AgreesOff vs values other) {lhs : List (Term Rat)}
    (unread : ∀ v ∈ lhs.flatMap Term.occurrences, v.name ∉ vs.map (·.name)) :
    MixedInteger.sumTerms lhs other = MixedInteger.sumTerms lhs values :=
  sumTerms_congr fun v hv => agree v.name (unread v hv)

theorem allows_binary {name : String} {x : Rat} (h : IsBit x) : (Variable.binary name).Allows x := by
  change IsBit x ∧ (0 : Rat) ≤ x ∧ x ≤ 1
  refine ⟨h, h.nonneg, ?_⟩
  rcases h with rfl | rfl
  · exact zero_le_one
  · exact le_rfl

theorem allows_slack {name : String} {x : Rat} (h : 0 ≤ x ∧ x ≤ bigM) :
    (Variable.slack bigM name).Allows x :=
  ⟨h, h⟩

theorem Comparison.hasRoom_iff {c : Comparison Rat} (h : c.relation ≠ .ne) :
    c.HasRoom bigM values ↔ c.relation.HoldsApart (c.gap values) c.margin 0 := by
  rw [← holdsApart_iff h]
  exact ⟨fun room => room.holds, fun holds => ⟨holds, fun hn => absurd hn h⟩⟩

namespace Disjunction

theorem row_hasRoom {d : Disjunction Rat} {lhs : List (Term Rat)} {relation : Relation} {rhs : Rat}
    (h : relation ≠ .ne) : (d.row lhs relation rhs).HasRoom bigM values ↔
      relation.HoldsApart (sumTerms lhs values - rhs) d.margin 0 :=
  Comparison.hasRoom_iff h

theorem exclusive_hasRoom {d : Disjunction Rat} {members : List (Variable Rat)}
    (exclusive : members.Pairwise fun v w => values v.name = 0 ∨ values w.name = 0)
    (reach : ∀ v ∈ members, |values v.name| ≤ bigM) :
    (d.exclusive bigM members).HasRoom bigM values := by
  refine ⟨Sos1.isSatisfied_iff_pairwise.mpr (exclusive.imp ?_), fun v hv _ => reach v hv⟩
  intro v w zero
  exact zero.imp (fun h => by rw [h, abs_zero]) (fun h => by rw [h, abs_zero])

theorem slackSign_complement {r : Relation} (h : r ≠ .eq ∧ r ≠ .ne) :
    (slackSign r.complement : Rat) = -slackSign r := by
  cases r with
  | eq => exact absurd rfl h.1
  | ne => exact absurd rfl h.2
  | lt | le | ge | gt => simp [slackSign, Relation.complement]

/-- A slack variable that covers the gap and a margin makes up for any violation. -/
theorem covered_row {r : Relation} (h : r ≠ .eq ∧ r ≠ .ne) {gap margin cover : Rat} (pos : 0 < margin)
    (covers : |gap| + margin ≤ cover) : r.HoldsApart (gap + slackSign r * cover) margin 0 := by
  have high := le_abs_self gap
  have low := neg_le_abs gap
  cases r with
  | eq => exact absurd rfl h.1
  | ne => exact absurd rfl h.2
  | lt | le | ge | gt =>
    simp only [Relation.HoldsApart, slackSign]
    linarith

/-- What an unused slack variable is set to. -/
def cover (gap margin : Rat) : Rat := max (|gap| + margin) (2 * margin)

theorem cover_bounds {gap margin : Rat} (big : 1 ≤ bigM) (small : 0 < margin ∧ margin ≤ 1 / 2)
    (reach : |gap| ≤ bigM - margin) :
    |gap| + margin ≤ cover gap margin ∧ 2 * margin ≤ cover gap margin ∧ cover gap margin ≤ bigM := by
  refine ⟨le_max_left _ _, le_max_right _ _, max_le ?_ ?_⟩
  · linarith
  · linarith [small.2]

variable {d : Disjunction Rat} {a : Alternative Rat}

/-- The rows of a side that is on: its slack variable is unused and the other one covers. -/
theorem inequalityRows_hasRoom {on off phi psi : Variable Rat}
    (inequality : a.relation ≠ .eq ∧ a.relation ≠ .ne) (big : 1 ≤ bigM)
    (small : 0 < d.margin ∧ d.margin ≤ 1 / 2)
    (reach : |a.gap values| ≤ bigM - d.margin)
    (sides : values on.name = 1 ∧ values off.name = 0 ∧ values phi.name = 0 ∧
        values psi.name = cover (a.gap values) d.margin ∧ a.HoldsApart values d.margin 0 ∨
      values on.name = 0 ∧ values off.name = 1 ∧ values phi.name = cover (a.gap values) d.margin ∧
        values psi.name = 0 ∧ a.FailsApart values d.margin 0) :
    ∀ r ∈ d.inequalityRows bigM a on off phi psi, r.HasRoom bigM values := by
  have other : a.relation.complement ≠ .eq ∧ a.relation.complement ≠ .ne := by
    cases hr : a.relation <;> simp_all [Relation.complement]
  obtain ⟨covers, twice, within⟩ := cover_bounds big small reach
  have covered : |cover (a.gap values) d.margin| ≤ bigM := by
    rwa [abs_of_nonneg (by linarith [small.1])]
  have shifted (x : Rat) : sumTerms a.lhs values + x - a.rhs = a.gap values + x := by
    rw [Alternative.gap]
    ring
  simp only [inequalityRows, List.forall_mem_cons, List.not_mem_nil, false_implies, implies_true, and_true,
    row_hasRoom inequality.2, row_hasRoom other.2, row_hasRoom (show Relation.eq ≠ .ne by decide),
    row_hasRoom (show Relation.ge ≠ .ne by decide), Comparison.plusAuxiliary, sumTerms_append, sumTerms_cons,
    sumTerms_nil, Term.eval_single, add_zero, one_mul, Scalar.two_rat, shifted]
  rcases sides with ⟨hon, hoff, hphi, hpsi, holds⟩ | ⟨hon, hoff, hphi, hpsi, fails⟩
  all_goals
    rw [hon, hoff, hphi, hpsi]
    refine ⟨by simp [Relation.HoldsApart], ?_, ?_, ?_, ?_, ?_, ?_⟩
  · simpa [Alternative.HoldsApart] using holds
  · rw [← slackSign_complement inequality]
    exact covered_row other small.1 covers
  · simp only [Relation.HoldsApart]
    linarith [small.2]
  · simp only [Relation.HoldsApart]
    linarith
  · apply exclusive_hasRoom (List.pairwise_pair.mpr (.inl hphi))
    simpa [hphi, hon] using ⟨zero_le_one.trans big, big⟩
  · apply exclusive_hasRoom (List.pairwise_pair.mpr (.inr hoff))
    simpa [hpsi, hoff] using ⟨covered, zero_le_one.trans big⟩
  · exact covered_row inequality small.1 covers
  · simpa [Alternative.FailsApart] using fails
  · simp only [Relation.HoldsApart]
    linarith
  · simp only [Relation.HoldsApart]
    linarith [small.2]
  · apply exclusive_hasRoom (List.pairwise_pair.mpr (.inr hon))
    simpa [hphi, hon] using ⟨covered, zero_le_one.trans big⟩
  · apply exclusive_hasRoom (List.pairwise_pair.mpr (.inl hpsi))
    simpa [hpsi, hoff] using ⟨zero_le_one.trans big, big⟩

/-- The rows of an equality: the indicator is on when both sides agree, else the slack variable of the side
that is violated covers. -/
theorem equalityRows_hasRoom {on phi psi : Variable Rat} (big : 1 ≤ bigM)
    (small : 0 < d.margin ∧ d.margin ≤ 1 / 2) (reach : |a.gap values| ≤ bigM - d.margin)
    (sides : values on.name = 1 ∧ values phi.name = 0 ∧ values psi.name = 0 ∧ a.gap values = 0 ∨
      values on.name = 0 ∧ values phi.name = cover (a.gap values) d.margin ∧ values psi.name = 0 ∧
        a.gap values ≤ 0 ∨
      values on.name = 0 ∧ values phi.name = 0 ∧ values psi.name = cover (a.gap values) d.margin ∧
        0 ≤ a.gap values) :
    ∀ r ∈ d.equalityRows bigM a on phi psi, r.HasRoom bigM values := by
  obtain ⟨covers, twice, within⟩ := cover_bounds big small reach
  have covered : |cover (a.gap values) d.margin| ≤ bigM := by
    rwa [abs_of_nonneg (by linarith [small.1])]
  have shifted (x : Rat) : sumTerms a.lhs values + x - a.rhs = a.gap values + x := by
    rw [Alternative.gap]
    ring
  have high := le_abs_self (a.gap values)
  have low := neg_le_abs (a.gap values)
  have reaches (one two three : Variable Rat)
      (h : ∀ v ∈ [one, two, three], |values v.name| ≤ bigM)
      (zero : values one.name = 0 ∧ (values two.name = 0 ∨ values three.name = 0) ∨
        values two.name = 0 ∧ values three.name = 0) :
      (d.exclusive bigM [one, two, three]).HasRoom bigM values := by
    apply exclusive_hasRoom _ h
    simp only [List.pairwise_cons, List.mem_cons, List.not_mem_nil, or_false, forall_eq_or_imp, forall_eq,
      false_implies, implies_true, List.Pairwise.nil, and_true]
    tauto
  simp only [equalityRows, List.forall_mem_cons, List.not_mem_nil, false_implies, implies_true, and_true,
    row_hasRoom (show Relation.ge ≠ .ne by decide), row_hasRoom (show Relation.le ≠ .ne by decide),
    row_hasRoom (show Relation.gt ≠ .ne by decide), Comparison.plusAuxiliary, sumTerms_append, sumTerms_cons,
    sumTerms_nil, Term.eval_single, add_zero, one_mul, neg_mul, shifted, Relation.HoldsApart]
  have unit := zero_le_one.trans big
  rcases sides with ⟨hon, hphi, hpsi, gap⟩ | ⟨hon, hphi, hpsi, gap⟩ | ⟨hon, hphi, hpsi, gap⟩
  all_goals
    rw [hon, hphi, hpsi]
    refine ⟨by linarith, by linarith, by linarith [small.2], ?_⟩
  · exact reaches _ _ _ (by simp [hon, hphi, hpsi, big, unit]) (.inl ⟨hphi, .inl hpsi⟩)
  · exact reaches _ _ _ (by simp [hon, hphi, hpsi, covered, unit]) (.inr ⟨hpsi, hon⟩)
  · exact reaches _ _ _ (by simp [hon, hphi, hpsi, covered, unit]) (.inl ⟨hphi, .inr hon⟩)

namespace Choice

variable {k : Choice Rat}

/-- What the auxiliaries of a choice are for: its rows follow, and the indicator is on where the alternative
holds. -/
structure Met (k : Choice Rat) (d : Disjunction Rat) (bigM : Rat) (values other : Assignment Rat) : Prop where
  rows : ∀ r ∈ k.rows d bigM, r.HasRoom bigM other
  allowed : ∀ v ∈ k.auxiliaries bigM, v.Allows (other v.name)
  on : k.alternative.HoldsApart values d.margin 0 → other k.on = 1

/-- Values for the auxiliaries of a choice, good for whatever else changes beside them. -/
structure Settles (k : Choice Rat) (d : Disjunction Rat) (bigM : Rat) (values : Assignment Rat)
    (settings : List (Variable Rat × Rat)) : Prop where
  drawn : settings.map (·.1) = k.auxiliaries bigM
  allowed : ∀ s ∈ settings, s.1.Allows s.2
  rows : ∀ other : Assignment Rat, k.alternative.gap other = k.alternative.gap values →
    (∀ s ∈ settings, other s.1.name = s.2) → ∀ r ∈ k.rows d bigM, r.HasRoom bigM other
  on : k.alternative.HoldsApart values d.margin 0 → (.binary k.on, 1) ∈ settings

theorem Met.congr {one two : Assignment Rat} (h : k.Met d bigM values one)
    (same : ∀ v ∈ k.alternative.lhs.flatMap Term.occurrences ++ k.auxiliaries bigM,
      two v.name = one v.name) : k.Met d bigM values two := by
  refine ⟨?_, ?_, ?_⟩
  · intro r hr
    apply (h.rows r hr).congr
    intro v hv
    exact same v (List.mem_append.mpr (k.rows_occurrences d bigM r hr v hv))
  · intro v hv
    rw [same v (List.mem_append_right _ hv)]
    exact h.allowed v hv
  · intro holds
    exact (same k.indicator (List.mem_append_right _ (k.indicator_mem bigM))).trans (h.on holds)

theorem allows_on (name : String) : (Variable.binary name).Allows (1 : Rat) := allows_binary (.inr rfl)

theorem allows_off (name : String) : (Variable.binary name).Allows (0 : Rat) := allows_binary (.inl rfl)

theorem allows_unused (big : 1 ≤ bigM) (name : String) : (Variable.slack bigM name).Allows 0 :=
  allows_slack ⟨le_rfl, zero_le_one.trans big⟩

theorem allows_cover (big : 1 ≤ bigM) (small : 0 < d.margin ∧ d.margin ≤ 1 / 2) {gap : Rat}
    (reach : |gap| ≤ bigM - d.margin) (name : String) :
    (Variable.slack bigM name).Allows (cover gap d.margin) := by
  obtain ⟨covers, twice, within⟩ := cover_bounds big small reach
  exact allows_slack ⟨by linarith [small.1], within⟩

/-- The side on which the gap lies decides which slack variable of an equality covers. -/
theorem exists_settings_equality (equality : k.alternative.relation = .eq) (big : 1 ≤ bigM)
    (small : 0 < d.margin ∧ d.margin ≤ 1 / 2) (reach : |k.alternative.gap values| ≤ bigM - d.margin) :
    ∃ settings, k.Settles d bigM values settings := by
  obtain ⟨drawn, rows⟩ := of_equality equality d bigM
  have on := allows_on k.on
  have off := allows_off k.on
  have unused := allows_unused big
  have covered := allows_cover big small reach
  have holds_iff : k.alternative.HoldsApart values d.margin 0 ↔ k.alternative.gap values = 0 := by
    simp [Alternative.HoldsApart, equality, Relation.HoldsApart]
  rcases lt_trichotomy (k.alternative.gap values) 0 with below | agree | above
  · refine ⟨[(.binary k.on, 0), (.slack bigM k.phi, cover (k.alternative.gap values) d.margin),
      (.slack bigM k.psi, 0)], drawn.symm, by simp [off, covered, unused], ?_,
      fun holds => absurd (holds_iff.mp holds) below.ne⟩
    intro other gap placed
    simp only [List.forall_mem_cons] at placed
    obtain ⟨hon, hphi, hpsi, -⟩ := placed
    rw [rows]
    apply equalityRows_hasRoom big small (by rwa [gap])
    rw [gap]
    exact .inr (.inl ⟨hon, hphi, hpsi, below.le⟩)
  · refine ⟨[(.binary k.on, 1), (.slack bigM k.phi, 0), (.slack bigM k.psi, 0)], drawn.symm,
      by simp [on, unused], ?_, fun _ => List.mem_cons_self⟩
    intro other gap placed
    simp only [List.forall_mem_cons] at placed
    obtain ⟨hon, hphi, hpsi, -⟩ := placed
    rw [rows]
    apply equalityRows_hasRoom big small (by rwa [gap])
    rw [gap]
    exact .inl ⟨hon, hphi, hpsi, agree⟩
  · refine ⟨[(.binary k.on, 0), (.slack bigM k.phi, 0),
      (.slack bigM k.psi, cover (k.alternative.gap values) d.margin)], drawn.symm,
      by simp [off, covered, unused], ?_, fun holds => absurd (holds_iff.mp holds) above.ne'⟩
    intro other gap placed
    simp only [List.forall_mem_cons] at placed
    obtain ⟨hon, hphi, hpsi, -⟩ := placed
    rw [rows]
    apply equalityRows_hasRoom big small (by rwa [gap])
    rw [gap]
    exact .inr (.inr ⟨hon, hphi, hpsi, above.le⟩)

/-- An inequality that holds leaves its complement to be covered, and the other way round. -/
theorem exists_settings_inequality
    (inequality : k.alternative.relation ≠ .eq ∧ k.alternative.relation ≠ .ne) (big : 1 ≤ bigM)
    (small : 0 < d.margin ∧ d.margin ≤ 1 / 2)
    (reach : |k.alternative.gap values| ≤ bigM - d.margin)
    (clear : k.alternative.HoldsApart values d.margin 0 ∨ k.alternative.FailsApart values d.margin 0) :
    ∃ settings, k.Settles d bigM values settings := by
  obtain ⟨drawn, rows⟩ := of_inequality inequality.1 d bigM
  have on := allows_on
  have off := allows_off
  have unused := allows_unused big
  have covered := allows_cover big small reach
  by_cases holds : k.alternative.HoldsApart values d.margin 0
  · refine ⟨[(.binary k.on, 1), (.binary k.off, 0), (.slack bigM k.phi, 0),
      (.slack bigM k.psi, cover (k.alternative.gap values) d.margin)], drawn.symm,
      by simp [on, off, covered, unused], ?_, fun _ => List.mem_cons_self⟩
    intro other gap placed
    simp only [List.forall_mem_cons] at placed
    obtain ⟨hon, hoff, hphi, hpsi, -⟩ := placed
    rw [rows]
    apply inequalityRows_hasRoom inequality big small (by rwa [gap])
    rw [Alternative.HoldsApart, gap]
    exact .inl ⟨hon, hoff, hphi, hpsi, holds⟩
  · refine ⟨[(.binary k.on, 0), (.binary k.off, 1),
      (.slack bigM k.phi, cover (k.alternative.gap values) d.margin), (.slack bigM k.psi, 0)], drawn.symm,
      by simp [on, off, covered, unused], ?_, fun h => absurd h holds⟩
    intro other gap placed
    simp only [List.forall_mem_cons] at placed
    obtain ⟨hon, hoff, hphi, hpsi, -⟩ := placed
    rw [rows]
    apply inequalityRows_hasRoom inequality big small (by rwa [gap])
    rw [Alternative.FailsApart, gap]
    exact .inr ⟨hon, hoff, hphi, hpsi, clear.resolve_left holds⟩

/-- Auxiliaries can be set to anything, and the alternative does not notice. -/
theorem exists_placed (settings : List (Variable Rat × Rat)) (drawn : settings.map (·.1) = k.auxiliaries bigM)
    (nodup : ((k.auxiliaries bigM).map (·.name)).Nodup)
    (unread : ∀ v ∈ k.alternative.lhs.flatMap Term.occurrences,
      v.name ∉ (k.auxiliaries bigM).map (·.name))
    (allowed : ∀ s ∈ settings, s.1.Allows s.2) :
    ∃ other, Assignment.AgreesOff (k.auxiliaries bigM) values other ∧
      (∀ v ∈ k.auxiliaries bigM, v.Allows (other v.name)) ∧
      k.alternative.gap other = k.alternative.gap values ∧ ∀ s ∈ settings, other s.1.name = s.2 := by
  rw [← drawn] at nodup unread ⊢
  obtain ⟨other, agree, placed⟩ := Assignment.exists_setting settings nodup values
  refine ⟨other, agree, ?_, ?_, placed⟩
  · intro v hv
    obtain ⟨s, hs, rfl⟩ := List.mem_map.mp hv
    rw [placed s hs]
    exact allowed s hs
  · rw [Alternative.gap, agree.sumTerms unread, Alternative.gap]

/-- An alternative that holds or fails clearly has its rows met, with the indicator on if it holds. -/
theorem complete (noNe : k.alternative.relation ≠ .ne) (big : 1 ≤ bigM)
    (small : 0 < d.margin ∧ d.margin ≤ 1 / 2) (nodup : ((k.auxiliaries bigM).map (·.name)).Nodup)
    (unread : ∀ v ∈ k.alternative.lhs.flatMap Term.occurrences,
      v.name ∉ (k.auxiliaries bigM).map (·.name))
    (reach : |k.alternative.gap values| ≤ bigM - d.margin)
    (clear : k.alternative.relation ≠ .eq →
      k.alternative.HoldsApart values d.margin 0 ∨ k.alternative.FailsApart values d.margin 0) :
    ∃ other, Assignment.AgreesOff (k.auxiliaries bigM) values other ∧ k.Met d bigM values other := by
  have settled : ∃ settings, k.Settles d bigM values settings := by
    by_cases equality : k.alternative.relation = .eq
    · exact exists_settings_equality equality big small reach
    · exact exists_settings_inequality ⟨equality, noNe⟩ big small reach (clear equality)
  obtain ⟨settings, drawn, fitting, rows, on⟩ := settled
  obtain ⟨other, agree, allowed, gap, placed⟩ := exists_placed settings drawn nodup unread fitting
  exact ⟨other, agree, rows other gap placed, allowed, fun holds => placed _ (on holds)⟩

end Choice

/-- One indicator that is on closes the disjunction. -/
theorem closing_hasRoom {ks : List (Choice Rat)} (bits : ∀ k ∈ ks, IsBit (values k.on)) {k : Choice Rat}
    (hk : k ∈ ks) (on : values k.on = 1) : (d.closing ks).HasRoom bigM values := by
  have nonneg : ∀ x ∈ ks.map fun k => values k.on, 0 ≤ x := by
    intro x hx
    obtain ⟨k, hk, rfl⟩ := List.mem_map.mp hx
    exact (bits k hk).nonneg
  have least := List.single_le_sum nonneg _ (List.mem_map_of_mem hk)
  rw [on] at least
  refine (row_hasRoom (by decide)).mpr ?_
  rw [sumTerms_map_weighted, one_mul]
  change -0 ≤ (ks.map fun k => values k.on).sum - 1
  linarith

/-- Choices are met one by one: each sets its own auxiliaries, and the gap it reads is left as it was. -/
theorem exists_joint_choices {ks : List (Choice Rat)} (choices : ks.map (·.alternative) = d.alternatives)
    (nodup : ((ks.flatMap (·.auxiliaries bigM)).map (·.name)).Nodup)
    (unread : ∀ v ∈ d.occurrences, v.name ∉ (ks.flatMap (·.auxiliaries bigM)).map (·.name))
    (meets : Choice Rat → Assignment Rat → Prop)
    (congr : ∀ k ∈ ks, ∀ one two : Assignment Rat,
      (∀ v ∈ k.alternative.lhs.flatMap Term.occurrences ++ k.auxiliaries bigM, two v.name = one v.name) →
        meets k one → meets k two)
    (alone : ∀ k ∈ ks, ((k.auxiliaries bigM).map (·.name)).Nodup →
      (∀ v ∈ k.alternative.lhs.flatMap Term.occurrences, v.name ∉ (k.auxiliaries bigM).map (·.name)) →
        ∀ one, k.alternative.gap one = k.alternative.gap values →
          ∃ two, Assignment.AgreesOff (k.auxiliaries bigM) one two ∧ meets k two) :
    ∃ all, Assignment.AgreesOff (ks.flatMap (·.auxiliaries bigM)) values all ∧ ∀ k ∈ ks, meets k all := by
  let reads (k : Choice Rat) := k.alternative.lhs.flatMap Term.occurrences ++ k.auxiliaries bigM
  have untouched {k : Choice Rat} (hk : k ∈ ks) : ∀ v ∈ k.alternative.lhs.flatMap Term.occurrences,
      v.name ∉ (ks.flatMap (·.auxiliaries bigM)).map (·.name) := fun v hv =>
    unread v (alternative_occurrences (choices ▸ List.mem_map_of_mem hk) v hv)
  have own : ∀ k ∈ ks, ∀ v ∈ reads k, v ∈ k.auxiliaries bigM ∨
      v.name ∉ (ks.flatMap (·.auxiliaries bigM)).map (·.name) := by
    intro k hk v hv
    rcases List.mem_append.mp hv with hv | hv
    · exact .inr (untouched hk v hv)
    · exact .inl hv
  apply Assignment.exists_joint ks (·.auxiliaries bigM) reads meets
    (fun name => name ∉ (ks.flatMap (·.auxiliaries bigM)).map (·.name)) values nodup
    (fun v hv fixed => fixed (List.mem_map_of_mem hv)) own congr
  -- Whatever the other choices set, this one reads the gap it had at first.
  intro k hk distinct one fixed
  apply alone k hk distinct
  · intro v hv hm
    obtain ⟨u, hu, he⟩ := List.mem_map.mp hm
    exact untouched hk v hv (List.mem_map.mpr ⟨u, List.mem_flatMap.mpr ⟨k, hk, hu⟩, he⟩)
  · rw [Alternative.gap, sumTerms_congr fun v hv => fixed _ (untouched hk v hv), Alternative.gap]

/-- An alternative has the gap of its disjunct. -/
theorem Alternative.gap_eq {c : Comparison Rat} (h : a ∈ alternativesOf c) : a.gap values = c.gap values := by
  rw [Alternative.gap, (alternative_sides h).1, (alternative_sides h).2, Comparison.gap, Comparison.evalLhs]

/-- The choices are met one by one, and the indicator of an alternative that holds closes the disjunction. -/
theorem lower_complete {ks : List (Choice Rat)} (choices : ks.map (·.alternative) = d.alternatives)
    (big : 1 ≤ bigM) (nodup : ((ks.flatMap (·.auxiliaries bigM)).map (·.name)).Nodup)
    (unread : ∀ v ∈ d.occurrences, v.name ∉ (ks.flatMap (·.auxiliaries bigM)).map (·.name))
    (room : d.HasRoom bigM values) :
    ∃ other, Assignment.AgreesOff (ks.flatMap (·.auxiliaries bigM)) values other ∧
      (∀ r ∈ ks.flatMap (·.rows d bigM) ++ [d.closing ks], r.HasRoom bigM other) ∧
      ∀ v ∈ ks.flatMap (·.auxiliaries bigM), v.Allows (other v.name) := by
  have held := holdsApart_zero_iff.mpr ⟨room.chosen, room.clear⟩
  obtain ⟨other, agree, met⟩ := exists_joint_choices choices nodup unread
    (fun k => k.Met d bigM values) (fun k _ one two same met => met.congr same) (by
      intro k hk distinct unread one gap
      have alternative : k.alternative ∈ d.alternatives := choices ▸ List.mem_map_of_mem hk
      obtain ⟨c, hc, ha⟩ := List.mem_flatMap.mp alternative
      have reach : |k.alternative.gap one| ≤ bigM - d.margin := by
        rw [gap, Alternative.gap_eq ha]
        exact room.reach c hc
      have clear := held.clear _ alternative
      simp only [Alternative.HoldsApart, Alternative.FailsApart, ← gap] at clear
      obtain ⟨two, agree, met⟩ :=
        Choice.complete (alternative_relation ha) big room.margin distinct unread reach clear
      refine ⟨two, agree, met.rows, met.allowed, ?_⟩
      intro holds
      apply met.on
      rwa [Alternative.HoldsApart, gap])
  refine ⟨other, agree, ?_, ?_⟩
  · intro r hr
    rcases List.mem_append.mp hr with hr | hr
    · obtain ⟨k, hk, hr⟩ := List.mem_flatMap.mp hr
      exact (met k hk).rows r hr
    · obtain ⟨a, ha, holds⟩ := held.chosen
      rw [← choices] at ha
      obtain ⟨k, hk, rfl⟩ := List.mem_map.mp ha
      rw [List.mem_singleton.mp hr]
      refine closing_hasRoom ?_ hk ((met k hk).on holds)
      intro k hk
      exact ((met k hk).allowed _ (k.indicator_mem bigM)).1
  · intro v hv
    obtain ⟨k, hk, hv⟩ := List.mem_flatMap.mp hv
    exact (met k hk).allowed v hv

end Disjunction

/-- The rows of `≠`: the slack variable of the side that fails spans the gap and a margin. -/
theorem Comparison.separation_hasRoom {c : Comparison Rat} {above below : Variable Rat}
    (pos : 0 < c.margin) (reach : |c.gap values| ≤ bigM - c.margin)
    (sides : values above.name = 0 ∧ values below.name = c.gap values + c.margin ∧
        c.margin ≤ c.gap values ∨
      values above.name = c.margin - c.gap values ∧ values below.name = 0 ∧ c.gap values ≤ -c.margin) :
    ∀ r ∈ c.separation bigM above below, r.HasRoom bigM values := by
  have row {lhs : List (Term Rat)} {relation : Relation} {rhs : Rat} (h : relation ≠ .ne) :
      (Constraint.comparison (c.derived lhs relation rhs)).HasRoom bigM values ↔
        relation.HoldsApart (sumTerms lhs values - rhs) c.margin 0 := hasRoom_iff h
  have split : sumTerms c.lhs values = c.gap values + c.rhs := by
    rw [gap, evalLhs]
    ring
  obtain ⟨low, high⟩ := abs_le.mp reach
  simp only [separation, List.forall_mem_cons, List.not_mem_nil, false_implies, implies_true, and_true,
    row (show Relation.ge ≠ .ne by decide), row (show Relation.le ≠ .ne by decide), plusAuxiliary,
    sumTerms_append, sumTerms_cons, sumTerms_nil, Term.eval_single, add_zero, one_mul, neg_mul, split,
    Relation.HoldsApart, Scalar.two_rat]
  rcases sides with ⟨hover, hunder, apart⟩ | ⟨hover, hunder, apart⟩
  all_goals
    rw [hover, hunder]
    refine ⟨by linarith, ⟨?_, ?_⟩, by linarith, by linarith⟩
  · exact Sos1.isSatisfied_iff_pairwise.mpr (List.pairwise_pair.mpr (.inl (by simp [hover])))
  · simp only [Sos1.ofMembers, Sos1.weighted, List.forall_mem_cons, hover, hunder, ne_eq, not_true,
      false_implies, List.not_mem_nil, implies_true, and_true, true_and]
    exact fun _ => abs_le.mpr ⟨by linarith, by linarith⟩
  · exact Sos1.isSatisfied_iff_pairwise.mpr (List.pairwise_pair.mpr (.inr (by simp [hunder])))
  · simp only [Sos1.ofMembers, Sos1.weighted, List.forall_mem_cons, hover, hunder, ne_eq, not_true,
      false_implies, List.not_mem_nil, implies_true, and_true]
    exact fun _ => abs_le.mpr ⟨by linarith, by linarith⟩

theorem Comparison.separation_complete {c : Comparison Rat} (excluding : c.relation = .ne)
    {above below : String} (distinct : ([Variable.slack bigM above, .slack bigM below].map (·.name)).Nodup)
    (unread : ∀ v ∈ c.occurrences,
      v.name ∉ [Variable.slack bigM above, .slack bigM below].map (·.name))
    (room : c.HasRoom bigM values) :
    ∃ other, Assignment.AgreesOff [.slack bigM above, .slack bigM below] values other ∧
      (∀ r ∈ c.separation bigM (.slack bigM above) (.slack bigM below), r.HasRoom bigM other) ∧
      ∀ v ∈ [Variable.slack bigM above, .slack bigM below], v.Allows (other v.name) := by
  obtain ⟨pos, reach⟩ := room.reach excluding
  have far : c.margin ≤ |c.gap values| := by
    simpa [HoldsApart, excluding, Relation.HoldsApart] using room.holds
  obtain ⟨low, high⟩ := abs_le.mp reach
  have placed (up down : Rat) := Assignment.exists_setting
    [(Variable.slack bigM above, up), (.slack bigM below, down)] distinct values
  have gap (other : Assignment Rat)
      (agree : Assignment.AgreesOff [.slack bigM above, .slack bigM below] values other) :
      c.gap other = c.gap values := c.gap_congr fun v hv => agree _ (unread v hv)
  rcases le_abs'.mp far with apart | apart
  · obtain ⟨other, agree, settings⟩ := placed (c.margin - c.gap values) 0
    simp only [List.forall_mem_cons] at settings
    obtain ⟨hover, hunder, -⟩ := settings
    refine ⟨other, agree, ?_, ?_⟩
    · apply separation_hasRoom pos (by rwa [gap other agree])
      rw [gap other agree]
      exact .inr ⟨hover, hunder, apart⟩
    · simp only [List.forall_mem_cons, hover, hunder, List.not_mem_nil, false_implies, implies_true, and_true]
      exact ⟨allows_slack ⟨by linarith, by linarith⟩, allows_slack ⟨le_rfl, by linarith⟩⟩
  · obtain ⟨other, agree, settings⟩ := placed 0 (c.gap values + c.margin)
    simp only [List.forall_mem_cons] at settings
    obtain ⟨hover, hunder, -⟩ := settings
    refine ⟨other, agree, ?_, ?_⟩
    · apply separation_hasRoom pos (by rwa [gap other agree])
      rw [gap other agree]
      exact .inl ⟨hover, hunder, apart⟩
    · simp only [List.forall_mem_cons, hover, hunder, List.not_mem_nil, false_implies, implies_true, and_true]
      exact ⟨allows_slack ⟨le_rfl, by linarith⟩, allows_slack ⟨by linarith, by linarith⟩⟩

/-- Of bits at most one of which is on, the sum is at most one. -/
theorem sum_le_one_of_pairwise (xs : List Rat) (bits : ∀ x ∈ xs, IsBit x)
    (exclusive : xs.Pairwise fun x y => x = 0 ∨ y = 0) : xs.sum ≤ 1 := by
  induction xs with
  | nil => simp
  | cons x xs ih =>
    obtain ⟨alone, exclusive⟩ := List.pairwise_cons.mp exclusive
    have tail := ih (fun y hy => bits y (List.mem_cons_of_mem _ hy)) exclusive
    rw [List.sum_cons]
    rcases bits x List.mem_cons_self with off | on
    · rwa [off, zero_add]
    · have rest : xs.sum = 0 := by
        apply List.sum_eq_zero
        intro y hy
        exact (alone y hy).resolve_left fun off => by simp [on] at off
      rw [on, rest, add_zero]

namespace Sos1

/-- The bound of a switch that is on has to reach the member. -/
theorem switchedRows_hasRoom {s : Sos1 Rat} {member switch : Variable Rat} {x : Rat}
    (on : values switch.name = x) (reach : |values member.name| ≤ s.bound * x) :
    ∀ r ∈ s.switchedRows member switch, r.HasRoom bigM values := by
  obtain ⟨low, high⟩ := abs_le.mp reach
  intro r hr
  simp only [switchedRows, List.mem_cons, List.not_mem_nil, or_false] at hr
  rcases hr with rfl | rfl
  all_goals
    refine (Comparison.hasRoom_iff (by simp [Comparison.ofLinear])).mpr ?_
    simp only [Comparison.ofLinear, Comparison.gap, Comparison.evalLhs, Relation.HoldsApart, sumTerms_cons,
      sumTerms_nil, Term.eval_single, on]
    linarith

/-- Switches of which at most one is on. -/
theorem limit_hasRoom {switches : List (Variable Rat)} {margin : Rat}
    (bits : ∀ v ∈ switches, IsBit (values v.name))
    (exclusive : switches.Pairwise fun v w => values v.name = 0 ∨ values w.name = 0) :
    (Comparison.ofLinear (switches.map (.single 1)) .le 1 margin).HasRoom bigM values := by
  have most := sum_le_one_of_pairwise (switches.map fun v => values v.name)
    (by
      intro x hx
      obtain ⟨v, hv, rfl⟩ := List.mem_map.mp hx
      exact bits v hv) (List.pairwise_map.mpr exclusive)
  refine (Comparison.hasRoom_iff (by simp [Comparison.ofLinear])).mpr ?_
  simp only [Comparison.ofLinear, Comparison.gap, Comparison.evalLhs, Relation.HoldsApart,
    sumTerms_map_single, one_mul]
  linarith

/-- The switch of each member that is away from zero is on. -/
theorem lower_complete (bigM : Rat) {s : Sos1 Rat} {names : List String}
    (positions : names.length = s.members.length)
    (nodup : ((names.map (Variable.binary (α := Rat))).map (·.name)).Nodup)
    (unread : ∀ v ∈ s.members, v.name ∉ (names.map (Variable.binary (α := Rat))).map (·.name))
    (room : s.HasRoom values) :
    ∃ other, Assignment.AgreesOff (names.map .binary) values other ∧
      (∀ r ∈ s.rows (names.map .binary), r.HasRoom bigM other) ∧
      ∀ v ∈ names.map (Variable.binary (α := Rat)), v.Allows (other v.name) := by
  let switch (v : Variable Rat) : Rat := if values v.name = 0 then 0 else 1
  have bit (v : Variable Rat) : IsBit (switch v) := by
    unfold switch
    split
    · exact .inl rfl
    · exact .inr rfl
  let switched := s.members.zip (names.map (Variable.binary (α := Rat)))
  have members : switched.map Prod.fst = s.members := List.map_fst_zip (by simp [positions])
  have switches : switched.map Prod.snd = names.map .binary := List.map_snd_zip (by simp [positions])
  let settings := switched.map fun k => (k.2, switch k.1)
  have drawn : settings.map (·.1) = names.map .binary := by
    rw [List.map_map]
    exact switches
  rw [← drawn] at nodup unread ⊢
  obtain ⟨other, agree, placed⟩ := Assignment.exists_setting settings nodup values
  have placed : ∀ k ∈ switched, other k.2.name = switch k.1 := fun k hk =>
    placed _ (List.mem_map_of_mem hk)
  have kept : ∀ k ∈ switched, other k.1.name = values k.1.name := fun k hk =>
    agree _ (unread k.1 (List.of_mem_zip hk).1)
  have bits : ∀ v ∈ names.map (Variable.binary (α := Rat)), IsBit (other v.name) := by
    rw [← switches]
    intro v hv
    obtain ⟨k, hk, rfl⟩ := List.mem_map.mp hv
    exact placed k hk ▸ bit k.1
  refine ⟨other, agree, ?_, ?_⟩
  · intro r hr
    rw [drawn, rows] at hr
    rcases List.mem_append.mp hr with hr | hr
    · obtain ⟨k, hk, hr⟩ := List.mem_flatMap.mp hr
      refine switchedRows_hasRoom (placed k hk) ?_ r hr
      rw [kept k hk]
      by_cases zero : values k.1.name = 0
      · simp [switch, zero]
      · simpa [switch, zero] using room.reach k.1 (List.of_mem_zip hk).1 zero
    · rw [List.mem_singleton.mp hr]
      apply limit_hasRoom bits
      have exclusive := isSatisfied_iff_pairwise.mp room.exclusive
      rw [← switches, List.pairwise_map]
      rw [← members, List.pairwise_map] at exclusive
      refine exclusive.imp_of_mem ?_
      intro k l hk hl near
      rw [placed k hk, placed l hl]
      have off (u : Variable Rat) (h : |values u.name| ≤ 0) : switch u = 0 := if_pos (abs_nonpos_iff.mp h)
      exact near.imp (off k.1) (off l.1)
  · intro v hv
    rw [drawn] at hv
    have bit := bits v hv
    obtain ⟨n, -, rfl⟩ := List.mem_map.mp hv
    exact allows_binary bit

end Sos1

/-- Over bits the result is between each operand and their sum. -/
theorem BinaryOr.lower_complete {b : BinaryOr Rat} (bits : ∀ v ∈ b.occurrences, IsBit (values v.name))
    (holds : b.isSatisfied values 0 = true) : ∀ r ∈ b.lower, r.HasRoom bigM values := by
  have result : values b.result.name = if b.operands.any (fun v => half < values v.name) then 1 else 0 := by
    simpa [isSatisfied, sub_eq_zero] using holds
  have operand : ∀ v ∈ b.operands, IsBit (values v.name) := fun v hv =>
    bits v (List.mem_append_left _ hv)
  intro r hr
  rcases mem_lower hr with ⟨v, hv, rfl⟩ | rfl
  · refine (Comparison.hasRoom_iff (by simp [Comparison.ofLinear])).mpr ?_
    simp only [Comparison.ofLinear, Comparison.gap, Comparison.evalLhs, Relation.HoldsApart, sumTerms_cons,
      sumTerms_nil, Term.eval_single]
    rcases operand v hv with off | on
    · rw [off]
      linarith [(bits b.result (by simp [occurrences])).nonneg]
    · have any : b.operands.any (fun v => half < values v.name) = true := by
        refine List.any_eq_true.mpr ⟨v, hv, ?_⟩
        rw [on]
        decide +kernel
      rw [on, result, if_pos any]
      norm_num
  · refine (Comparison.hasRoom_iff (by simp [Comparison.ofLinear])).mpr ?_
    have nonneg : ∀ x ∈ b.operands.map fun v => values v.name, 0 ≤ x := by
      intro x hx
      obtain ⟨v, hv, rfl⟩ := List.mem_map.mp hx
      exact (operand v hv).nonneg
    have covers : values b.result.name ≤ (b.operands.map fun v => values v.name).sum := by
      rw [result]
      split
      · rename_i any
        obtain ⟨v, hv, hon⟩ := List.any_eq_true.mp any
        have positive : half < values v.name := by simpa using hon
        have one : values v.name = 1 := (operand v hv).eq_one (lt_trans (by decide +kernel) positive)
        exact one ▸ List.single_le_sum nonneg _ (List.mem_map_of_mem hv)
      · exact List.sum_nonneg nonneg
    simp only [Comparison.ofLinear, Comparison.gap, Comparison.evalLhs, Relation.HoldsApart, sumTerms_cons,
      sumTerms_map_single, Term.eval_single]
    linarith

end Rows

/-- A constraint with room has rows with room, for fitting values of its auxiliaries. -/
theorem Lowering.complete {bigM : Rat} {c : Constraint Rat} {vs : List (Variable Rat)}
    {rows : List (Constraint Rat)} {values : Assignment Rat} (h : Lowering bigM c vs rows) (big : 1 ≤ bigM)
    (nodup : (vs.map (·.name)).Nodup) (unread : ∀ v ∈ c.occurrences, v.name ∉ vs.map (·.name))
    (links : c.LinksBits values) (room : c.HasRoom bigM values) :
    ∃ other, Assignment.AgreesOff vs values other ∧ (∀ r ∈ rows, r.HasRoom bigM other) ∧
      ∀ v ∈ vs, v.Allows (other v.name) := by
  cases h with
  | @below c strict =>
    refine ⟨values, fun _ _ => rfl, ?_, by simp⟩
    have held := (Comparison.hasRoom_iff (by simp [strict])).mp room
    simp only [strict, Relation.HoldsApart, Comparison.gap, Comparison.evalLhs] at held
    intro r hr
    rw [List.mem_singleton.mp hr]
    refine (Comparison.hasRoom_iff (by simp)).mpr ?_
    simp only [Relation.HoldsApart, Comparison.gap, Comparison.evalLhs]
    linarith
  | @above c strict =>
    refine ⟨values, fun _ _ => rfl, ?_, by simp⟩
    have held := (Comparison.hasRoom_iff (by simp [strict])).mp room
    simp only [strict, Relation.HoldsApart, Comparison.gap, Comparison.evalLhs] at held
    intro r hr
    rw [List.mem_singleton.mp hr]
    refine (Comparison.hasRoom_iff (by simp)).mpr ?_
    simp only [Relation.HoldsApart, Comparison.gap, Comparison.evalLhs]
    linarith
  | apart excluding above below => exact Comparison.separation_complete excluding nodup unread room
  | sos1 s names positions =>
    obtain ⟨other, agree, met, allowed⟩ := Sos1.lower_complete bigM positions nodup unread room
    refine ⟨other, agree, ?_, allowed⟩
    intro r hr
    obtain ⟨row, hrow, rfl⟩ := List.mem_map.mp hr
    exact met row hrow
  | binaryOr b =>
    refine ⟨values, fun _ _ => rfl, ?_, by simp⟩
    intro r hr
    obtain ⟨row, hrow, rfl⟩ := List.mem_map.mp hr
    exact BinaryOr.lower_complete links room row hrow
  | disjunction d ks choices => exact Disjunction.lower_complete choices big nodup unread room

end MixedInteger
