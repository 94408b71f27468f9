import MixedInteger.Proofs.Completeness

/-!
Exactness of lowering for a single comparison: at every point its rows can be met just when the relation holds by a
margin, and for `≠` within the reach of the slack variables.
-/

namespace MixedInteger.Comparison

/-- The set among the rows of `≠`. -/
def exclusion {α : Type} [Scalar α] (c : Comparison α) (bigM : α) (above below : Variable α) : Sos1 α :=
  { Sos1.ofMembers [above, below] with bound := bigM, margin := c.margin }

/-- The sum of the slack variables, and the two sides that they relax. -/
def sides {α : Type} [Scalar α] (c : Comparison α) (above below : Variable α) : List (Comparison α) :=
  [ c.derived [.single 1 above, .single 1 below] .ge (Scalar.two * c.margin),
    c.derived (plusAuxiliary c.lhs 1 above) .ge (c.rhs + c.margin),
    c.derived (plusAuxiliary c.lhs (-1) below) .le (c.rhs - c.margin) ]

theorem separation_perm {α : Type} [Scalar α] (c : Comparison α) (bigM : α) (above below : Variable α) :
    (c.separation bigM above below).Perm
      (.sos1 (c.exclusion bigM above below) :: (c.sides above below).map .comparison) :=
  .swap _ _ _

/-- The rows of `≠` with those of the set in its place. -/
def switchedSeparation {α : Type} [Scalar α] (c : Comparison α) (bigM : α) (above below : Variable α)
    (switches : List (Variable α)) : List (Constraint α) :=
  (c.sides above below ++ (c.exclusion bigM above below).rows switches).map .comparison

theorem mem_switchedSeparation {α : Type} [Scalar α] {c : Comparison α} {bigM : α} {above below : Variable α}
    {switches : List (Variable α)} {r : Constraint α} :
    r ∈ c.switchedSeparation bigM above below switches ↔
      r ∈ (c.sides above below).map .comparison ∨
        r ∈ ((c.exclusion bigM above below).rows switches).map .comparison := by
  rw [switchedSeparation, List.map_append, List.mem_append]

variable {c : Comparison Rat} {bigM : Rat} {values other : Assignment Rat}

theorem separation_isLowered {above below : Variable Rat} :
    ∀ r ∈ c.separation bigM above below, r.IsLowered := by
  simp [separation, derived, Constraint.IsLowered, Relation.isCanonical]

/-- The sides differ by a margin, and leave a margin to the reach of the slack variables. -/
def IsSeparated (bigM : Rat) (values : Assignment Rat) (c : Comparison Rat) : Prop :=
  c.margin ≤ |c.gap values| ∧ |c.gap values| ≤ bigM - c.margin

theorem IsSeparated.congr (h : c.IsSeparated bigM values)
    (same : ∀ v ∈ c.occurrences, other v.name = values v.name) : c.IsSeparated bigM other := by
  rwa [IsSeparated, c.gap_congr same]

theorem IsSeparated.hasRoom (h : c.IsSeparated bigM values) (excluding : c.relation = .ne)
    (pos : 0 < c.margin) : c.HasRoom bigM values := by
  refine ⟨?_, fun _ => ⟨pos, h.2⟩⟩
  simpa [HoldsApart, excluding, Relation.HoldsApart] using h.1

/-- One slack variable is zero, and the row of its side asks for a margin. The other one spans the gap and a margin. -/
theorem isSeparated_of_separation {above below : String} (pos : 0 < c.margin)
    (allowed : ∀ v ∈ [Variable.slack bigM above, .slack bigM below], v.Allows (values v.name))
    (h : ∀ r ∈ c.separation bigM (.slack bigM above) (.slack bigM below), r.isSatisfied values 0 = true) :
    c.IsSeparated bigM values := by
  have spans {name : String} (hn : Variable.slack bigM name ∈ [.slack bigM above, .slack bigM below]) :
      values name ≤ bigM := (allowed _ hn).2.2
  have reach : values above ≤ bigM ∧ values below ≤ bigM := ⟨spans (by simp), spans (by simp)⟩
  simp only [separation, List.forall_mem_cons, Constraint.isSatisfied, isSatisfied, derived, Relation.holds,
    evalLhs, plusAuxiliary, sumTerms_append, sumTerms_cons, sumTerms_nil, Term.eval_single,
    Sos1.isSatisfied_iff_pairwise, Sos1.ofMembers, Sos1.weighted, List.pairwise_pair, abs_nonpos_iff,
    Variable.slack_name, decide_eq_true_eq] at h
  obtain ⟨-, exclusive, high, low, -⟩ := h
  have gap : c.gap values = sumTerms c.lhs values - c.rhs := rfl
  rcases exclusive with zero | zero
  · have positive : c.margin ≤ c.gap values := by linarith
    rw [IsSeparated, abs_of_pos (pos.trans_le positive)]
    exact ⟨positive, by linarith [reach.2]⟩
  · have negative : c.gap values ≤ -c.margin := by linarith
    rw [IsSeparated, abs_of_neg (by linarith)]
    exact ⟨by linarith, by linarith [reach.1]⟩

/-- Lowered, the set still makes one slack variable zero. -/
theorem isSeparated_of_switched {above below : String} {names : List String} (pos : 0 < c.margin)
    (positions : names.length = (c.exclusion bigM (.slack bigM above) (.slack bigM below)).members.length)
    (allowed : ∀ v ∈ [Variable.slack bigM above, .slack bigM below] ++ names.map .binary, v.Allows (values v.name))
    (met : ∀ r ∈ c.switchedSeparation bigM (.slack bigM above) (.slack bigM below) (names.map .binary),
      r.isSatisfied values 0 = true) :
    c.IsSeparated bigM values := by
  have bits : ∀ n ∈ names, IsBit (values n) := fun n hn =>
    (allowed (.binary n) (List.mem_append_right _ (List.mem_map_of_mem hn))).1
  have exclusive : (c.exclusion bigM (.slack bigM above) (.slack bigM below)).isSatisfied values 0 = true := by
    refine Sos1.lower_sound positions zero_lt_one bits fun r hr => ?_
    have held := met (.comparison r) (mem_switchedSeparation.mpr (.inr (List.mem_map_of_mem hr)))
    exact (isSatisfied_iff_apart (Sos1.rows_canonical _ r hr) values 0).mp held
  refine isSeparated_of_separation pos (fun v hv => allowed v (List.mem_append_left _ hv)) fun r hr => ?_
  rcases List.mem_cons.mp ((c.separation_perm bigM _ _).mem_iff.mp hr) with rfl | hr
  · exact exclusive
  · exact met r (mem_switchedSeparation.mpr (.inl hr))

section Separation

variable {above below : String} (excluding : c.relation = .ne) (pos : 0 < c.margin)
  (distinct : ([Variable.slack bigM above, .slack bigM below].map (·.name)).Nodup)
  (unread : ∀ v ∈ c.occurrences, v.name ∉ [Variable.slack bigM above, .slack bigM below].map (·.name))

include excluding pos distinct unread

theorem separation_exact :
    Assignment.ExtendsTo [.slack bigM above, .slack bigM below]
      (c.separation bigM (.slack bigM above) (.slack bigM below)) values ↔ c.IsSeparated bigM values := by
  constructor
  · rintro ⟨other, agree, allowed, met⟩
    exact (isSeparated_of_separation pos allowed met).congr fun v hv => (agree _ (unread v hv)).symm
  · intro separated
    obtain ⟨other, agree, room, allowed⟩ :=
      separation_complete excluding distinct unread (separated.hasRoom excluding pos)
    exact ⟨other, agree, allowed, fun r hr => (room r hr).isSatisfied (separation_isLowered r hr)⟩

/-- The rows of the set take its place, and nothing is lost. -/
theorem switched_separation_exact {names : List String}
    (positions : names.length = (c.exclusion bigM (.slack bigM above) (.slack bigM below)).members.length)
    (nodup : ((names.map (Variable.binary (α := Rat))).map (·.name)).Nodup)
    (untouched : ∀ v ∈ c.occurrences ++ [Variable.slack bigM above, .slack bigM below],
      v.name ∉ (names.map (Variable.binary (α := Rat))).map (·.name)) :
    Assignment.ExtendsTo ([.slack bigM above, .slack bigM below] ++ names.map .binary)
      (c.switchedSeparation bigM (.slack bigM above) (.slack bigM below) (names.map .binary)) values ↔
        c.IsSeparated bigM values := by
  let set := c.exclusion bigM (.slack bigM above) (.slack bigM below)
  have perm := c.separation_perm bigM (.slack bigM above) (.slack bigM below)
  constructor
  · rintro ⟨other, agree, allowed, met⟩
    refine (isSeparated_of_switched pos positions allowed met).congr fun v hv => (agree _ ?_).symm
    rw [List.map_append, List.mem_append, not_or]
    exact ⟨unread v hv, untouched v (List.mem_append_left _ hv)⟩
  · intro separated
    obtain ⟨one, agree, room, allowed⟩ :=
      separation_complete excluding distinct unread (separated.hasRoom excluding pos)
    have exclusive : set.HasRoom one := room _ (perm.mem_iff.mpr List.mem_cons_self)
    obtain ⟨two, agree', room', allowed'⟩ := Sos1.lower_complete bigM positions nodup
      (fun v hv => untouched v (List.mem_append_right _ hv)) exclusive
    have kept : ∀ v ∈ c.occurrences ++ [Variable.slack bigM above, .slack bigM below],
        two v.name = one v.name := fun v hv => agree' _ (untouched v hv)
    refine ⟨two, ?_, ?_, ?_⟩
    · intro name hn
      rw [List.map_append, List.mem_append, not_or] at hn
      rw [agree' name hn.2, agree name hn.1]
    · intro v hv
      rcases List.mem_append.mp hv with hv | hv
      · rw [kept v (List.mem_append_right _ hv)]
        exact allowed v hv
      · exact allowed' v hv
    · intro r hr
      rcases mem_switchedSeparation.mp hr with hr | hr
      · have hr := perm.mem_iff.mpr (List.mem_cons_of_mem _ hr)
        refine ((room r hr).congr fun v hv => kept v ?_).isSatisfied (separation_isLowered r hr)
        exact List.mem_append.mpr ((Lowering.apart excluding above below).occurrences r hr v hv)
      · obtain ⟨row, hrow, rfl⟩ := List.mem_map.mp hr
        have held : (Constraint.comparison row).HasRoom bigM two := room' row hrow
        exact held.isSatisfied (set.rows_canonical row hrow)

end Separation

/-- A strict comparison moves by its margin. -/
theorem moved_isSatisfied (c : Comparison Rat) (values : Assignment Rat) :
    ({ c with relation := .le, rhs := c.rhs - c.margin }.isSatisfied values 0 = true ↔
        c.evalLhs values ≤ c.rhs - c.margin) ∧
      ({ c with relation := .ge, rhs := c.rhs + c.margin }.isSatisfied values 0 = true ↔
        c.rhs + c.margin ≤ c.evalLhs values) := by
  simp [isSatisfied, Relation.holds, evalLhs]

/-- Lowering is exact for every relation. What is canonical stays, a strict comparison becomes a row that keeps a
margin from its bound, and the rows of `≠` can be met with slack variables in their range at the points that are
separated and in reach, whether or not the set among them is lowered in its turn. The names may come from anywhere, for
the set from elsewhere, if they differ and are not read; those of a supply always differ, as long as it does not go
back. -/
theorem lower_exact {σ : Type} [NameSource σ] (c : Comparison Rat) (bigM : Rat) (s : σ) (pos : 0 < c.margin) :
    (c.relation.isCanonical = true → c.lower bigM s = ([], s)) ∧
    (c.relation = .lt → ∃ row : Comparison Rat, c.lower bigM s = ([.comparison row], s) ∧
      row.relation.isCanonical = true ∧
      ∀ values, row.isSatisfied values 0 = true ↔ c.evalLhs values ≤ c.rhs - c.margin) ∧
    (c.relation = .gt → ∃ row : Comparison Rat, c.lower bigM s = ([.comparison row], s) ∧
      row.relation.isCanonical = true ∧
      ∀ values, row.isSatisfied values 0 = true ↔ c.rhs + c.margin ≤ c.evalLhs values) ∧
    (c.relation = .ne → ∀ above below t, slackNames s = ((above, below), t) →
      let slacks := [Variable.slack bigM above, .slack bigM below]
      above ≠ below → (∀ v ∈ c.occurrences, v.name ∉ slacks.map (·.name)) →
      ∃ rows set sides, c.lower bigM s = (rows, t) ∧
        rows.Perm (.sos1 set :: sides.map .comparison) ∧ sides.length = 3 ∧
        (∀ values, Assignment.ExtendsTo slacks rows values ↔
          c.margin ≤ |c.gap values| ∧ |c.gap values| ≤ bigM - c.margin) ∧
        ∀ {τ : Type} [NameSource τ] (later : τ) switches u, set.switches later = (switches, u) →
          (switches.map (·.name)).Nodup →
          (∀ v ∈ c.occurrences ++ slacks, v.name ∉ switches.map (·.name)) →
          ∃ limits, set.lower later = (limits, u) ∧
            ∀ values, Assignment.ExtendsTo (slacks ++ switches) ((sides ++ limits).map .comparison) values ↔
              c.margin ≤ |c.gap values| ∧ |c.gap values| ≤ bigM - c.margin) ∧
    ∀ (supply t : NameSupply) above below, slackNames supply = ((above, below), t) → above ≠ below ∧
      ∀ (set : Sos1 Rat) (later : NameSupply), t.next ≤ later.next →
        ((set.switches later).1.map (·.name)).Nodup ∧
        ∀ v ∈ [Variable.slack bigM above, .slack bigM below], v.name ∉ (set.switches later).1.map (·.name) := by
  refine ⟨?_, ?_, ?_, ?_, ?_⟩
  · intro canonical
    cases hr : c.relation with
    | le | eq | ge =>
      simp only [lower, hr]
      rfl
    | lt | gt | ne => simp [hr, Relation.isCanonical] at canonical
  · intro strict
    refine ⟨_, ?_, rfl, fun values => (c.moved_isSatisfied values).1⟩
    simp only [lower, strict]
    rfl
  · intro strict
    refine ⟨_, ?_, rfl, fun values => (c.moved_isSatisfied values).2⟩
    simp only [lower, strict]
    rfl
  · intro excluding above below t named slacks differ unread
    have distinct : (slacks.map (·.name)).Nodup := by
      simpa [slacks, Variable.slack_name] using differ
    refine ⟨_, _, _, by rw [lower_eq excluding, NameSource.map_run named], c.separation_perm _ _ _, rfl, ?_, ?_⟩
    · exact fun values => separation_exact excluding pos distinct unread
    · intro τ _ later switches u switched nodup untouched
      obtain ⟨names, positions, switches_eq⟩ :=
        (c.exclusion bigM (.slack bigM above) (.slack bigM below)).switches_named later
      rw [switched] at switches_eq
      obtain rfl : switches = names.map .binary := switches_eq
      refine ⟨_, by rw [Sos1.lower_eq, NameSource.map_run switched], fun values => ?_⟩
      exact switched_separation_exact excluding pos distinct unread positions nodup untouched
  · intro supply t above below named
    obtain ⟨above', below', t', named', drawn⟩ := slackNames_draws bigM supply
    obtain ⟨pair, rfl⟩ := Prod.mk.inj (named.symm.trans named')
    obtain ⟨rfl, rfl⟩ := Prod.mk.inj pair
    have differ : above ≠ below := by simpa [Variable.slack_name] using drawn.nodup
    refine ⟨differ, fun set later after => ?_⟩
    obtain ⟨names, u, -, switched, drawn'⟩ := set.switches_draws later
    rw [switched]
    exact ⟨drawn'.nodup, drawn.disjoint after drawn'⟩

/-- A sum with a square that keeps half a unit away from zero. -/
def unbalanced : Comparison Rat :=
  ⟨.quadratic, [.single 1 (.real "x"), .product 1 (.real "y") (.real "y")], .ne, 0, 1 / 2, none⟩

/-- Ten is the reach of the slack variables, of which half a unit goes to the margin. -/
theorem unbalanced_exact :
    let s : NameSupply := ⟨["x", "y"], 1⟩
    ∃ above below t, slackNames s = ((above, below), t) ∧
      Assignment.ExtendsTo [.slack 10 above, .slack 10 below] (unbalanced.lower 10 s).1
        (fun name => if name = "y" then 3 else 1 / 2) ∧
      ¬Assignment.ExtendsTo [.slack 10 above, .slack 10 below] (unbalanced.lower 10 s).1
        (fun name => if name = "y" then 3 else 1) := by
  intro s
  obtain ⟨above, below, t, named, drawn⟩ := slackNames_draws (10 : Rat) s
  have taken : ∀ v ∈ unbalanced.occurrences, v.name ∈ ["x", "y"] := by decide +kernel
  obtain ⟨-, -, -, excluding, distinct⟩ := lower_exact unbalanced 10 s (by decide +kernel)
  obtain ⟨rows, set, sides, lowered, -, -, extends_iff, -⟩ :=
    excluding rfl above below t named (distinct s t above below named).1 fun v hv => drawn.unread (taken v hv)
  refine ⟨above, below, t, named, ?_⟩
  rw [lowered, extends_iff, extends_iff, ← Scalar.abs_rat, ← Scalar.abs_rat]
  decide +kernel

end MixedInteger.Comparison
