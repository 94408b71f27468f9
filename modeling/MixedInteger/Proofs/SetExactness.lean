import MixedInteger.Proofs.Completeness

/-!
Exactness of lowering for a set: whatever its bound is, the switches can be set so that all rows hold just when at
most one position is away from zero, and no further than the bound.
-/

namespace MixedInteger.Sos1

/-- Some setting of the switches satisfies the rows at this point. -/
def Switchable (switches : List (Variable Rat)) (rows : List (Comparison Rat)) (values : Assignment Rat) : Prop :=
  ∃ other, Assignment.AgreesOff switches values other ∧ (∀ w ∈ switches, IsBit (other w.name)) ∧
    ∀ r ∈ rows, r.isSatisfied other 0 = true

variable {s : Sos1 Rat} {values : Assignment Rat}

/-- The two rows of a position bound its member by what the switch lets through, whatever the sign of the bound. -/
theorem switchedRows_met_iff (s : Sos1 Rat) (member switch : Variable Rat) (values : Assignment Rat) :
    (∀ r ∈ s.switchedRows member switch, r.isSatisfied values 0 = true) ↔
      |values member.name| ≤ s.bound * values switch.name := by
  simp only [switchedRows, List.forall_mem_cons, List.not_mem_nil, false_implies, implies_true, and_true,
    Comparison.isSatisfied, Comparison.ofLinear, Comparison.evalLhs, Relation.holds, sumTerms_cons, sumTerms_nil,
    Term.eval_single, decide_eq_true_eq, abs_le]
  constructor
  · rintro ⟨high, low⟩
    exact ⟨by linarith, by linarith⟩
  · rintro ⟨low, high⟩
    exact ⟨by linarith, by linarith⟩

/-- A switch that is on lets its member go to the bound, and one that is off keeps it at zero. -/
theorem reach_of_rows {names : List String} (positions : names.length = s.members.length)
    (bits : ∀ n ∈ names, IsBit (values n))
    (met : ∀ r ∈ s.rows (names.map .binary), r.isSatisfied values 0 = true) :
    ∀ v ∈ s.members, values v.name ≠ 0 → |values v.name| ≤ s.bound := by
  intro v hv away
  have members : (s.members.zip (names.map (Variable.binary (α := Rat)))).map Prod.fst = s.members :=
    List.map_fst_zip (by simp [positions])
  rw [← members] at hv
  obtain ⟨⟨v, w⟩, hk, rfl⟩ := List.mem_map.mp hv
  obtain ⟨name, hn, rfl⟩ := List.mem_map.mp (List.of_mem_zip hk).2
  have limited := (s.switchedRows_met_iff v (.binary name) values).mp fun r hr =>
    met r (List.mem_append_left _ (List.mem_flatMap.mpr ⟨_, hk, hr⟩))
  have bit : IsBit (values (Variable.binary (α := Rat) name).name) := bits name hn
  rcases bit with off | on
  · rw [off, mul_zero] at limited
    exact absurd (abs_nonpos_iff.mp limited) away
  · rwa [on, mul_one] at limited

theorem hasRoom_of_rows {names : List String} (positions : names.length = s.members.length)
    (bits : ∀ n ∈ names, IsBit (values n))
    (met : ∀ r ∈ s.rows (names.map .binary), r.isSatisfied values 0 = true) : s.HasRoom values := by
  refine ⟨lower_sound positions zero_lt_one bits fun r hr => ?_, reach_of_rows positions bits met⟩
  exact (Comparison.isSatisfied_iff_apart (s.rows_canonical r hr) values 0).mp (met r hr)

/-- Switches that nobody in the set reads follow the members: on where a member is away from zero. -/
theorem switchable_of_hasRoom {names : List String} (positions : names.length = s.members.length)
    (nodup : ((names.map (Variable.binary (α := Rat))).map (·.name)).Nodup)
    (unread : ∀ v ∈ s.members, v.name ∉ (names.map (Variable.binary (α := Rat))).map (·.name))
    (room : s.HasRoom values) : Switchable (names.map .binary) (s.rows (names.map .binary)) values := by
  obtain ⟨other, agree, met, allowed⟩ := lower_complete s.bound positions nodup unread room
  refine ⟨other, agree, ?_, ?_⟩
  · intro w hw
    obtain ⟨name, hn, rfl⟩ := List.mem_map.mp hw
    exact (allowed _ hw).1
  · intro r hr
    have held : (Constraint.comparison r).HasRoom s.bound other := met r hr
    exact held.isSatisfied (s.rows_canonical r hr)

/-- Lowering is exact for a set of any length, with members that may repeat and be of any sign, wherever the names of
the switches come from, if they differ, as those of a supply always do, and no member has one of them. -/
theorem exclusivity_exact {σ : Type} [NameSource σ] (s : Sos1 Rat) (source : σ) :
    let switches := (s.switches source).1
    let rows := (s.lower source).1
    rows.length = 2 * s.members.length + 1 ∧
    switches.length = s.members.length ∧ (∀ w ∈ switches, w.domain = .binary) ∧
    (∀ supply : NameSupply, ((s.switches supply).1.map (·.name)).Nodup) ∧
    ((switches.map (·.name)).Nodup → (∀ v ∈ s.members, v.name ∉ switches.map (·.name)) →
      ∀ values, Switchable switches rows values ↔
        s.isSatisfied values 0 = true ∧ ∀ v ∈ s.members, values v.name ≠ 0 → |values v.name| ≤ s.bound) := by
  obtain ⟨names, positions, named⟩ := s.switches_named source
  have lowered : (s.lower source).1 = s.rows (names.map .binary) := congrArg s.rows named
  have positions' : (names.map (Variable.binary (α := Rat))).length = s.members.length := by
    rw [List.length_map, positions]
  rw [named, lowered]
  refine ⟨s.length_rows positions', positions', ?_, ?_, fun distinct unread values => ⟨?_, ?_⟩⟩
  · intro w hw
    obtain ⟨name, hn, rfl⟩ := List.mem_map.mp hw
    rfl
  · intro supply
    obtain ⟨names, t, -, named, drawn⟩ := s.switches_draws supply
    rw [named]
    exact drawn.nodup
  · rintro ⟨other, agree, bits, met⟩
    have room : s.HasRoom other :=
      hasRoom_of_rows positions (fun n hn => bits (.binary n) (List.mem_map_of_mem hn)) met
    have room := room.congr fun v hv => (agree v.name (unread v hv)).symm
    exact ⟨room.exclusive, room.reach⟩
  · rintro ⟨exclusive, reach⟩
    exact switchable_of_hasRoom positions distinct unread ⟨exclusive, reach⟩

/-- A set with one variable in two positions. -/
def doubled : Sos1 Rat :=
  { Sos1.ofMembers [.real "x", .real "y", .real "x"] with bound := 5 }

/-- The variable of one position may go to the bound below zero. The other one cannot leave zero, since it would do so
in both its positions. -/
theorem doubled_exact :
    let supply : NameSupply := ⟨["x", "y"], 0⟩
    ∃ switches rows, (doubled.switches supply).1 = switches ∧ (doubled.lower supply).1 = rows ∧ rows.length = 7 ∧
      Switchable switches rows (fun name => if name = "y" then -5 else 0) ∧
      ¬Switchable switches rows (fun name => if name = "y" then -6 else 0) ∧
      ¬Switchable switches rows (fun name => if name = "x" then 1 else 0) := by
  intro supply
  obtain ⟨names, t, -, named, drawn⟩ := doubled.switches_draws supply
  have taken : ∀ v ∈ doubled.members, v.name ∈ ["x", "y"] := by decide
  have unread : ∀ v ∈ doubled.members, v.name ∉ (doubled.switches supply).1.map (·.name) := by
    rw [named]
    exact fun v hv => drawn.unread (taken v hv)
  obtain ⟨count, -, -, distinct, exact_there⟩ := exclusivity_exact doubled supply
  have switchable_iff := exact_there (distinct supply) unread
  refine ⟨_, _, rfl, rfl, count, ?_⟩
  rw [switchable_iff, switchable_iff, switchable_iff]
  simp only [← Scalar.abs_rat]
  decide +kernel

end MixedInteger.Sos1
