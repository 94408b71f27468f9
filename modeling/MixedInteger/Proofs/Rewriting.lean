import MixedInteger.Constraint.Statement
import MixedInteger.Problem.Passes
import MixedInteger.Proofs.Naming

/-!
Lowering seen from outside: each constraint a pass takes out, the auxiliaries drawn for it, and the rows that
come in its place.
-/

namespace MixedInteger

variable {α : Type}

/-- The pass that takes a constraint out, none for what every engine understands. -/
def Constraint.takenBy : Constraint α → Option Pass
  | .comparison c => if c.relation.isCanonical then none else some .relations
  | .sos1 _ => some .sos1s
  | .disjunction _ => some .disjunctions
  | .binaryOr _ => some .binaryOrs

namespace Problem

theorem mem_constraints {p : Problem α} {c : Constraint α} : c ∈ p.constraints ↔
    match c with
    | .comparison c => c ∈ p.comparisons
    | .sos1 s => s ∈ p.sos1s
    | .disjunction d => d ∈ p.disjunctions
    | .binaryOr b => b ∈ p.binaryOrs := by
  cases c <;> simp [constraints]

/-- A constraint joins the others, at the end of its kind. -/
theorem push_constraints (p : Problem α) (c : Constraint α) :
    (p.push c).constraints.Perm (p.constraints ++ [c]) := by
  have move (xs ys : List (Constraint α)) : (xs ++ (c :: ys)).Perm (xs ++ (ys ++ [c])) :=
    (List.perm_append_singleton c ys).symm.append_left xs
  cases c <;>
    simp only [constraints, push, List.map_append, List.map_cons, List.map_nil, List.append_assoc,
      List.cons_append, List.nil_append]
  case comparison => exact (move _ _).trans (by simp only [List.append_assoc]; exact .refl _)
  case sos1 => exact .append_left _ ((move _ _).trans (by simp only [List.append_assoc]; exact .refl _))
  case disjunction => exact .append_left _ (.append_left _ (move _ _))
  case binaryOr => exact .refl _

/-- Only the constraints change when one is stored. -/
theorem push_frame (p : Problem α) (c : Constraint α) :
    (p.push c).registry = p.registry ∧ (p.push c).policy = p.policy ∧
      (p.push c).objective = p.objective ∧ (p.push c).sense = p.sense ∧
      (p.push c).nextAuxiliary = p.nextAuxiliary := by
  cases c <;> exact ⟨rfl, rfl, rfl, rfl, rfl⟩

theorem push_fold (p : Problem α) (cs : List (Constraint α)) :
    (cs.foldl push p).constraints.Perm (p.constraints ++ cs) ∧
      (cs.foldl push p).registry = p.registry ∧ (cs.foldl push p).policy = p.policy ∧
      (cs.foldl push p).objective = p.objective := by
  induction cs generalizing p with
  | nil => simp
  | cons c cs ih =>
    obtain ⟨hc, hr, hp, ho⟩ := ih (p.push c)
    obtain ⟨hr', hp', ho', -⟩ := p.push_frame c
    refine ⟨hc.trans ?_, hr.trans hr', hp.trans hp', ho.trans ho'⟩
    simpa using (p.push_constraints c).append_right cs

theorem insertProduced_fold (p : Problem α) (cs : List (Constraint α)) :
    let q := cs.foldl insertProduced p
    q.constraints.Perm (p.constraints ++ cs) ∧
      q.registry = p.registry.insertAll (cs.flatMap Constraint.occurrences) ∧
      q.policy = p.policy ∧ q.objective = p.objective ∧ q.sense = p.sense ∧
      q.nextAuxiliary = p.nextAuxiliary := by
  induction cs generalizing p with
  | nil => simp [Registry.insertAll]
  | cons c cs ih =>
    let p' : Problem α := { p with registry := p.registry.insertAll c.occurrences }
    obtain ⟨hc, hr, hp, ho, hs, hn⟩ := ih (p'.push c)
    obtain ⟨hr', hp', ho', hs', hn'⟩ := p'.push_frame c
    refine ⟨?_, ?_, hp.trans hp', ho.trans ho', hs.trans hs', hn.trans hn'⟩
    · have hstored : (p'.push c).constraints.Perm (p.constraints ++ [c]) := p'.push_constraints c
      exact hc.trans (by simpa using hstored.append_right cs)
    · rw [List.foldl_cons, List.flatMap_cons, Registry.insertAll, List.foldl_append]
      exact hr.trans (by rw [hr']; rfl)

/-- What a pass over comparisons keeps and what it takes out. -/
theorem partition_comparisons (p : Problem α) :
    p.constraints.Perm
      ({ p with comparisons := p.comparisons.filter (·.relation.isCanonical) }.constraints ++
        (p.comparisons.filter (!·.relation.isCanonical)).map .comparison) := by
  have split := (List.filter_append_perm (·.relation.isCanonical) p.comparisons).symm.map
    Constraint.comparison
  rw [List.map_append] at split
  simp only [constraints, List.append_assoc]
  refine (split.append_right _).trans ?_
  rw [List.append_assoc]
  refine .append_left _ (List.perm_append_comm.trans ?_)
  simp only [List.append_assoc]
  exact .refl _

theorem draw_of_run {β : Type} {p : Problem α} {names : Naming β} {b : β} {t : NameSupply}
    (h : names ⟨p.registry.names, p.nextAuxiliary⟩ = (b, t)) : p.draw names = (b, t.next) := by
  simp only [draw, StateT.run, h]

end Problem

variable [Scalar α]

def Variable.slack (bigM : α) (name : String) : Variable α := (Variable.real name).between 0 bigM

theorem Variable.binary_name (name : String) : (Variable.binary (α := α) name).name = name := rfl

theorem Variable.slack_name (bigM : α) (name : String) : (Variable.slack bigM name).name = name := rfl

namespace Disjunction

/-- An alternative with the names drawn for it. An equality has no use for `off`. -/
structure Choice (α : Type) where
  alternative : Alternative α
  on : String
  off : String
  phi : String
  psi : String

namespace Choice

def indicator (k : Choice α) : Variable α := .binary k.on

def auxiliaries (bigM : α) (k : Choice α) : List (Variable α) :=
  match k.alternative.relation with
  | .eq => [.binary k.on, .slack bigM k.phi, .slack bigM k.psi]
  | _ => [.binary k.on, .binary k.off, .slack bigM k.phi, .slack bigM k.psi]

def rows (d : Disjunction α) (bigM : α) (k : Choice α) : List (Constraint α) :=
  match k.alternative.relation with
  | .eq => d.equalityRows bigM k.alternative (.binary k.on) (.slack bigM k.phi) (.slack bigM k.psi)
  | _ => d.inequalityRows bigM k.alternative (.binary k.on) (.binary k.off) (.slack bigM k.phi)
      (.slack bigM k.psi)

theorem of_equality {k : Choice α} (h : k.alternative.relation = .eq) (d : Disjunction α) (bigM : α) :
    k.auxiliaries bigM = [.binary k.on, .slack bigM k.phi, .slack bigM k.psi] ∧
      k.rows d bigM = d.equalityRows bigM k.alternative (.binary k.on) (.slack bigM k.phi)
        (.slack bigM k.psi) := by
  simp only [auxiliaries, rows, h, and_self]

theorem of_inequality {k : Choice α} (h : k.alternative.relation ≠ .eq) (d : Disjunction α) (bigM : α) :
    k.auxiliaries bigM = [.binary k.on, .binary k.off, .slack bigM k.phi, .slack bigM k.psi] ∧
      k.rows d bigM = d.inequalityRows bigM k.alternative (.binary k.on) (.binary k.off)
        (.slack bigM k.phi) (.slack bigM k.psi) := by
  unfold auxiliaries rows
  split
  · contradiction
  · exact ⟨rfl, rfl⟩

end Choice

variable {σ : Type} [NameSource σ]

/-- The names of an alternative, in the order in which they are drawn. -/
def Choice.draw (a : Alternative α) : StateM σ (Choice α) :=
  match a.relation with
  | .eq => do
    let on ← NameSource.fresh "or_s"
    let phi ← NameSource.fresh "or_phi"
    let psi ← NameSource.fresh "or_phi_prime"
    return ⟨a, on, "", phi, psi⟩
  | _ => do
    let on ← NameSource.fresh "or_s"
    let off ← NameSource.fresh "or_s_prime"
    let phi ← NameSource.fresh "or_phi"
    let psi ← NameSource.fresh "or_phi_prime"
    return ⟨a, on, off, phi, psi⟩

omit [Scalar α] in
theorem Choice.draw_alternative (a : Alternative α) (s : σ) : (Choice.draw a s).1.alternative = a := by
  obtain ⟨lhs, relation, rhs⟩ := a
  cases relation <;> rfl

theorem Choice.draw_draws (bigM : α) (a : Alternative α) (s : NameSupply) :
    ∃ k t, Choice.alternative k = a ∧ Choice.draw a s = (k, t) ∧ Draws s (k.auxiliaries bigM) t := by
  by_cases h : a.relation = .eq
  · refine ⟨_, _, ?_, by simp only [draw, h]; rfl, ?_⟩
    · rfl
    · simp only [Choice.auxiliaries, h]
      exact .cons "or_s" rfl (.cons "or_phi" rfl (.cons "or_phi_prime" rfl (.nil _)))
  · refine ⟨_, _, ?_, by simp only [draw]; rfl, ?_⟩
    · rfl
    · simp only [Choice.auxiliaries]
      exact .cons "or_s" rfl (.cons "or_s_prime" rfl (.cons "or_phi" rfl (.cons "or_phi_prime" rfl (.nil _))))

theorem lowerAlternative_eq (d : Disjunction α) (bigM : α) (a : Alternative α) :
    (d.lowerAlternative bigM a : StateM σ _) = (fun k => (k.indicator, k.rows d bigM)) <$> Choice.draw a := by
  obtain ⟨lhs, relation, rhs⟩ := a
  cases relation <;> rfl

/-- The choices of a disjunction, named one after the other. -/
def choices (d : Disjunction α) : StateM σ (List (Choice α)) := d.alternatives.mapM Choice.draw

omit [Scalar α] in
theorem choices_alternatives (d : Disjunction α) (s : σ) : (d.choices s).1.map (·.alternative) = d.alternatives :=
  (NameSource.mapM_told Choice.draw_alternative d.alternatives s).trans (List.map_id _)

theorem choices_draws (d : Disjunction α) (bigM : α) (s : NameSupply) :
    ∃ (ks : List (Choice α)) (t : NameSupply), ks.map (·.alternative) = d.alternatives ∧
      d.choices s = (ks, t) ∧ Draws s (ks.flatMap (·.auxiliaries bigM)) t := by
  obtain ⟨ks, t, ha, hr, hd⟩ := Naming.mapM_draws Choice.draw id Choice.alternative id
    (Choice.auxiliaries bigM) d.alternatives (fun a _ s => Choice.draw_draws bigM a s) s
  rw [List.map_id] at ha hr
  exact ⟨ks, t, ha, hr, hd⟩

/-- At least one indicator is on. -/
def closing (d : Disjunction α) (ks : List (Choice α)) : Constraint α :=
  d.row (ks.map fun k => .single 1 k.indicator) .ge 1

theorem lower_eq (d : Disjunction α) (bigM : α) :
    (d.lower bigM : StateM σ _) = (fun ks => ks.flatMap (·.rows d bigM) ++ [d.closing ks]) <$> d.choices := by
  have named : (d.lowerAlternative bigM : Alternative α → StateM σ _) =
      fun a => (fun k => (k.indicator, k.rows d bigM)) <$> Choice.draw a :=
    funext (d.lowerAlternative_eq bigM)
  simp only [lower, named, NameSource.mapM_map, choices, closing, bind_map_left, List.flatMap_map, List.map_map]
  rfl

theorem lower_draws (d : Disjunction α) (bigM : α) (s : NameSupply) :
    ∃ (ks : List (Choice α)) (t : NameSupply), ks.map (·.alternative) = d.alternatives ∧
      d.lower bigM s = (ks.flatMap (·.rows d bigM) ++ [d.closing ks], t) ∧
      Draws s (ks.flatMap (·.auxiliaries bigM)) t := by
  obtain ⟨ks, t, ha, hc, hd⟩ := d.choices_draws bigM s
  exact ⟨ks, t, ha, by rw [lower_eq, NameSource.map_run hc], hd⟩

end Disjunction

/-- The switches of a set, one for each position. -/
def Sos1.switches {σ : Type} [NameSource σ] (c : Sos1 α) : StateM σ (List (Variable α)) :=
  c.members.mapM fun _ => NameSource.freshBinary "sos_binary"

/-- A switch is a binary variable under the name that was drawn for its position. -/
theorem Sos1.switches_named {σ : Type} [NameSource σ] (c : Sos1 α) (s : σ) :
    ∃ names : List String, names.length = c.members.length ∧ (c.switches s).1 = names.map .binary := by
  have drawn : (c.switches : StateM σ _) =
      List.map Variable.binary <$> c.members.mapM fun _ => NameSource.fresh "sos_binary" :=
    NameSource.mapM_map _ _ _
  have answers := NameSource.mapM_answers (fun _ => NameSource.fresh "sos_binary") c.members s
  refine ⟨_, answers.length_eq.symm, ?_⟩
  rw [drawn]
  rfl

theorem Sos1.switches_draws (c : Sos1 α) (s : NameSupply) :
    ∃ (names : List String) (t : NameSupply), names.length = c.members.length ∧
      c.switches s = (names.map .binary, t) ∧ Draws s (names.map (Variable.binary (α := α))) t := by
  obtain ⟨names, t, hn, hr, hd⟩ := Naming.mapM_draws
    (fun _ => NameSource.freshBinary (α := α) "sos_binary") (fun _ => ()) (fun _ => ()) Variable.binary
    (fun n => [Variable.binary (α := α) n]) c.members
    (fun _ _ s => ⟨(Naming.fresh "sos_binary" s).1, (Naming.fresh "sos_binary" s).2, rfl, rfl,
      .cons "sos_binary" rfl (.nil _)⟩) s
  exact ⟨names, t, by simpa using congrArg List.length hn, hr, List.map_eq_flatMap ▸ hd⟩

theorem Sos1.lower_eq {σ : Type} [NameSource σ] (c : Sos1 α) : (c.lower : StateM σ _) = c.rows <$> c.switches := rfl

theorem Sos1.lower_draws (c : Sos1 α) (s : NameSupply) :
    ∃ (names : List String) (t : NameSupply), names.length = c.members.length ∧
      c.lower s = (c.rows (names.map .binary), t) ∧ Draws s (names.map (Variable.binary (α := α))) t := by
  obtain ⟨names, t, hn, hs, hd⟩ := c.switches_draws s
  exact ⟨names, t, hn, by rw [lower_eq, NameSource.map_run hs], hd⟩

/-- The names of the slack variables of `≠`. -/
def Comparison.slackNames {σ : Type} [NameSource σ] : StateM σ (String × String) := do
  let above ← NameSource.fresh "psi"
  let below ← NameSource.fresh "psi_prime"
  return (above, below)

theorem Comparison.slackNames_draws (bigM : α) (s : NameSupply) :
    ∃ above below t, slackNames s = ((above, below), t) ∧
      Draws s [Variable.slack bigM above, .slack bigM below] t :=
  ⟨_, _, _, rfl, .cons "psi" rfl (.cons "psi_prime" rfl (.nil _))⟩

theorem Comparison.lower_eq {σ : Type} [NameSource σ] {c : Comparison α} (excluding : c.relation = .ne) (bigM : α) :
    (c.lower bigM : StateM σ _) =
      (fun names => c.separation bigM (.slack bigM names.1) (.slack bigM names.2)) <$> slackNames := by
  simp only [lower, excluding]
  rfl

/-- What a constraint becomes in the pass that takes it out, given the auxiliaries drawn for it. -/
inductive Lowering (bigM : α) : Constraint α → List (Variable α) → List (Constraint α) → Prop where
  | below {c : Comparison α} (strict : c.relation = .lt) :
      Lowering bigM (.comparison c) [] [.comparison { c with relation := .le, rhs := c.rhs - c.margin }]
  | above {c : Comparison α} (strict : c.relation = .gt) :
      Lowering bigM (.comparison c) [] [.comparison { c with relation := .ge, rhs := c.rhs + c.margin }]
  | apart {c : Comparison α} (excluding : c.relation = .ne) (above below : String) :
      Lowering bigM (.comparison c) [.slack bigM above, .slack bigM below]
        (c.separation bigM (.slack bigM above) (.slack bigM below))
  | sos1 (c : Sos1 α) (names : List String) (positions : names.length = c.members.length) :
      Lowering bigM (.sos1 c) (names.map .binary) ((c.rows (names.map .binary)).map .comparison)
  | binaryOr (b : BinaryOr α) : Lowering bigM (.binaryOr b) [] (b.lower.map .comparison)
  | disjunction (d : Disjunction α) (ks : List (Disjunction.Choice α))
      (choices : ks.map (·.alternative) = d.alternatives) :
      Lowering bigM (.disjunction d) (ks.flatMap (·.auxiliaries bigM))
        (ks.flatMap (·.rows d bigM) ++ [d.closing ks])

theorem Comparison.lower_draws (c : Comparison α) (bigM : α) (s : NameSupply)
    (h : c.relation.isCanonical = false) :
    ∃ vs rows t, Lowering bigM (.comparison c) vs rows ∧ c.lower bigM s = (rows, t) ∧ Draws s vs t := by
  cases hr : c.relation with
  | le | eq | ge => simp [hr, Relation.isCanonical] at h
  | lt => exact ⟨_, _, s, .below hr, by simp only [lower, hr]; rfl, .nil s⟩
  | gt => exact ⟨_, _, s, .above hr, by simp only [lower, hr]; rfl, .nil s⟩
  | ne =>
    obtain ⟨above, below, t, hn, hd⟩ := slackNames_draws bigM s
    exact ⟨_, _, t, .apart hr above below, by rw [lower_eq hr, NameSource.map_run hn], hd⟩

/-- One constraint with all that comes of it. -/
structure Rewriting (bigM : α) where
  source : Constraint α
  auxiliaries : List (Variable α)
  rows : List (Constraint α)
  lowers : Lowering bigM source auxiliaries rows

/-- A pass takes out what is its own, keeps the rest, and adds the rows with the variables they use. -/
structure Passed (p : Problem α) (pass : Pass) (kept : List (Constraint α))
    (ws : List (Rewriting p.policy.bigM)) (q : Problem α) : Prop where
  drawn : Draws ⟨p.registry.names, p.nextAuxiliary⟩ (ws.flatMap (·.auxiliaries))
    ⟨p.registry.names, q.nextAuxiliary⟩
  taken : ∀ w ∈ ws, w.source.takenBy = some pass
  left : ∀ c ∈ kept, c.takenBy ≠ some pass
  before : p.constraints.Perm (kept ++ ws.map (·.source))
  after : q.constraints.Perm (kept ++ ws.flatMap (·.rows))
  registry : q.registry = p.registry.insertAll ((ws.flatMap (·.rows)).flatMap Constraint.occurrences)
  policy : q.policy = p.policy
  objective : q.objective = p.objective
  sense : q.sense = p.sense

/-- A pass is described by what it leaves in place and by the rewriting of what it takes out. -/
theorem Passed.of_replacement {p rest : Problem α} {pass : Pass} {consumed : Nat} {t : NameSupply}
    {ws : List (Rewriting p.policy.bigM)}
    (replaced : p.replacement pass = ⟨rest, consumed, ws.flatMap (·.rows)⟩)
    (drawn : Draws ⟨p.registry.names, p.nextAuxiliary⟩ (ws.flatMap (·.auxiliaries)) t)
    (next : rest.nextAuxiliary = t.next)
    (taken : ∀ c ∈ ws.map (·.source), c.takenBy = some pass)
    (left : ∀ c ∈ rest.constraints, c.takenBy ≠ some pass)
    (before : p.constraints.Perm (rest.constraints ++ ws.map (·.source)))
    (frame : rest.registry = p.registry ∧ rest.policy = p.policy ∧ rest.objective = p.objective ∧
      rest.sense = p.sense) :
    Passed p pass rest.constraints ws (p.substitute pass).1 := by
  obtain ⟨hc, hr, hp, ho, hs, hn⟩ := rest.insertProduced_fold (ws.flatMap (·.rows))
  obtain ⟨fr, fp, fo, fs⟩ := frame
  have result : (p.substitute pass).1 =
      { (ws.flatMap (·.rows)).foldl Problem.insertProduced rest with
        flags := ((ws.flatMap (·.rows)).foldl Problem.insertProduced rest).flags.mark pass } := by
    simp only [Problem.substitute, replaced]
  have supply : t = ⟨p.registry.names, (p.substitute pass).1.nextAuxiliary⟩ := by
    rw [result]
    exact congrArg₂ NameSupply.mk drawn.taken (next.symm.trans hn.symm)
  refine ⟨supply ▸ drawn, fun w hw => taken _ (List.mem_map_of_mem hw), left, before, ?_, ?_, ?_, ?_, ?_⟩
  all_goals rw [result]
  · exact hc
  · exact fr ▸ hr
  · exact hp.trans fp
  · exact ho.trans fo
  · exact hs.trans fs

namespace Problem

theorem disjunctions_passed (p : Problem α) :
    ∃ kept ws, Passed p .disjunctions kept ws (p.substitute .disjunctions).1 := by
  obtain ⟨ws, t, hs, hr, hd⟩ := Naming.mapM_draws (·.lower p.policy.bigM) .disjunction
    Rewriting.source Rewriting.rows (fun w : Rewriting p.policy.bigM => w.auxiliaries) p.disjunctions
    (fun d _ s => by
      obtain ⟨ks, t, ha, hl, hd⟩ := d.lower_draws p.policy.bigM s
      exact ⟨⟨_, _, _, .disjunction d ks ha⟩, t, rfl, hl, hd⟩)
    ⟨p.registry.names, p.nextAuxiliary⟩
  have replaced : p.replacement .disjunctions =
      ⟨{ p with disjunctions := [], nextAuxiliary := t.next }, p.disjunctions.length,
        ws.flatMap (·.rows)⟩ := by
    simp only [replacement, replaceDisjunctions, draw_of_run hr, List.flatMap_def]
  refine ⟨_, ws, .of_replacement replaced hd rfl ?_ ?_ ?_ ⟨rfl, rfl, rfl, rfl⟩⟩
  · rw [hs]
    simp [Constraint.takenBy]
  · intro c hc
    rw [mem_constraints] at hc
    cases c <;> simp_all [Constraint.takenBy]
  · rw [hs]
    simp only [constraints, List.map_nil, List.append_nil, List.append_assoc]
    exact .append_left _ (.append_left _ List.perm_append_comm)

/-- What is kept and what is replaced, each in the order in which it was stated. -/
theorem replacement_relations (p : Problem α) : p.replacement .relations =
    let others := p.comparisons.filter (!·.relation.isCanonical)
    let drawn := p.draw (others.mapM (·.lower p.policy.bigM))
    ⟨{ p with comparisons := p.comparisons.filter (·.relation.isCanonical), nextAuxiliary := drawn.2 },
      others.length, drawn.1.flatten⟩ := by
  simp only [replacement, replaceRelations, List.partition_eq_filter_filter, Function.comp_def]

theorem relations_passed (p : Problem α) :
    ∃ kept ws, Passed p .relations kept ws (p.substitute .relations).1 := by
  obtain ⟨ws, t, hs, hr, hd⟩ := Naming.mapM_draws (·.lower p.policy.bigM) .comparison
    Rewriting.source Rewriting.rows (fun w : Rewriting p.policy.bigM => w.auxiliaries)
    (p.comparisons.filter (!·.relation.isCanonical))
    (fun c hc s => by
      obtain ⟨vs, rows, t, hl, hr, hd⟩ := c.lower_draws p.policy.bigM s
        (by simpa using (List.mem_filter.mp hc).2)
      exact ⟨⟨_, _, _, hl⟩, t, rfl, hr, hd⟩)
    ⟨p.registry.names, p.nextAuxiliary⟩
  have replaced : p.replacement .relations =
      ⟨{ p with
          comparisons := p.comparisons.filter (·.relation.isCanonical), nextAuxiliary := t.next },
        (p.comparisons.filter (!·.relation.isCanonical)).length, ws.flatMap (·.rows)⟩ := by
    simp only [replacement_relations, draw_of_run hr, List.flatMap_def]
  refine ⟨_, ws, .of_replacement replaced hd rfl ?_ ?_ ?_ ⟨rfl, rfl, rfl, rfl⟩⟩
  · rw [hs]
    intro c hc
    obtain ⟨c, hc, rfl⟩ := List.mem_map.mp hc
    simp_all [Constraint.takenBy]
  · intro c hc
    rw [mem_constraints] at hc
    cases c <;> simp_all [Constraint.takenBy]
  · rw [hs]
    exact p.partition_comparisons

theorem binaryOrs_passed (p : Problem α) :
    ∃ kept ws, Passed p .binaryOrs kept ws (p.substitute .binaryOrs).1 := by
  let ws : List (Rewriting p.policy.bigM) := p.binaryOrs.map fun b => ⟨_, _, _, .binaryOr b⟩
  have replaced : p.replacement .binaryOrs =
      ⟨{ p with binaryOrs := [] }, p.binaryOrs.length, ws.flatMap (·.rows)⟩ := by
    simp only [replacement, replaceBinaryOrs, ws, List.flatMap_map, List.map_flatMap]
  have drawn : Draws ⟨p.registry.names, p.nextAuxiliary⟩ (ws.flatMap (·.auxiliaries))
      ⟨p.registry.names, p.nextAuxiliary⟩ := by
    have none : ws.flatMap (·.auxiliaries) = [] := by simp [ws]
    exact none ▸ .nil _
  refine ⟨_, ws, .of_replacement replaced drawn rfl ?_ ?_ ?_ ⟨rfl, rfl, rfl, rfl⟩⟩
  · simp [ws, Constraint.takenBy]
  · intro c hc
    rw [mem_constraints] at hc
    cases c <;> simp_all [Constraint.takenBy]
  · simp [constraints, ws, Function.comp_def]

/-- A set with the names of its switches, one for each position. -/
abbrev Switched (α : Type) := { k : Sos1 α × List String // k.2.length = k.1.members.length }

def Switched.rewriting (bigM : α) (k : Switched α) : Rewriting bigM :=
  ⟨_, _, _, .sos1 k.1.1 k.1.2 k.2⟩

theorem sos1s_passed (p : Problem α) :
    ∃ kept ws, Passed p .sos1s kept ws (p.substitute .sos1s).1 := by
  obtain ⟨ks, t, hs, hr, hd⟩ := Naming.mapM_draws Sos1.lower id (fun k : Switched α => k.1.1)
    (fun k => k.1.1.rows (k.1.2.map .binary)) (fun k => k.1.2.map .binary) p.sos1s
    (fun c _ s => by
      obtain ⟨names, t, hn, hl, hd⟩ := c.lower_draws s
      exact ⟨⟨(c, names), hn⟩, t, rfl, hl, hd⟩)
    ⟨p.registry.names, p.nextAuxiliary⟩
  let ws := ks.map (Switched.rewriting p.policy.bigM)
  have replaced : p.replacement .sos1s =
      ⟨{ p with sos1s := [], nextAuxiliary := t.next }, p.sos1s.length, ws.flatMap (·.rows)⟩ := by
    simp only [replacement, replaceSos1s, draw_of_run hr, ws, List.flatMap_map, ← List.flatMap_def,
      List.map_flatMap]
    rfl
  have sources : ws.map (·.source) = p.sos1s.map .sos1 := by
    rw [List.map_id] at hs
    rw [← hs, List.map_map, List.map_map]
    rfl
  have drawn : ws.flatMap (·.auxiliaries) = ks.flatMap fun k => k.1.2.map .binary := by
    rw [List.flatMap_map]
    rfl
  refine ⟨_, ws, .of_replacement replaced (drawn ▸ hd) rfl ?_ ?_ ?_ ⟨rfl, rfl, rfl, rfl⟩⟩
  · rw [sources]
    simp [Constraint.takenBy]
  · intro c hc
    rw [mem_constraints] at hc
    cases c <;> simp_all [Constraint.takenBy]
  · rw [sources]
    simp only [constraints, List.map_nil, List.append_nil, List.append_assoc]
    exact .append_left _ (List.perm_append_comm.trans (by simp only [List.append_assoc]; exact .refl _))

/-- Every pass replaces constraint by constraint, with auxiliaries that are new and differ from each other. -/
theorem substitute_passed (p : Problem α) (pass : Pass) :
    ∃ kept ws, Passed p pass kept ws (p.substitute pass).1 := by
  cases pass with
  | disjunctions => exact p.disjunctions_passed
  | relations => exact p.relations_passed
  | binaryOrs => exact p.binaryOrs_passed
  | sos1s => exact p.sos1s_passed

end Problem
end MixedInteger
