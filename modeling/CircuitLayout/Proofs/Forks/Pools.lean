import CircuitLayout.Proofs.Forks.Frozen

namespace CircuitLayout

/-! # Assignments side by side

Roots, their forks, and the forks of these are asked for one thing after another, each by its place
in a pool. Main statement: `Pool.data_change_only_in_synthesis`, whatever is asked of whichever of
them, the phase of each moves forward only, and its data stay as they are unless it synthesizes.
-/

/-! ## Phases in their order -/

/-- How far a synthesis has come. -/
def Phase.rank : Phase → Nat
  | configuring => 0
  | synthesizing => 1
  | sealed => 2

/-- No phase comes after the last. -/
theorem Phase.eq_sealed_of_rank {phase : Phase} (h : Phase.sealed.rank ≤ phase.rank) :
    phase = .sealed := by
  cases phase <;> simp [rank] at h ⊢

/-- No phase comes before the first. -/
theorem Phase.eq_configuring_of_rank {phase : Phase} (h : phase.rank ≤ Phase.configuring.rank) :
    phase = .configuring := by
  cases phase <;> simp [rank] at h ⊢

/-- No call leads back to an earlier phase. -/
theorem AssignmentCall.rank_nextPhase (c : AssignmentCall) (phase : Phase) :
    phase.rank ≤ (c.nextPhase phase).rank := by
  cases c with
  | start => cases phase <;> decide
  | close => cases phase <;> decide
  | _ => exact Nat.le_refl _

/-! ## Assignments of any type -/

theorem CallLog.keeps_phase_assign {phase : Phase} (column : Column) (label : String) (row : Nat)
    (value : Producer) :
    Run.Keeps (fun l : CallLog => l.phase = phase) (CallLog.assign column label row value) := by
  refine (keeps_askProducer column value).bind fun v => ?_
  exact Run.Keeps.bind (Run.Keeps.modify fun _ hl => hl) fun _ => Run.Keeps.pure _

namespace AnyAssignment

/-- Do two assignments hold the same cells, selectors, copies and lent rows? A call log holds none
of these. -/
def SameData : AnyAssignment → AnyAssignment → Prop
  | prover p, prover q => p.SameData q
  | keys k, keys l => k.SameData l
  | log _, log _ => True
  | _, _ => False

/-- The data of an assignment is its own. -/
theorem SameData.refl (a : AnyAssignment) : a.SameData a := by
  cases a with
  | prover p => exact Prover.SameData.refl p
  | keys k => exact KeyBuilder.SameData.refl k
  | log l => trivial

/-- Data that stays twice stays. -/
theorem SameData.trans {a b c : AnyAssignment} (h : a.SameData b) (h' : b.SameData c) :
    a.SameData c := by
  cases a <;> cases b <;> cases c <;> try contradiction
  · exact Prover.SameData.trans h h'
  · exact Board.SameData.trans h h'
  · trivial

/-- What calls do to a call log: they move its phase, if they start or close the synthesis. -/
theorem phase_of_log (c : AssignmentCall) (l : CallLog) :
    (c.perform l).state.phase = c.nextPhase l.phase := by
  rcases l with ⟨phase, calls⟩
  cases c with
  | start => cases phase <;> rfl
  | close => cases phase <;> rfl
  | assignAdvice label column row value =>
    show (CallLog.assign (.advice column) label row value ⟨phase, calls⟩).state.phase = phase
    exact CallLog.keeps_phase_assign (.advice column) label row value ⟨phase, calls⟩ rfl
  | assignFixed label column row value =>
    show (CallLog.assign (.fixed column) label row value ⟨phase, calls⟩).state.phase = phase
    exact CallLog.keeps_phase_assign (.fixed column) label row value ⟨phase, calls⟩ rfl
  | _ => rfl

/-- A call on a prover in a pool is that call on the prover. -/
theorem perform_prover (c : AssignmentCall) (p : Prover) :
    (c.perform (prover p)).state = prover (c.perform p).state := by
  cases c <;> rfl

/-- A call on a key builder in a pool is that call on the key builder. -/
theorem perform_keys (c : AssignmentCall) (k : KeyBuilder) :
    (c.perform (keys k)).state = keys (c.perform k).state := by
  cases c <;> rfl

/-- A call on a log in a pool is that call on the log. -/
theorem perform_log (c : AssignmentCall) (l : CallLog) :
    (c.perform (log l)).state = log (c.perform l).state := by
  cases c <;> rfl

theorem state_map {σ α β : Type} (f : α → β) (m : Run σ α) (s : σ) :
    ((f <$> m) s).state = (m s).state := by
  rw [map_eq_pure_bind, Run.bind_apply]
  rcases m s with ⟨_ | a, t, es⟩ <;> rfl

/-- The data of an assignment are frozen outside of its synthesis. -/
theorem freezes : Freezes SameData where
  call c a := by
    cases a with
    | prover p =>
      rw [perform_prover]
      exact Prover.freezes.call c p
    | keys k =>
      rw [perform_keys]
      exact KeyBuilder.freezes.call c k
    | log l =>
      rw [perform_log]
      exact ⟨phase_of_log c l, fun _ => trivial⟩
  fork ranges a := by
    cases a with
    | prover p =>
      have hfork := Prover.freezes.fork ranges p
      rw [← state_map (List.map prover)] at hfork
      exact hfork
    | keys k =>
      have hfork := KeyBuilder.freezes.fork ranges k
      rw [← state_map (List.map keys)] at hfork
      exact hfork
    -- a log has no data, so none can change
    | log l => exact ⟨rfl, fun _ => trivial⟩
  merge offers a := by
    cases a with
    | prover p => exact Prover.freezes.merge _ p
    | keys k => exact KeyBuilder.freezes.merge _ k
    | log l => exact ⟨rfl, fun _ => trivial⟩

end AnyAssignment

/-! ## Pools -/

/-- Assignments that live side by side: roots, their forks, and the forks of these. Each keeps its
place, and the place of one that was given away stays empty. -/
abbrev Pool : Type := List (Option AnyAssignment)

/-- What may be asked of the members of a pool. -/
inductive PoolCommand where
  | call (member : Nat) (c : AssignmentCall)
  /-- Forks a member; the forks join the pool. -/
  | fork (member : Nat) (ranges : List RowSpan)
  /-- Merges members into one of them, in the given order. They are given away, whether the merge
  succeeds or fails. -/
  | merge (member : Nat) (offered : List Nat)

/-- The place of the member that is asked. -/
def PoolCommand.member : PoolCommand → Nat
  | call i _ | fork i _ | merge i _ => i

namespace Pool

variable {pool : Pool} {i j : Nat} {a b : AnyAssignment}

/-- The member at a place, if one is there. -/
def member? (pool : Pool) (i : Nat) : Option AnyAssignment := pool[i]?.join

/-- Puts an assignment in the place of a member that is there. -/
def put (pool : Pool) (i : Nat) (a : AnyAssignment) : Pool := pool.modify i (·.map fun _ => a)

/-- What one member is offered when another one is named: what is no longer there is a stranger. -/
def offer (pool : Pool) (i j : Nat) : Offer AnyAssignment :=
  match pool.member? j with
  | none => .stranger
  | some a => if j = i then .itself else .fork a

/-- Takes members out of a pool and offers them to one of its members. What is named twice is no
longer there the second time. -/
def offerAll (i : Nat) : List Nat → Pool → List (Offer AnyAssignment) × Pool
  | [], pool => ([], pool)
  | j :: js, pool =>
    let (rest, left) := offerAll i js (pool.set j none)
    (pool.offer i j :: rest, left)

/-- What a command leaves of a pool, given the member that is asked. -/
def ask (pool : Pool) (a : AnyAssignment) : PoolCommand → Pool
  | .call i c => pool.put i (c.perform a).state
  | .fork i ranges =>
    let forked := Assignment.fork ranges a
    pool.put i forked.state ++ (forked.result.toOption.getD []).map some
  | .merge i offered =>
    let (offers, left) := offerAll i offered pool
    left.put i (Assignment.merge offers a).state

/-- What a command leaves of a pool. Nothing is asked of a member that is not there. -/
def run (pool : Pool) (c : PoolCommand) : Pool :=
  match pool.member? c.member with
  | none => pool
  | some a => pool.ask a c

/-- What commands leave of a pool, one after another. -/
def runAll (pool : Pool) (commands : List PoolCommand) : Pool := commands.foldl run pool

/-- Commands are run one after the other. -/
theorem runAll_append (before after : List PoolCommand) :
    pool.runAll (before ++ after) = (pool.runAll before).runAll after := List.foldl_append

/-- Who is there after an assignment was put in some place: the assignment in that place, and who was
there before in every other one. -/
theorem of_member?_put (h : (pool.put i a).member? j = some b) :
    ∃ c, pool.member? j = some c ∧ b = if i = j then a else c := by
  unfold member? put at h
  rw [List.getElem?_modify, Option.join_eq_some_iff, Option.map_eq_map,
    Option.map_eq_some_iff] at h
  rcases h with ⟨m, hm, hb⟩
  by_cases hij : i = j
  · rw [if_pos hij] at hb
    rcases Option.map_eq_some_iff.1 hb with ⟨c, rfl, rfl⟩
    exact ⟨c, Option.join_eq_some_iff.2 hm, (if_pos hij).symm⟩
  · rw [if_neg hij] at hb
    exact ⟨b, Option.join_eq_some_iff.2 (hb ▸ hm), (if_neg hij).symm⟩

/-- Who joins a pool takes nobody's place. -/
theorem member?_append (forks : Pool) (hi : i < pool.length) :
    (pool ++ forks).member? i = pool.member? i := by
  unfold member?
  rw [List.getElem?_append_left hi]

/-- To change a member leaves all members in their places. -/
theorem length_put : (pool.put i a).length = pool.length := List.length_modify ..

/-- To offer members leaves their places. -/
theorem length_offerAll (offered : List Nat) : (offerAll i offered pool).2.length = pool.length := by
  induction offered generalizing pool with
  | nil => rfl
  | cons k ks ih => exact ih.trans List.length_set

/-- No place is ever given up. -/
theorem length_le_run (c : PoolCommand) : pool.length ≤ (pool.run c).length := by
  unfold run
  cases pool.member? c.member with
  | none => exact Nat.le_refl _
  | some a =>
    cases c with
    | call i c => exact Nat.le_of_eq length_put.symm
    | fork i ranges =>
      simp only [ask, List.length_append, length_put]
      omega
    | merge i offered => exact Nat.le_of_eq (length_put.trans (length_offerAll offered)).symm

/-- Who is left in a pool after others were taken out was there before. -/
theorem member?_of_offerAll {offered : List Nat} {pool : Pool}
    (h : (offerAll i offered pool).2.member? j = some a) : pool.member? j = some a := by
  induction offered generalizing pool with
  | nil => exact h
  | cons k ks ih =>
    have hset : Pool.member? (pool.set k none) j = some a := ih h
    unfold member? at hset ⊢
    rw [List.getElem?_set] at hset
    split at hset
    · split at hset <;> cases hset
    · exact hset

/-! ## What commands do to a member -/

/-- The phase of a member after a command, given the one before. -/
def nextPhase (i : Nat) (phase : Phase) : PoolCommand → Phase
  | .call j c => if j = i then c.nextPhase phase else phase
  | .fork .. | .merge .. => phase

/-- No command leads a member back to an earlier phase. -/
theorem rank_nextPhase (i : Nat) (phase : Phase) (c : PoolCommand) :
    phase.rank ≤ (nextPhase i phase c).rank := by
  cases c with
  | call j c =>
    show phase.rank ≤ (if j = i then c.nextPhase phase else phase).rank
    split
    · exact c.rank_nextPhase phase
    · exact Nat.le_refl _
  | fork | merge => exact Nat.le_refl _

/-- What is asked of a member guards it, and does not concern the others. -/
theorem guarded_put (next : Phase → Phase) {d : AnyAssignment}
    (hi : ∀ c, pool.member? i = some c → c = a)
    (ha : PhaseGuarded AnyAssignment.SameData (next (Assignment.phase a)) a d)
    (hb : (pool.put i d).member? j = some b) :
    ∃ c, pool.member? j = some c ∧
      PhaseGuarded AnyAssignment.SameData
        (if i = j then next (Assignment.phase c) else Assignment.phase c) c b := by
  rcases of_member?_put hb with ⟨c, hc, rfl⟩
  refine ⟨c, hc, ?_⟩
  by_cases hij : i = j
  · subst hij
    obtain rfl : c = a := hi c hc
    rw [if_pos rfl, if_pos rfl]
    exact ha
  · rw [if_neg hij, if_neg hij]
    exact ⟨rfl, fun _ => .refl c⟩

/-- Whatever is asked of whichever member, every member that is there afterwards was there before,
and it is guarded. -/
theorem guarded_run {c : PoolCommand} (hi : i < pool.length)
    (hb : (pool.run c).member? i = some b) :
    ∃ a, pool.member? i = some a ∧
      PhaseGuarded AnyAssignment.SameData (nextPhase i (Assignment.phase a) c) a b := by
  unfold run at hb
  cases hm : pool.member? c.member with
  | none =>
    rw [hm] at hb
    refine ⟨b, hb, ?_, fun _ => .refl b⟩
    -- a command to a member that is gone does nothing
    cases c with
    | call j c =>
      have hij : j ≠ i := by
        rintro rfl
        rw [show pool.member? j = none from hm] at hb
        cases hb
      show Assignment.phase b = if j = i then _ else _
      rw [if_neg hij]
    | fork | merge => rfl
  | some m =>
    rw [hm] at hb
    -- the command runs on this member and no other
    have hsame : ∀ d, pool.member? c.member = some d → d = m := by
      intro d hd
      exact Option.some.inj (hd.symm.trans hm)
    cases c with
    | call j c => exact guarded_put c.nextPhase hsame (AnyAssignment.freezes.call c m) hb
    | fork j ranges =>
      have hb : ((pool.put j _) ++ _).member? i = some b := hb
      rw [member?_append _ (by rw [length_put]; exact hi)] at hb
      have hguarded := guarded_put id hsame (AnyAssignment.freezes.fork ranges m) hb
      simp only [id, ite_self] at hguarded
      exact hguarded
    | merge j offered =>
      -- offering may take the member itself, and changes no other
      have hleft : ∀ d, (offerAll j offered pool).2.member? j = some d → d = m :=
        fun d hd => hsame d (member?_of_offerAll hd)
      have hguarded := guarded_put id hleft
        (AnyAssignment.freezes.merge (offerAll j offered pool).1 m) hb
      simp only [id, ite_self] at hguarded
      rcases hguarded with ⟨a, ha, hguarded⟩
      exact ⟨a, member?_of_offerAll ha, hguarded⟩

/-- No member is ever removed. -/
theorem length_le_runAll (commands : List PoolCommand) :
    pool.length ≤ (pool.runAll commands).length := by
  induction commands generalizing pool with
  | nil => exact Nat.le_refl _
  | cons c cs ih => exact Nat.le_trans (length_le_run c) ih

/-- A member has its place in the pool. -/
theorem lt_length_of_member (h : pool.member? i = some a) : i < pool.length := by
  by_contra hge
  unfold member? at h
  rw [List.getElem?_eq_none (by omega)] at h
  cases h

/-- Over a whole run the phase of a member moves forward, and its data stay as they are if it is
sealed at the beginning, or still configuring at the end. -/
theorem of_runAll {commands : List PoolCommand} (hi : i < pool.length)
    (hb : (pool.runAll commands).member? i = some b) :
    ∃ a, pool.member? i = some a ∧ (Assignment.phase a).rank ≤ (Assignment.phase b).rank ∧
      (Assignment.phase a = .sealed ∨ Assignment.phase b = .configuring → a.SameData b) := by
  -- one command moves the phase up at most, and the data only in synthesis
  induction commands generalizing pool with
  | nil => exact ⟨b, hb, Nat.le_refl _, fun _ => .refl b⟩
  | cons c cs ih =>
    rcases ih (Nat.lt_of_lt_of_le hi (length_le_run c)) hb with ⟨m, hm, hrest, hsame⟩
    rcases guarded_run hi hm with ⟨a, ha, hphase, hdata⟩
    have hfirst : (Assignment.phase a).rank ≤ (Assignment.phase m).rank := by
      rw [hphase]
      exact rank_nextPhase i _ c
    refine ⟨a, ha, Nat.le_trans hfirst hrest, fun h => ?_⟩
    rcases h with hsealed | hconfiguring
    · rw [hsealed] at hfirst
      -- a sealed member stays sealed, and its data stands throughout
      exact (hdata (by rw [hsealed]; decide)).trans (hsame (.inl (Phase.eq_sealed_of_rank hfirst)))
    · rw [hconfiguring] at hrest
      have ha : Assignment.phase a = .configuring :=
        Phase.eq_configuring_of_rank (Nat.le_trans hfirst hrest)
      exact (hdata (by rw [ha]; decide)).trans (hsame (.inr hconfiguring))

/-- Data change in the synthesis only. A member may be asked for anything, and so may its forks and
all others: at every command the phase stays or moves on, and unless the member synthesizes it holds
the same cells, selectors, copies and lent rows as before. So nothing changes any more once it is
sealed, and nothing has changed as long as it is configuring. -/
theorem data_change_only_in_synthesis {commands : List PoolCommand} (ha : pool.member? i = some a)
    (hb : (pool.runAll commands).member? i = some b) :
    (∀ before c after, commands = before ++ c :: after → ∃ a' b',
      (pool.runAll before).member? i = some a' ∧
      ((pool.runAll before).run c).member? i = some b' ∧
      Assignment.phase b' = nextPhase i (Assignment.phase a') c ∧
      (Assignment.phase a' ≠ .synthesizing → a'.SameData b')) ∧
    (Assignment.phase a).rank ≤ (Assignment.phase b).rank ∧
    (Assignment.phase a = .sealed ∨ Assignment.phase b = .configuring → a.SameData b) := by
  have hi := lt_length_of_member ha
  constructor
  · rintro before c after rfl
    have hbefore : i < (pool.runAll before).length := Nat.lt_of_lt_of_le hi (length_le_runAll before)
    rw [runAll_append] at hb
    -- members are only added, so the member is there before and after
    have hc : i < ((pool.runAll before).run c).length :=
      Nat.lt_of_lt_of_le hbefore (length_le_run c)
    have hmore : (((pool.runAll before).run c).runAll after).member? i = some b := hb
    rcases of_runAll hc hmore with ⟨b', hb', -⟩
    -- the command in question is guarded at the state before it
    rcases guarded_run hbefore hb' with ⟨a', ha', hphase, hdata⟩
    exact ⟨a', b', ha', hb', hphase, hdata⟩
  · rcases of_runAll hi hb with ⟨c, hc, hrank, hsame⟩
    obtain rfl : c = a := Option.some.inj (hc.symm.trans ha)
    exact ⟨hrank, hsame⟩

/-- One fixed column, which takes part in copies, and one advice column. -/
def narrow : Schema :=
  { (∅ : Schema) with
    adviceRotations := [[]]
    fixedCount := 1
    equality := [.fixed 0] }

/-- A prover and a key builder that have lent rows to a fork each, and were then closed. -/
def closed : Pool :=
  runAll [some (.prover (.unused 4 narrow [])), some (.keys (.unused 4 narrow))]
    [.call 0 .start, .call 1 .start, .fork 0 [⟨0, 4⟩], .fork 1 [⟨0, 4⟩], .call 0 .close,
      .call 1 .close]

/-- Writes to the forks and to the closed assignments, and merges of the forks into them. -/
def meddling : List PoolCommand :=
  [.call 2 (.assignAdvice "a" 0 1 (.known (.whole 7))), .call 2 (.copy ⟨.fixed 0, 0⟩ ⟨.fixed 0, 1⟩),
    .call 3 (.assignFixed "f" 0 2 (.known (.whole 9))), .call 3 (.copy ⟨.fixed 0, 0⟩ ⟨.fixed 0, 2⟩),
    .call 0 (.assignFixed "f" 0 5 (.known (.whole 1))), .call 1 (.fillFrom 0 5 (some (.whole 3))),
    .fork 0 [⟨4, 6⟩], .call 1 .start, .merge 0 [2], .merge 1 [3]]

/-- The closed prover and the closed key builder come out of all this with the data that they
had. -/
theorem data_change_only_in_synthesis_closed :
    ((closed.member? 0).map Assignment.phase = some .sealed ∧
      (closed.member? 1).map Assignment.phase = some .sealed) ∧
    ∃ p q k l, closed.member? 0 = some p ∧ (closed.runAll meddling).member? 0 = some q ∧
      closed.member? 1 = some k ∧ (closed.runAll meddling).member? 1 = some l ∧
      p.SameData q ∧ k.SameData l := by
  have hprover : (closed.member? 0).map Assignment.phase = some .sealed := by decide +kernel
  have hkeys : (closed.member? 1).map Assignment.phase = some .sealed := by decide +kernel
  refine ⟨⟨hprover, hkeys⟩, ?_⟩
  rcases Option.map_eq_some_iff.1 hprover with ⟨p, hp, hpsealed⟩
  rcases Option.map_eq_some_iff.1 hkeys with ⟨k, hk, hksealed⟩
  -- both members survive the commands
  have hq : ((closed.runAll meddling).member? 0).isSome = true := by decide +kernel
  have hl : ((closed.runAll meddling).member? 1).isSome = true := by decide +kernel
  rcases Option.isSome_iff_exists.1 hq with ⟨q, hq⟩
  rcases Option.isSome_iff_exists.1 hl with ⟨l, hl⟩
  exact ⟨p, q, k, l, hp, hq, hk, hl,
    (data_change_only_in_synthesis hp hq).2.2 (.inl hpsealed),
    (data_change_only_in_synthesis hk hl).2.2 (.inl hksealed)⟩

end Pool

end CircuitLayout
