import CircuitLayout.Proofs.Board.Echoes
import CircuitLayout.Proofs.Forks.Tasks

namespace CircuitLayout

/-! # Forks are transparent

A prover or a key builder may have its work done on forks, and the forks on forks of theirs: what is
left after the merges, and every answer, is what the calls come to when they are made of it directly,
one after another. Main statement: `Task.transparent`.
-/

open Run (Anywhere Keeps Refines)

/-- A board takes the copies of forks whether or not their rows are lent to them. -/
theorem Board.Honors.of_lend {φ : Type} {b c : Board φ} {fs : List (Board φ)} {ranges : List RowSpan}
    (h : (b.lend ranges).Takes (kept fs) c) : b.Honors fs :=
  ⟨_, h.restock b.fixed b.selectors⟩

/-! ## Key builders -/

namespace KeyBuilder

variable {α : Type} {schema : Schema} {rows range : RowSpan} {base k l f : KeyBuilder}
  {fs : List KeyBuilder} {ranges : List RowSpan}

/-- Will a key builder take the copies that forks keep, one fork after another? -/
def Honors (k : KeyBuilder) (fs : List KeyBuilder) : Prop := k.board.Honors (fs.map (·.board))

/-- A run on a fork, matched by the same run on what the fork mirrors. -/
abbrev Echoed (range : RowSpan) (base : KeyBuilder) (m : Run KeyBuilder α) : Prop :=
  Refines (fun f => base.Honors [f]) (fun f k => Mirrors range base f k)
    (fun f k => Mirrors range base f k) Eq m m

/-- What the board answers as its fork does the key builder answers so. -/
theorem echoed_onBoard {m : Run (Board Fraction) α} (h : Board.Echoed range base.board m) :
    Echoed range base (onBoard m) := h.zoom (fun _ _ => rfl) fun _ _ => rfl

/-- What succeeds on a fork succeeds on what the fork mirrors. -/
theorem echoed_perform (hwindow : base.board.window.Covers range) {c : AssignmentCall}
    (hc : c.OnGrid) : Echoed range base (c.perform : Run KeyBuilder c.Reply) := by
  cases c with
  | enableSelector label selector row =>
    exact echoed_onBoard (Board.echoed_enableSelector hwindow selector row)
  | queryAdvice | assignAdvice => exact Refines.pure rfl
  -- a key builder asks of a read that the row lies in the window
  | queryFixed column row =>
    intro f k x f' hmirrors hends _
    obtain ⟨⟨husable, hrow⟩, value, hget, rfl, rfl⟩ := (ends_queryFixed column row x).1 hends
    have hget' := hmirrors.fixed.get hget
    rw [← hmirrors.fixed_eq] at hget'
    rw [← hmirrors.usable_eq] at husable
    exact ⟨_, k, (ends_queryFixed column row _).2
      ⟨⟨husable, (hmirrors.window_covers hwindow).mem hrow⟩, value, hget', rfl, rfl⟩, rfl, hmirrors⟩
  | queryInput column row =>
    exact (echoed_onBoard (Board.echoed_requireUsable row)).bind
      (fun _ => Keeps.pure _) fun _ _ _ => .pure rfl
  | assignFixed label column row value =>
    exact (echoed_onBoard (Board.echoed_assignFixed hwindow id label column row value)).map
      fun _ _ h => congrArg some h
  | copy left right => exact echoed_onBoard (Board.echoed_copy left right)
  | fillFrom column row value =>
    exact echoed_onBoard (Board.echoed_fillFrom hwindow id column row value)
  | start | close | enterRegion | exitRegion | nameColumn | challenge | pushScope | popScope =>
    exact absurd hc id

/-- Only a key builder at rest is forked. -/
theorem Even.rested_of_fork (h : k.Even schema rows) (hends : (fork ranges).Ends k fs l) :
    k.Rested schema rows := by
  obtain ⟨b, boards, hgrant, hcarve, -⟩ := (ends_fork ranges fs).1 hends
  obtain ⟨hphase, -, rfl⟩ := (Board.ends_grant ranges ()).1 hgrant
  obtain ⟨⟨hlent, -⟩, -⟩ := (Board.ends_carve ranges boards).1 hcarve
  exact { toEven := h, lent := hlent, synthesizing := hphase }

/-- Tasks may be worked on key builders. -/
def nesting (schema : Schema) : Nesting KeyBuilder where
  Fits rows k := k.Even schema rows
  splitting rows := splitting schema rows
  Honors := Honors
  call hc := hc.keeps (callKeeps Board.Even.stable)
  forked h hends := ⟨h.rested_of_fork hends, (Even.of_ends_fork hends).2⟩
  sliver h hrange := Board.Even.forkOver h hrange
  mirrored _ hrested hmirrors := (Board.Rested.of_mirrors hrested hmirrors).toEven
  honors_of_merge {rows k ranges forks lent fs l} _ hfork hmerge := by
    obtain ⟨b, boards, hgrant, hcarve, -⟩ := (ends_fork ranges forks).1 hfork
    obtain ⟨-, -, rfl⟩ := (Board.ends_grant ranges ()).1 hgrant
    obtain ⟨-, -, -, -, hlent⟩ := (Board.ends_carve ranges boards).1 hcarve
    obtain ⟨-, taken, m, heach, -⟩ := (ends_merge _ ()).1 hmerge
    obtain ⟨rfl, results, hreplays⟩ := ends_mergeOnes.1 heach
    rw [hlent] at hreplays
    exact .of_lend (Board.ends_replays_iff.1 ⟨results, hreplays⟩)
  head h := Board.Honors.head h
  tail hmirrors h := Board.Honors.tail h hmirrors
  keeps_not_honors k c := c.keeps_perform (regionKeeps Board.stable_not_honors)
    (callKeeps Board.stable_not_honors)
  echoed hc _ hrange := echoed_perform hrange hc

end KeyBuilder

/-! ## Provers -/

namespace Prover

variable {α : Type} {schema : Schema} {rows range : RowSpan} {base p q f : Prover}
  {fs : List Prover} {ranges : List RowSpan}

/-- Will a prover take the copies that forks keep, one fork after another? -/
def Honors (p : Prover) (fs : List Prover) : Prop := p.board.Honors (fs.map (·.board))

/-- A run on a fork, matched by the same run on what the fork mirrors, with no region open. -/
abbrev Echoed (range : RowSpan) (base : Prover) (m : Run Prover α) : Prop :=
  Refines (fun f => base.Honors [f]) (fun f q => Mirrors false range base f q)
    (fun f q => Mirrors false range base f q) Eq m m

/-- What the board answers as its fork does the prover answers so. -/
theorem echoed_onBoard {m : Run (Board Content) α} (h : Board.Echoed range base.board m) :
    Echoed range base (onBoard m) :=
  h.zoom_of (fun _ _ => rfl) Mirrors.board fun hmirrors hboard => hmirrors.putBoard hboard

/-- The fork has no region open. -/
theorem Mirrors.current_fork (h : Mirrors false range base f q) : f.current = none :=
  Option.isNone_iff_eq_none.1 (Option.isSome_eq_false_iff.1 h.opened_eq)

/-- A prover that has closed its regions stays so. -/
theorem Mirrors.current_closed (h : Mirrors false range base f q) (hclosed : base.current = none) :
    q.current = none := by
  rw [h.whole, h.current_fork, hclosed, Option.or_none]

/-- Where no region is open nothing is recorded. -/
theorem echoed_record (hclosed : base.current = none) (change : RegionRecord → RegionRecord) :
    Echoed range base (record change) := by
  intro f q a f' hmirrors hends _
  have hf := hmirrors.current_fork
  have hq := hmirrors.current_closed hclosed
  obtain rfl : f' = f := by
    rw [(ends_record change a).1 hends, hf, Option.map_none, ← hf]
  have hself : (record change).Ends q () q := by
    rw [ends_record, hq, Option.map_none, ← hq]
  exact ⟨(), q, hself, rfl, hmirrors⟩

/-- An advice cell that is assigned on a fork may be assigned on the prover. -/
theorem echoed_assignAdvice (hwindow : base.board.window.Covers range) (hclosed : base.current = none)
    (label : String) (column row : Nat) (value : Producer) :
    Echoed range base (assignAdvice label column row value) := by
  intro f q v f' hmirrors hends _
  obtain ⟨⟨hrow, hvalue⟩, advice, hset, rfl⟩ := (ends_assignAdvice ..).1 hends
  obtain ⟨hset', hpart⟩ := hmirrors.advice.set hset
  rw [← hmirrors.advice_eq] at hset'
  -- no region is open here or there, so the note is lost on both sides
  have hf := hmirrors.current_fork
  have hq := hmirrors.current_closed hclosed
  have hwhole := congrArg (fun p : Prover => { p with
    advice := base.advice.absorb advice
    current := none }) hmirrors.whole
  refine ⟨v, _, (ends_assignAdvice ..).2
    ⟨⟨hmirrors.board.writable_whole hwindow hrow, hvalue⟩, _, hset', rfl⟩, rfl,
    { hmirrors with advice := hpart, opened_eq := ?_, whole := ?_ }⟩
  · rw [hf]
    rfl
  · rw [hf, hq, hclosed]
    exact hwhole

/-- An advice cell that is read on a fork may be read on the prover. -/
theorem echoed_queryAdvice (column row : Nat) : Echoed range base (queryAdvice column row) := by
  refine refines_lookUp (·.advice) (ends_queryAdvice column row) ?_
  intro f q content hmirrors husable hget
  rw [← hmirrors.board.usable_eq] at husable
  exact ⟨husable, hmirrors.advice_eq ▸ hmirrors.advice.get hget⟩

/-- A fixed cell that is read on a fork may be read on the prover. -/
theorem echoed_queryFixed (column row : Nat) : Echoed range base (queryFixed column row) := by
  refine refines_lookUp (·.board.fixed) (ends_queryFixed column row) ?_
  intro f q content hmirrors husable hget
  rw [← hmirrors.board.usable_eq] at husable
  exact ⟨husable, hmirrors.board.fixed_eq ▸ hmirrors.board.fixed.get hget⟩

/-- An input that is read on a fork may be read on the prover. -/
theorem echoed_queryInput (column row : Nat) : Echoed range base (queryInput column row) := by
  intro f q x f' hmirrors hends _
  obtain ⟨husable, cells, hcells, rfl, rfl⟩ := (ends_queryInput column row x).1 hends
  rw [← hmirrors.board.usable_eq] at husable
  rw [← hmirrors.inputs_eq'] at hcells
  exact ⟨_, q, (ends_queryInput column row _).2 ⟨husable, cells, hcells, rfl, rfl⟩, rfl, hmirrors⟩

/-- What succeeds on a fork succeeds on what the fork mirrors. -/
theorem echoed_perform (hwindow : base.board.window.Covers range) (hclosed : base.current = none)
    {c : AssignmentCall} (hc : c.OnGrid) : Echoed range base (c.perform : Run Prover c.Reply) := by
  -- a record leaves the copies that are kept as they are
  have hrecord : ∀ change, Keeps (fun f => ¬ base.Honors [f]) (record change) :=
    fun _ => Keeps.modify fun _ hf => hf
  cases c with
  | enableSelector label selector row =>
    exact (echoed_onBoard (Board.echoed_enableSelector hwindow selector row)).bind
      -- the record is made last, with no region open on either side
      (fun _ => hrecord _) fun _ _ _ => echoed_record hclosed _
  | queryAdvice column row => exact echoed_queryAdvice column row
  | queryFixed column row => exact echoed_queryFixed column row
  | queryInput column row => exact echoed_queryInput column row
  | assignAdvice label column row value =>
    exact (echoed_assignAdvice hwindow hclosed label column row value).map
      fun _ _ h => congrArg some h
  | assignFixed label column row value =>
    have hassign : Echoed range base (assignFixed label column row value) := by
      refine (echoed_onBoard (Board.echoed_assignFixed hwindow _ label column row value)).bind
        (fun _ => (hrecord _).bind fun _ => Keeps.pure _) fun v _ hv => ?_
      subst hv
      exact (echoed_record hclosed _).bind (fun _ => Keeps.pure _) fun _ _ _ => .pure rfl
    exact hassign.map fun _ _ h => congrArg some h
  | copy left right => exact echoed_onBoard (Board.echoed_copy left right)
  | fillFrom column row value =>
    exact echoed_onBoard (Board.echoed_fillFrom hwindow _ column row value)
  | start | close | enterRegion | exitRegion | nameColumn | challenge | pushScope | popScope =>
    exact absurd hc id

/-- Only a prover at rest is forked. -/
theorem Even.rested_of_fork (h : p.Even schema rows) (hends : (fork ranges).Ends p fs q) :
    p.Rested schema rows := by
  obtain ⟨b, parts, advice, boards, c, hgrant, hsplit, -⟩ := (ends_fork ranges fs).1 hends
  obtain ⟨hphase, -⟩ := (Board.ends_grant ranges ()).1 hgrant
  obtain ⟨hlent, -⟩ := Store.split_eq_ok_iff.1 hsplit
  exact { toEven := h, lent := h.lent_eq.symm.trans hlent, synthesizing := hphase }

/-- No step makes copies that were refused acceptable. -/
theorem stable_not_honors : Stable fun f => ¬ p.Honors [f] := by
  intro f g hstep hf
  cases hstep with
  | board h => exact Board.stable_not_honors h hf
  | cell | record | scopes => exact hf

/-- No step opens a region. -/
theorem stable_closed : Stable fun p => p.current = none := by
  intro p q hstep hp
  cases hstep with
  | record change => exact congrArg (Option.map change) hp
  | board | cell | scopes => exact hp

/-- Tasks may be worked on provers on which no region is open. -/
def nesting (schema : Schema) : Nesting Prover where
  Fits rows p := p.Even schema rows ∧ p.current = none
  splitting rows := splitting schema rows
  Honors := Honors
  call hc := (hc.keeps Even.stable.callKeeps).and (hc.keeps stable_closed.callKeeps)
  forked h hends := ⟨h.1.rested_of_fork hends, (Even.of_ends_fork hends).2⟩
  sliver h hrange := ⟨h.1.sliver hrange, rfl⟩
  mirrored h hrested hmirrors :=
    ⟨(Rested.of_mirrors hrested hmirrors).toEven, Mirrors.current_closed hmirrors h.2⟩
  honors_of_merge {rows p ranges forks lent fs q} _ hfork hmerge := by
    obtain ⟨b, parts, advice, boards, c, hgrant, -, hcarve, -, rfl⟩ :=
      (ends_fork ranges forks).1 hfork
    obtain ⟨-, -, rfl⟩ := (Board.ends_grant ranges ()).1 hgrant
    obtain ⟨-, -, -, -, rfl⟩ := (Board.ends_carve ranges boards).1 hcarve
    obtain ⟨-, taken, r, advice', d, heach, -⟩ := (ends_merge _ ()).1 hmerge
    obtain ⟨rfl, results, d, hreplays, -⟩ := ends_mergeOnes.1 heach
    exact .of_lend (Board.ends_replays_iff.1 ⟨results, hreplays⟩)
  head h := Board.Honors.head h
  tail hmirrors h := Board.Honors.tail h hmirrors.board
  keeps_not_honors p c := c.keeps_perform
    (stable_not_honors.regionKeeps fun _ _ _ hf => hf) stable_not_honors.callKeeps
  echoed hc h hrange := echoed_perform hrange h.2 hc

/-! ### Open regions -/

/-- Are provers the same but for the record of the region that is open? -/
def SameButRegion (p q : Prover) : Prop := ∃ current, q = { p with current := current }

/-- A run that is the same whichever region is open. -/
abbrev Regionless (m : Run Prover α) : Prop :=
  Refines Anywhere SameButRegion SameButRegion Eq m m

/-- Work on the board does not look at the open region. -/
theorem regionless_onBoard (m : Run (Board Content) α) : Regionless (onBoard m) := by
  rintro p _ a p' ⟨current, rfl⟩ hends -
  obtain ⟨b, hm, rfl⟩ := (ends_onBoard m a).1 hends
  exact ⟨a, _, (ends_onBoard m a).2 ⟨b, hm, rfl⟩, rfl, current, rfl⟩

/-- A note changes nothing but the open region. -/
theorem regionless_record (change : RegionRecord → RegionRecord) : Regionless (record change) := by
  rintro p _ a p' ⟨current, rfl⟩ hends -
  obtain rfl := (ends_record change a).1 hends
  exact ⟨(), _, (ends_record change ()).2 rfl, rfl, _, rfl⟩

/-- No call on the grid looks at the open region. -/
theorem regionless_perform {c : AssignmentCall} (hc : c.OnGrid) :
    Regionless (c.perform : Run Prover c.Reply) := by
  -- what is read and written lies beside the record
  cases c with
  | enableSelector label selector row =>
    exact (regionless_onBoard _).andThen fun _ _ _ => regionless_record _
  | queryAdvice column row =>
    refine refines_lookUp (·.advice) (ends_queryAdvice column row) ?_
    rintro p _ content ⟨current, rfl⟩ husable hget
    exact ⟨husable, hget⟩
  | queryFixed column row =>
    refine refines_lookUp (·.board.fixed) (ends_queryFixed column row) ?_
    rintro p _ content ⟨current, rfl⟩ husable hget
    exact ⟨husable, hget⟩
  | queryInput column row =>
    rintro p _ x p' ⟨current, rfl⟩ hends -
    obtain ⟨husable, cells, hcells, rfl, rfl⟩ := (ends_queryInput column row x).1 hends
    exact ⟨_, _, (ends_queryInput column row _).2 ⟨husable, cells, hcells, rfl, rfl⟩, rfl, current,
      rfl⟩
  | assignAdvice label column row value =>
    have hassign : Regionless (assignAdvice label column row value) := by
      rintro p _ v p' ⟨current, rfl⟩ hends -
      obtain ⟨hwritable, advice, hset, rfl⟩ := (ends_assignAdvice ..).1 hends
      exact ⟨v, _, (ends_assignAdvice ..).2 ⟨hwritable, advice, hset, rfl⟩, rfl, _, rfl⟩
    exact hassign.map fun _ _ h => congrArg some h
  | assignFixed label column row value =>
    have hassign : Regionless (assignFixed label column row value) :=
      (regionless_onBoard _).andThen fun v _ hv =>
        (regionless_record _).andThen fun _ _ _ => .pure hv
    exact hassign.map fun _ _ h => congrArg some h
  | copy left right => exact regionless_onBoard _
  | fillFrom column row value => exact regionless_onBoard _
  | start | close | enterRegion | exitRegion | nameColumn | challenge | pushScope | popScope =>
    exact absurd hc id

/-- Forking does not look at the open region. -/
theorem regionless_fork (ranges : List RowSpan) : Regionless (fork ranges) := by
  rintro p _ forks p' ⟨current, rfl⟩ hends -
  obtain ⟨b, parts, advice, boards, c, hgrant, hsplit, hcarve, rfl, rfl⟩ :=
    (ends_fork ranges forks).1 hends
  exact ⟨_, _, (ends_fork ranges _).2 ⟨b, parts, advice, boards, c, hgrant, hsplit, hcarve, rfl, rfl⟩,
    rfl, current, rfl⟩

/-- Merging does not look at the open region. -/
theorem regionless_merge (fs : List Prover) : Regionless (merge (fs.map .fork)) := by
  rintro p _ a p' ⟨current, rfl⟩ hends -
  obtain ⟨hphase, forks, q, advice, b, heach, hadvice, hrejoin, rfl⟩ := (ends_merge _ a).1 hends
  obtain ⟨rfl, results, d, hreplays, rfl⟩ := ends_mergeOnes.1 heach
  exact ⟨(), _, (ends_merge _ ()).2 ⟨hphase, forks, _, advice, b,
    ends_mergeOnes.2 ⟨rfl, results, d, hreplays, rfl⟩, hadvice, hrejoin, rfl⟩, rfl, current, rfl⟩

end Prover

/-! ## Tasks -/

/-- Work that succeeds on forks of a prover or of a key builder, and on forks of these, could have
been done on it directly, with each call made where its part comes: all answers are the same, and so
is what is left, but for what a prover records of a region that is open. -/
theorem Task.transparent (logRows : Nat) (schema : Schema) (task : Task) :
    (∀ {inputs : List (List Goldilocks)} {new p q : Prover} {answers : List Exchange},
      Prover.create logRows schema inputs = .ok new → Descends new p →
        task.onForks.Ends p answers q →
          ∃ current, task.direct.Ends p answers { q with current := current }) ∧
    ∀ {new k l : KeyBuilder} {answers : List Exchange},
      KeyBuilder.create logRows schema = .ok new → Descends new k →
        task.onForks.Ends k answers l → task.direct.Ends k answers l := by
  constructor
  · intro inputs new p q answers hnew hp hends
    obtain ⟨⟨hgrid, -⟩, -, rfl⟩ := Prover.create_eq_ok_iff.1 hnew
    obtain ⟨rows, heven⟩ := hp.of_familyKeeps Prover.familyKeeps (.unused hgrid schema inputs)
    -- without the region that may be open there is no difference at all
    have hclosed : ({ p with current := none } : Prover).Even schema rows := { heven with }
    obtain ⟨_, q', hends', rfl, current, rfl⟩ := task.refines_onForks
      (fun c hc => Prover.regionless_perform hc) Prover.regionless_fork Prover.regionless_merge p
      { p with current := none } answers q ⟨none, rfl⟩ hends trivial
    -- forks may be left out, and then the open region be put back
    obtain ⟨hdirect, -⟩ := (Prover.nesting schema).direct task ⟨hclosed, rfl⟩ hends'
    obtain ⟨_, q'', hdirect', rfl, current', rfl⟩ := task.refines_direct
      (fun c hc => Prover.regionless_perform hc) { p with current := none } p answers _
      ⟨p.current, rfl⟩ hdirect trivial
    exact ⟨current', hdirect'⟩
  · intro new k l answers hnew hk hends
    obtain ⟨⟨hgrid, -⟩, rfl⟩ := KeyBuilder.create_eq_ok_iff.1 hnew
    obtain ⟨rows, heven⟩ := hk.of_familyKeeps KeyBuilder.familyKeeps (.unused hgrid schema)
    exact ((KeyBuilder.nesting schema).direct task heven hends).1

/-- A task with a part that has a part of its own, behind which rows are filled. -/
def Task.nested : Task :=
  .call (.assignAdvice "first" 0 0 (.known (.whole 7))) trivial <|
  .split
    (.part ⟨0, 4⟩
      (.call (.copy ⟨.advice 0, 0⟩ ⟨.input 0, 0⟩) trivial <|
       .split
        (.part ⟨1, 3⟩
          (.call (.enableSelector "on" ⟨0, true⟩ 1) trivial <|
           .call (.assignAdvice "second" 0 1 (.known (.whole 5))) trivial <|
           .call (.copy ⟨.advice 0, 1⟩ ⟨.advice 0, 2⟩) trivial <|
           .call (.queryAdvice 0 1) trivial .done)
          .none) <|
       .call (.assignFixed "third" 0 3 (.known (.whole 5))) trivial <|
       .call (.copy ⟨.advice 0, 1⟩ ⟨.fixed 0, 3⟩) trivial .done) <|
     .part ⟨4, 11⟩
      (.call (.fillFrom 0 9 (some (.whole 2))) trivial <|
       .call (.queryFixed 0 10) trivial .done)
      .none) <|
  .call (.queryFixed 0 10) trivial .done

/-- Eleven calls in their order, on a prover with a region open and on a key builder. -/
theorem Task.transparent_nested :
    nested.calls.length = 11 ∧
      (∃ answers q current,
        let p := AssignmentCall.performAll [.start, .enterRegion "open"]
          (Prover.unused 4 Circuit.fives.schema [[7]])
        nested.onForks.Ends p answers q ∧ nested.direct.Ends p answers { q with current := current }) ∧
      ∃ answers l,
        let k := AssignmentCall.performAll [.start] (KeyBuilder.unused 4 Circuit.fives.schema)
        nested.onForks.Ends k answers l ∧ nested.direct.Ends k answers l := by
  have hprover : Prover.create 4 Circuit.fives.schema [[7]] =
      .ok (Prover.unused 4 Circuit.fives.schema [[7]]) :=
    Prover.create_eq_ok_iff.2 ⟨by decide, by decide, rfl⟩
  have hbuilder : KeyBuilder.create 4 Circuit.fives.schema =
      .ok (KeyBuilder.unused 4 Circuit.fives.schema) :=
    KeyBuilder.create_eq_ok_iff.2 ⟨by decide, rfl⟩
  refine ⟨rfl, ?_, ?_⟩
  · obtain ⟨answers, hends⟩ := Run.exists_ends_of_isOk (m := nested.onForks)
      (s := AssignmentCall.performAll [.start, .enterRegion "open"]
        (Prover.unused 4 Circuit.fives.schema [[7]])) (by decide +kernel)
    -- the region that was opened before the task stays open
    obtain ⟨current, hdirect⟩ := (transparent 4 Circuit.fives.schema nested).1 hprover
      (.reached ((Reached.refl _).performAll _)) hends
    exact ⟨answers, _, current, hends, hdirect⟩
  · obtain ⟨answers, hends⟩ := Run.exists_ends_of_isOk (m := nested.onForks)
      (s := AssignmentCall.performAll [.start] (KeyBuilder.unused 4 Circuit.fives.schema))
      (by decide +kernel)
    exact ⟨answers, _, hends, (transparent 4 Circuit.fives.schema nested).2 hbuilder
      (.reached ((Reached.refl _).performAll _)) hends⟩

end CircuitLayout
