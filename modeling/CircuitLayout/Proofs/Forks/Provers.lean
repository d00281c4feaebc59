import CircuitLayout.Proofs.Board.Folds
import CircuitLayout.Proofs.Prover.Roots
import CircuitLayout.Proofs.Prover.Specs
import CircuitLayout.Proofs.Simulation.Forking

namespace CircuitLayout.Prover

/-! # Forks of provers

A root prover and a fork of it stand together for what the root becomes once the fork is taken
back. Main statements: `forkSimulation`, regions cannot tell the two from the fork alone,
`faithful_forking`, a merge takes forks back, and `layoutSimulation`.
-/

open Run (Anywhere Refines)
open Tolerance (Passes)

variable {α : Type} {logRows : Nat} {schema : Schema} {range : RowSpan} {base f p : Prover}
  {opened : Bool}

/-- What becomes of a root when a fork of it is taken back. -/
def fold (base f : Prover) : Prover :=
  { base with
    board := base.board.fold f.board
    advice := base.advice.absorb f.advice
    records := base.records ++ f.records
    current := f.current }

/-- The fork over a range that nothing was written to. -/
def sliver (base : Prover) (range : RowSpan) : Prover :=
  { base with
    board := base.board.forkOver range
    advice := base.advice.part range
    records := #[]
    current := none
    scopes := [] }

/-- Is a prover a root of which nothing is lent? A region may be open on it. -/
structure Idle (logRows : Nat) (schema : Schema) (opened : Bool) (p : Prover) : Prop where
  board : p.board.IsWhole logRows schema
  advice : p.advice.HasShape (Board.grid logRows) schema.adviceCount
  lent_advice : p.advice.lent = []
  opened_eq : p.current.isSome = opened

/-- Is a prover a fork of a root over a range, whatever was written to it? -/
structure Serves (opened : Bool) (range : RowSpan) (base f : Prover) : Prop where
  board : base.board.Serves range f.board
  advice : base.advice.IsPart range f.advice
  inputs_eq : f.inputs = base.inputs
  opened_eq : f.current.isSome = opened

/-- An idle prover has no region open. -/
theorem Idle.current_eq (h : p.Idle logRows schema false) : p.current = none :=
  Option.isNone_iff_eq_none.1 (Option.isSome_eq_false_iff.1 h.opened_eq)

/-- A fork with no region open has none. -/
theorem Serves.current_eq (h : base.Serves false range f) : f.current = none :=
  Option.isNone_iff_eq_none.1 (Option.isSome_eq_false_iff.1 h.opened_eq)

/-- Will a root admit the copies that a fork keeps? -/
def Admits (base f : Prover) : Prop := base.board.Admits f.board

/-- Does a prover stand for a root and a fork of it? -/
def StandsFor (range : RowSpan) (base : Prover) (opened : Bool) (f q : Prover) : Prop :=
  q = base.fold f ∧ base.Serves opened range f

/-! ## Calls on regions -/

/-- What a board passes on, a prover does. -/
theorem passed_onBoard {m : Run (Board Content) α} (h : Board.Passed range base.board m) :
    Refines base.Admits (StandsFor range base opened) (StandsFor range base opened) Eq (onBoard m)
      (onBoard m) := by
  refine h.zoom_of (fun _ _ => rfl) ?_ ?_
  · rintro f _ ⟨rfl, hserves⟩
    exact ⟨rfl, hserves.board⟩
  · rintro f _ b _ ⟨rfl, hserves⟩ ⟨rfl, hboard⟩
    exact ⟨rfl, { hserves with board := hboard }⟩

/-- A note in the record of a fork is made at the root. -/
theorem passed_record (change : RegionRecord → RegionRecord) :
    Refines base.Admits (StandsFor range base opened) (StandsFor range base opened) Eq
      (record change) (record change) := by
  rintro f _ a f' ⟨rfl, hserves⟩ hends -
  rcases (ends_record change a).1 hends with rfl
  refine ⟨(), _, (ends_record change ()).2 rfl, rfl, rfl, { hserves with opened_eq := ?_ }⟩
  rw [Option.isSome_map]
  exact hserves.opened_eq

/-- A region that is opened on a fork is opened at the root. -/
theorem passed_enterRegion (name : String) :
    Refines base.Admits (StandsFor range base false) (StandsFor range base true) Eq
      (enterRegion name) (enterRegion name) := by
  rintro f _ a f' ⟨rfl, hserves⟩ hends -
  rcases (ends_enterRegion name a).1 hends with ⟨hnone, rfl⟩
  exact ⟨(), _, (ends_enterRegion name ()).2 ⟨hnone, rfl⟩, rfl, rfl,
    { hserves with opened_eq := rfl }⟩

/-- A region that is closed on a fork is closed at the root. -/
theorem passed_exitRegion :
    Refines base.Admits (StandsFor range base true) (StandsFor range base false) Eq exitRegion
      exitRegion := by
  rintro f _ a f' ⟨rfl, hserves⟩ hends -
  rcases (ends_exitRegion a).1 hends with ⟨region, hregion, rfl⟩
  refine ⟨(), _, (ends_exitRegion ()).2 ⟨region, hregion, rfl⟩, rfl, ?_,
    { hserves with opened_eq := rfl }⟩
  simp [fold]

/-- An advice cell that is assigned on a fork is assigned at the root. -/
theorem passed_assignAdvice (label : String) (column row : Nat) (value : Producer) :
    Refines base.Admits (StandsFor range base opened) (StandsFor range base opened) Eq
      (assignAdvice label column row value) (assignAdvice label column row value) := by
  rintro f _ v f' ⟨rfl, hserves⟩ hends -
  rcases (ends_assignAdvice ..).1 hends with ⟨⟨hrow, hvalue⟩, advice, hset, rfl⟩
  rcases hserves.advice.set hset with ⟨hset', hpart⟩
  refine ⟨v, _, (ends_assignAdvice ..).2
    ⟨⟨hserves.board.writable hrow, hvalue⟩, _, hset', rfl⟩, rfl, rfl, ?_⟩
  refine { hserves with advice := hpart, opened_eq := ?_ }
  rw [Option.isSome_map]
  exact hserves.opened_eq

/-- What a fork reads of an advice column the root reads. -/
theorem passed_queryAdvice (column row : Nat) :
    Refines base.Admits (StandsFor range base opened) (StandsFor range base opened) Eq
      (queryAdvice column row) (queryAdvice column row) := by
  refine refines_lookUp (·.advice) (ends_queryAdvice column row) ?_
  rintro f _ content ⟨rfl, hserves⟩ hrow hget
  rw [hserves.board.usable] at hrow
  exact ⟨hrow, hserves.advice.get hget⟩

/-- What a fork reads of a fixed column the root reads. -/
theorem passed_queryFixed (column row : Nat) :
    Refines base.Admits (StandsFor range base opened) (StandsFor range base opened) Eq
      (queryFixed column row) (queryFixed column row) := by
  refine refines_lookUp (·.board.fixed) (ends_queryFixed column row) ?_
  rintro f _ content ⟨rfl, hserves⟩ hrow hget
  rw [hserves.board.usable] at hrow
  exact ⟨hrow, hserves.board.fixed.get hget⟩

/-- What a fork reads of the inputs the root reads. -/
theorem passed_queryInput (column row : Nat) :
    Refines base.Admits (StandsFor range base opened) (StandsFor range base opened) Eq
      (queryInput column row) (queryInput column row) := by
  rintro f _ x f' ⟨rfl, hserves⟩ hends -
  rcases (ends_queryInput column row x).1 hends with ⟨hrow, cells, hcells, rfl, rfl⟩
  rw [hserves.board.usable] at hrow
  rw [hserves.inputs_eq] at hcells
  exact ⟨_, _, (ends_queryInput column row _).2 ⟨hrow, cells, hcells, rfl, rfl⟩, rfl, rfl, hserves⟩

/-! ## Copies that will be refused -/

/-- Copies that will be refused go on being so. -/
theorem stable_not_admits : Stable fun f => ¬ base.Admits f := by
  intro f f' hstep hrefused
  cases hstep with
  | board h => exact Board.stable_not_admits h hrefused
  | cell | record | scopes => exact hrefused

/-- A selector that is enabled on a fork is enabled at the root. -/
theorem passed_enableSelector (selector : Selector) (row : Nat) :
    Refines base.Admits (StandsFor range base opened) (StandsFor range base opened) Eq
      (enableSelector selector row) (enableSelector selector row) :=
  (passed_onBoard (Board.passed_enableSelector selector row)).bind (fun _ => stable_not_admits.keeps_record _)
    fun _ _ _ => passed_record _

/-- A fixed cell that is assigned on a fork is assigned at the root. -/
theorem passed_assignFixed (label : String) (column row : Nat) (value : Producer) :
    Refines base.Admits (StandsFor range base opened) (StandsFor range base opened) Eq
      (assignFixed label column row value) (assignFixed label column row value) := by
  refine (passed_onBoard (Board.passed_assignFixed _ label column row value)).bind
    (fun _ => (stable_not_admits.keeps_record _).bind fun _ => Run.Keeps.pure _) fun v _ hv => ?_
  subst hv
  exact (passed_record _).bind (fun _ => Run.Keeps.pure _) fun _ _ _ => Refines.pure rfl

/-- Whatever a region asks of a fork, it could have asked of what stands for the root and the
fork. -/
theorem forkSimulation (range : RowSpan) (base : Prover) :
    RegionSimulation Tolerance.anySettings base.Admits (StandsFor range base) where
  keeps := stable_not_admits.regionKeeps fun _ _ _ hrefused => hrefused
  -- no answer of a fork differs from that of the root
  enterRegion hn := by
    rw [hn.eq]
    exact (passed_enterRegion _).mono (fun _ _ _ => trivial) fun _ _ h => h
  exitRegion := passed_exitRegion.mono (fun _ _ _ => trivial) fun _ _ h => h
  nameColumn hl column := by
    rw [hl.eq]
    exact (passed_record _).mono (fun _ _ _ => trivial) fun _ _ h => h
  enableSelector _ selector row :=
    (passed_enableSelector selector row).mono (fun _ _ _ => trivial) fun _ _ h => h
  -- reads see the fork's own cells, which the root has as well
  queryAdvice column row := (passed_queryAdvice column row).mono (fun _ _ h => .inr h) fun _ _ h => h
  queryFixed column row := (passed_queryFixed column row).mono (fun _ _ h => .inr h) fun _ _ h => h
  queryInput column row := (passed_queryInput column row).mono (fun _ _ h => .inr h) fun _ _ h => h
  assignAdvice hl column row v v' hv := by
    rw [hl.eq, hv.eq]
    exact (passed_assignAdvice _ column row v').map fun _ _ h => .inr (congrArg some h)
  assignFixed opened l l' hl column row value := by
    rw [hl.eq]
    exact (passed_assignFixed l' column row value).map fun _ _ h => congrArg some h
  copy opened left right :=
    (passed_onBoard (Board.passed_copy left right)).mono (fun _ _ _ => trivial) fun _ _ h => h

/-! ## Forks and merges -/

/-- Provers and their forks. -/
def forking (logRows : Nat) (schema : Schema) : Forking Prover Tolerance.anySettings where
  grid := Board.grid logRows
  Idle := Idle logRows schema
  Serves := Serves
  Admits := Admits
  sliver := sliver
  fold := fold
  simulation := forkSimulation
  serves_sliver h hphase hrange :=
    ⟨h.board.serves_forkOver hphase hrange, Store.isPart_part h.advice h.lent_advice hrange, rfl, rfl⟩
  fold_sliver {base range} h hrange := by
    have hboard := h.board.fold_forkOver hrange
    have hadvice := Store.absorb_part h.advice hrange
    have hcurrent := h.current_eq
    unfold fold sliver
    simp only [hboard, hadvice, Array.append_empty, ← hcurrent]
  phase_fold _ _ := rfl
  idle_fold h hserves :=
    ⟨h.board.fold hserves.board,
      h.advice.absorb (hserves.advice.part.width_eq.trans h.advice.width_eq), h.lent_advice,
      hserves.opened_eq⟩
  sliver_fold {range base f later} h hserves hlater hdisjoint := by
    have hcovers : base.advice.window.Covers later := by
      rw [h.advice.window_eq]
      exact hlater
    have hboard := h.board.forkOver_fold hserves.board hlater hdisjoint
    have hadvice := Store.part_absorb hserves.advice hcovers hdisjoint
    unfold sliver
    simp only [fold] at hboard ⊢
    simp only [hboard, hadvice]

/-- What a merge asks of a prover for one fork after another. -/
theorem ends_mergeOnes {fs forks : List Prover} {p q : Prover} {index : Nat} :
    (Run.each (fun x : Offer Prover × Nat => mergeOne x.2 x.1)
      ((fs.map .fork).zipIdx index)).Ends p forks q ↔
    forks = fs ∧ ∃ results b, (Run.each Board.replay (fs.map (·.board))).Ends p.board results b ∧
      q = { p with board := b, records := fs.foldl (fun all f => all ++ f.records) p.records } := by
  induction fs generalizing p forks index with
  | nil =>
    simp only [List.map_nil, List.zipIdx_nil, Run.ends_each_nil, List.foldl_nil]
    constructor
    · rintro ⟨rfl, rfl⟩
      exact ⟨rfl, [], _, ⟨rfl, rfl⟩, rfl⟩
    · rintro ⟨rfl, _, _, ⟨-, rfl⟩, rfl⟩
      exact ⟨rfl, rfl⟩
  -- copies go to the board and records to the prover, in the order of the forks
  | cons f fs ih =>
    rw [List.map_cons, List.zipIdx_cons, Run.ends_each_cons, List.map_cons, List.foldl_cons]
    constructor
    · rintro ⟨g, d, more, hfirst, hrest, rfl⟩
      obtain ⟨rfl, b, hreplay, rfl⟩ := (ends_mergeOne_fork ..).1 hfirst
      obtain ⟨rfl, results, c, hreplays, rfl⟩ := ih.1 hrest
      exact ⟨rfl, () :: results, c,
        (Run.ends_each_cons ..).2 ⟨(), _, results, hreplay, hreplays, rfl⟩, rfl⟩
    · rintro ⟨rfl, _, c, hreplays, rfl⟩
      obtain ⟨_, b, results, hreplay, hrest, rfl⟩ := (Run.ends_each_cons ..).1 hreplays
      exact ⟨f, _, fs, (ends_mergeOne_fork ..).2 ⟨rfl, b, hreplay, rfl⟩,
        ih.2 ⟨rfl, results, c, hrest, rfl⟩, rfl⟩

/-- The root admits provers whose boards it admits. -/
theorem admitsAll_of_boards {fs : List Prover} {p : Prover}
    (h : p.board.AdmitsAll (fs.map (·.board))) : (forking logRows schema).AdmitsAll p fs := by
  induction fs generalizing p with
  | nil => trivial
  | cons f fs ih => exact ⟨h.1, ih h.2⟩

/-- Taking closed forks back one after another. -/
theorem foldl_fold_eq {fs : List Prover} {p : Prover} (hp : p.current = none)
    (hfs : ∀ f ∈ fs, f.current = none) :
    fs.foldl fold p = { p with
      board := (fs.map (·.board)).foldl Board.fold p.board
      advice := (fs.map (·.advice)).foldl Store.absorb p.advice
      records := fs.foldl (fun all f => all ++ f.records) p.records } := by
  induction fs generalizing p with
  | nil => rfl
  | cons f fs ih =>
    have hf := hfs f (List.mem_cons_self ..)
    have hnext : (p.fold f).current = none := hf
    rw [List.foldl_cons, ih hnext fun g hg => hfs g (List.mem_cons_of_mem _ hg)]
    simp only [fold, hf, hp, List.map_cons, List.foldl_cons]

/-- What forks of a prover do is what the root would have done. -/
theorem faithful_forking : (forking logRows schema).Faithful where
  fork {base ranges forks lent} hidle hends := by
    obtain ⟨b, parts, advice, boards, b', hgrant, hsplit, hcarve, rfl, rfl⟩ :=
      (ends_fork ranges forks).1 hends
    rcases Board.of_ends_grant hgrant with ⟨hphase, rfl⟩
    rcases hidle.board.of_ends_carve hcarve with ⟨rfl, -, hfollow, hordered⟩
    rcases Store.split_eq_ok_iff.1 hsplit with ⟨-, -, rfl, -⟩
    -- what is left to see: the forks are the slivers over the ranges
    refine ⟨hphase, ?_, hordered, _, hfollow⟩
    rw [List.zip_map', List.map_map]
    rfl
  merge {base ranges forks lent merged fs} hidle hends hmerge := by
    obtain ⟨b, parts, advice, boards, b', hgrant, hsplit, hcarve, rfl, rfl⟩ :=
      (ends_fork ranges forks).1 hends
    rcases Board.of_ends_grant hgrant with ⟨-, rfl⟩
    rcases hidle.board.of_ends_carve hcarve with ⟨-, rfl, -, -⟩
    rcases Store.split_eq_ok_iff.1 hsplit with ⟨-, -, -, rfl⟩
    rcases (ends_merge _ ()).1 hmerge with ⟨-, taken, q, advice, c, heach, hadvice, hboard, rfl⟩
    rcases ends_mergeOnes.1 heach with ⟨rfl, results, d, hreplays, rfl⟩
    -- boards first: the copies that were replayed are those the forks keep
    rcases hidle.board.of_ends_merge hreplays hboard with ⟨hadmits, rfl⟩
    rcases Store.eq_foldl_of_rejoin hidle.lent_advice hadvice with rfl
    refine ⟨admitsAll_of_boards hadmits, fun hclosed => ?_⟩
    -- a fork whose region is closed has no record open
    have hclosed' : ∀ f ∈ taken, f.current = none := by
      intro f hf
      rcases hclosed f hf with ⟨range, base', hserves⟩
      exact hserves.current_eq
    exact (foldl_fold_eq hidle.current_eq hclosed').symm

/-! ## Layouts -/

/-- No step that leaves the region makes a prover less idle. -/
theorem Idle.stable : Stable (Idle logRows schema opened) := by
  intro p q hstep hp
  -- writing lends nothing, and a note opens no region
  cases hstep with
  | board h => exact { hp with board := Board.IsWhole.stable h hp.board }
  | cell h =>
    exact { hp with
      advice := hp.advice.set h
      lent_advice := (Store.lent_of_set h).trans hp.lent_advice }
  | record change =>
    refine { hp with opened_eq := ?_ }
    rw [Option.isSome_map]
    exact hp.opened_eq
  | scopes scopes => exact { hp with }

/-- Whatever a planner asks of a prover with batches on forks, it can ask with batches in order. -/
theorem layoutSimulation :
    LayoutSimulation Tolerance.anySettings Forking.InOrder (forking logRows schema).Same := by
  refine faithful_forking.layoutSimulation (fun opened => Idle.stable.callKeeps) ?_ ?_
  · intro name p a p' hidle hends
    rcases (ends_enterRegion name a).1 hends with ⟨-, rfl⟩
    exact { hidle with opened_eq := rfl }
  · intro p a p' hidle hends
    rcases (ends_exitRegion a).1 hends with ⟨region, -, rfl⟩
    exact { hidle with opened_eq := rfl }

end CircuitLayout.Prover
