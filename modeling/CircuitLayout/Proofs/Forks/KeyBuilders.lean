import CircuitLayout.Proofs.Board.Folds
import CircuitLayout.Proofs.Prover.Specs
import CircuitLayout.Proofs.Prover.Steps
import CircuitLayout.Proofs.Simulation.Forking

namespace CircuitLayout.KeyBuilder

/-! # Forks of key builders

A key builder is its board, so its forks are those of the board. Main statements:
`forkSimulation`, `faithful_forking` and `layoutSimulation`, as for provers.
-/

open Run (Anywhere Refines)

variable {α : Type} {logRows : Nat} {schema : Schema} {range : RowSpan} {base : KeyBuilder}

/-- What becomes of a root when a fork of it is taken back. -/
def fold (base f : KeyBuilder) : KeyBuilder := ⟨base.board.fold f.board⟩

/-- The fork over a range that nothing was written to. -/
def sliver (base : KeyBuilder) (range : RowSpan) : KeyBuilder := ⟨base.board.forkOver range⟩

/-- Is a key builder a fork of a root over a range, whatever was written to it? -/
def Serves (range : RowSpan) (base f : KeyBuilder) : Prop := base.board.Serves range f.board

/-- Will a root admit the copies that a fork keeps? -/
def Admits (base f : KeyBuilder) : Prop := base.board.Admits f.board

/-- Does a key builder stand for a root and a fork of it? -/
def StandsFor (range : RowSpan) (base f q : KeyBuilder) : Prop :=
  q = base.fold f ∧ base.Serves range f

/-! ## Calls on regions -/

/-- What a board passes on, a key builder does. -/
theorem passed_onBoard {m : Run (Board Fraction) α} (h : Board.Passed range base.board m) :
    Refines base.Admits (StandsFor range base) (StandsFor range base) Eq (onBoard m)
      (onBoard m) := by
  refine h.zoom_of (fun _ _ => rfl) ?_ ?_
  · rintro f _ ⟨rfl, hserves⟩
    exact ⟨rfl, hserves⟩
  · rintro f q g _ - ⟨rfl, hserves⟩
    exact ⟨rfl, hserves⟩

/-- What a fork reads of a fixed column the root reads. -/
theorem passed_queryFixed (column row : Nat) :
    Refines base.Admits (StandsFor range base) (StandsFor range base) Eq (queryFixed column row)
      (queryFixed column row) := by
  refine (passed_onBoard (Board.passed_requireWritable _ row)).bind
    (fun _ => Run.Keeps.get.bind fun _ => (Run.Keeps.ofExcept _).bind fun _ => Run.Keeps.pure _)
    fun _ _ _ => ?_
  rintro f _ x f' ⟨rfl, hserves⟩ hends -
  simp only [Run.ends_get_bind, Run.ends_ofExcept_bind, Run.ends_pure] at hends
  rcases hends with ⟨value, hget, rfl, rfl⟩
  refine ⟨value.evaluate, _, ?_, rfl, rfl, hserves⟩
  simp only [Run.ends_get_bind, Run.ends_ofExcept_bind, Run.ends_pure]
  exact ⟨value, hserves.fixed.get hget, rfl, trivial⟩

/-- A fork and the root know no inputs. -/
theorem passed_queryInput (row : Nat) :
    Refines base.Admits (StandsFor range base) (StandsFor range base) Eq (queryInput row)
      (queryInput row) :=
  (passed_onBoard (Board.passed_requireUsable row)).bind (fun _ => Run.Keeps.pure _)
    fun _ _ _ => Refines.pure rfl

/-- Whatever a region asks of a fork, it could have asked of what stands for the root and the
fork. -/
theorem forkSimulation (range : RowSpan) (base : KeyBuilder) :
    RegionSimulation Tolerance.anySettings base.Admits fun _ => StandsFor range base where
  keeps := regionKeeps Board.stable_not_admits
  enterRegion _ := Refines.pure trivial
  exitRegion := Refines.pure trivial
  nameColumn _ _ := Refines.pure trivial
  -- a key builder looks at nothing but its board
  enableSelector _ selector row :=
    (passed_onBoard (Board.passed_enableSelector selector row)).mono (fun _ _ _ => trivial)
      fun _ _ h => h
  queryAdvice _ _ := Refines.pure (.refl _)
  queryFixed column row := (passed_queryFixed column row).mono (fun _ _ h => .inr h) fun _ _ h => h
  queryInput _ row := (passed_queryInput row).mono (fun _ _ h => .inr h) fun _ _ h => h
  assignAdvice _ _ _ _ _ _ := Refines.pure (.refl _)
  assignFixed _ l l' hl column row value := by
    rw [hl.eq]
    exact (passed_onBoard (Board.passed_assignFixed id l' column row value)).map
      fun _ _ h => congrArg some h
  copy _ left right :=
    (passed_onBoard (Board.passed_copy left right)).mono (fun _ _ _ => trivial) fun _ _ h => h

/-! ## Forks and merges -/

/-- Key builders and their forks. Regions are not opened on key builders. -/
def forking (logRows : Nat) (schema : Schema) : Forking KeyBuilder Tolerance.anySettings where
  grid := Board.grid logRows
  Idle _ k := k.board.IsWhole logRows schema
  Serves _ := Serves
  Admits := Admits
  sliver := sliver
  fold := fold
  simulation := forkSimulation
  serves_sliver h hphase hrange := h.serves_forkOver hphase hrange
  fold_sliver h hrange := congrArg KeyBuilder.mk (h.fold_forkOver hrange)
  phase_fold _ _ := rfl
  idle_fold h hserves := h.fold hserves
  sliver_fold h hserves hlater hdisjoint :=
    congrArg KeyBuilder.mk (h.forkOver_fold hserves hlater hdisjoint)

/-- What a merge asks of a key builder for one fork after another. -/
theorem ends_mergeOnes {fs forks : List KeyBuilder} {k l : KeyBuilder} {index : Nat} :
    (Run.each (fun x : Offer KeyBuilder × Nat => mergeOne x.2 x.1)
      ((fs.map .fork).zipIdx index)).Ends k forks l ↔
    forks = fs ∧ ∃ results,
      (Run.each Board.replay (fs.map (·.board))).Ends k.board results l.board := by
  induction fs generalizing k forks index with
  | nil =>
    obtain ⟨b⟩ := k
    obtain ⟨c⟩ := l
    simp
  | cons f fs ih =>
    -- one fork: its copies are replayed and the merge is reported, which leaves the board alone
    have hone : ∀ {g d}, (mergeOne index (.fork f)).Ends k g d ↔ g = f ∧
        (Board.replay f.board).Ends k.board () d.board := by
      intro g d
      simp only [mergeOne, Run.ends_bind, ends_onBoard, Run.ends_pure, Board.reportMerge, Run.ends_get,
        Run.ends_emit]
      constructor
      · rintro ⟨_, c, hreplay, _, e, ⟨_, _, ⟨-, rfl⟩, hboard⟩, rfl, rfl⟩
        rw [hboard]
        exact ⟨rfl, hreplay⟩
      · rintro ⟨rfl, hreplay⟩
        exact ⟨(), d, hreplay, (), d, ⟨_, _, ⟨rfl, rfl⟩, rfl⟩, rfl, rfl⟩
    rw [List.map_cons, List.zipIdx_cons, Run.ends_each_cons, List.map_cons]
    constructor
    · -- the copies of the first fork, then those of the others
      rintro ⟨g, d, more, hfirst, hrest, rfl⟩
      obtain ⟨rfl, hreplay⟩ := hone.1 hfirst
      obtain ⟨rfl, results, hreplays⟩ := ih.1 hrest
      exact ⟨rfl, () :: results,
        (Run.ends_each_cons ..).2 ⟨(), _, results, hreplay, hreplays, rfl⟩⟩
    · rintro ⟨rfl, _, hreplays⟩
      obtain ⟨_, b, results, hreplay, hrest, rfl⟩ := (Run.ends_each_cons ..).1 hreplays
      exact ⟨f, ⟨b⟩, fs, hone.2 ⟨rfl, hreplay⟩, ih.2 ⟨rfl, results, hrest⟩, rfl⟩

/-- To take key builders back is to take their boards back. -/
theorem foldl_fold_eq (fs : List KeyBuilder) (k : KeyBuilder) :
    fs.foldl fold k = ⟨(fs.map (·.board)).foldl Board.fold k.board⟩ := by
  induction fs generalizing k with
  | nil => rfl
  | cons f fs ih => exact ih (k.fold f)

/-- The root admits key builders whose boards it admits. -/
theorem admitsAll_of_boards {fs : List KeyBuilder} {k : KeyBuilder}
    (h : k.board.AdmitsAll (fs.map (·.board))) : (forking logRows schema).AdmitsAll k fs := by
  induction fs generalizing k with
  | nil => trivial
  | cons f fs ih => exact ⟨h.1, ih h.2⟩

/-- Forks of a key builder are forks of its board, and are merged as such. -/
theorem faithful_forking : (forking logRows schema).Faithful where
  fork {base ranges forks lent} hidle hends := by
    rcases (ends_fork ranges forks).1 hends with ⟨c, boards, hgrant, hcarve, rfl⟩
    rcases Board.of_ends_grant hgrant with ⟨hphase, rfl⟩
    rcases hidle.of_ends_carve hcarve with ⟨rfl, -, hfollow, hordered⟩
    refine ⟨hphase, ?_, hordered, _, hfollow⟩
    -- the forks are the slivers over the ranges
    rw [List.map_map]
    rfl
  merge {base ranges forks lent merged fs} hidle hends hmerge := by
    rcases (ends_fork ranges forks).1 hends with ⟨c, boards, hgrant, hcarve, rfl⟩
    rcases Board.of_ends_grant hgrant with ⟨-, rfl⟩
    rcases hidle.of_ends_carve hcarve with ⟨-, hlent, -, -⟩
    rcases (ends_merge _ ()).1 hmerge with ⟨-, taken, l, heach, hrejoin⟩
    rcases ends_mergeOnes.1 heach with ⟨rfl, results, hreplays⟩
    rw [hlent] at hreplays
    -- the copies are replayed first, then the cells are taken back
    rcases hidle.of_ends_merge hreplays hrejoin with ⟨hadmits, hmerged⟩
    refine ⟨admitsAll_of_boards hadmits, fun _ => ?_⟩
    show merged = taken.foldl fold base
    rw [foldl_fold_eq, ← hmerged]

/-! ## Layouts -/

/-- Whatever a planner asks of a key builder with batches on forks, it can ask with batches in
order. -/
theorem layoutSimulation :
    LayoutSimulation Tolerance.anySettings Forking.InOrder (forking logRows schema).Same := by
  refine faithful_forking.layoutSimulation (fun _ => callKeeps Board.IsWhole.stable) ?_ ?_
  · intro name k a k' hidle hends
    rcases (Run.ends_pure ..).1 hends with ⟨-, rfl⟩
    exact hidle
  · intro k a k' hidle hends
    rcases (Run.ends_pure ..).1 hends with ⟨-, rfl⟩
    exact hidle

end CircuitLayout.KeyBuilder
