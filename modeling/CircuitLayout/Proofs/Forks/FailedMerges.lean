import CircuitLayout.Proofs.Board.Takings
import CircuitLayout.Proofs.Forks.Families

namespace CircuitLayout

/-! # Merges that fail

A merge takes the copies and the records of its forks over one by one, and their cells at the end.
If it fails, the cells and the rows that are lent are as they were, but the copies and the records
that were taken over before stay. Main statements: `merge_fails`, what is left of an assignment
whose merge fails, and when that is all of it.
-/

/-! ## Loops that fail -/

namespace Run

variable {σ α β : Type}

/-- A run of two parts that fails: the first part fails, or it ends well and the second one fails. -/
theorem of_bind_error {m : Run σ α} {f : α → Run σ β} {s : σ} {fault : Fault}
    (h : ((m >>= f) s).result = .error fault) :
    ((m s).result = .error fault ∧ ((m >>= f) s).state = (m s).state) ∨
      ∃ a t, m.Ends s a t ∧ (f a t).result = .error fault ∧
        ((m >>= f) s).state = (f a t).state := by
  rw [bind_apply] at h ⊢
  cases hm : m s with
  | mk result t es =>
    rw [hm] at h
    cases result with
    | error fault' =>
      have hsame : (Except.error fault' : Except Fault β) = .error fault := h
      cases hsame
      exact .inl ⟨rfl, rfl⟩
    | ok a => exact .inr ⟨a, t, ⟨by rw [hm], by rw [hm]⟩, h, rfl⟩

/-- A loop that fails does so at one of its items, after those before it. -/
theorem of_each_error {f : β → Run σ α} {xs : List β} {s : σ} {fault : Fault}
    (h : (each f xs s).result = .error fault) :
    ∃ before x after results u, xs = before ++ x :: after ∧ (each f before).Ends s results u ∧
      (f x u).result = .error fault ∧ (each f xs s).state = (f x u).state := by
  induction xs generalizing s with
  | nil => cases h
  | cons x xs ih =>
    rw [each_cons] at h ⊢
    -- the fault is that of the first run, or of one behind it
    rcases of_bind_error h with ⟨hx, hstate⟩ | ⟨a, t, hx, hmore, hstate⟩
    · exact ⟨[], x, xs, [], s, rfl, by simp, hx, hstate⟩
    · rcases of_bind_error hmore with ⟨hxs, hstate'⟩ | ⟨more, u, hxs, hpure, -⟩
      · -- the runs before the fault are the first one and those before it in the rest
        obtain ⟨before, y, after, results, u, rfl, hbefore, hy, hrest⟩ := ih hxs
        refine ⟨x :: before, y, after, a :: results, u, rfl, ?_, hy, ?_⟩
        · exact (ends_each_cons ..).2 ⟨a, t, results, hx, hbefore, rfl⟩
        · rw [hstate, hstate', hrest]
      · cases hpure

end Run

/-! ## Copies that are refused -/

namespace Board

variable {φ : Type} {b c d f : Board φ} {l m : List (Position × Position)}

/-- Does a board refuse a copy? -/
def Refuses (b : Board φ) (x : Position × Position) : Prop :=
  ∃ fault, (connect x.1 x.2 b).result = .error fault

/-- A replay that fails stops before the first copy that is refused. -/
theorem of_replay_error {fault : Fault} (h : (replay f b).result = .error fault) :
    ∃ l x m c, f.pending.toList = l ++ x :: m ∧ b.Takes l c ∧ c.Refuses x ∧
      (replay f b).state = c := by
  rw [replay] at h ⊢
  rcases Run.of_bind_error h with ⟨hloop, hstate⟩ | ⟨results, c, -, hpure, -⟩
  · obtain ⟨l, x, m, results, c, hpending, hl, hx, hstop⟩ := Run.of_each_error hloop
    refine ⟨l, x, m, c, hpending, ⟨results, hl⟩, ⟨fault, hx⟩, ?_⟩
    rw [hstate, hstop]
    exact state_of_connect_error hx
  · cases hpure

/-! ## Where a merge stops -/

/-- What a merge that fails leaves of a board, and how many of the forks it has taken over by then. It
fails outside of a synthesis, or at a copy that is refused, or at the end because the forks do not lie
over the rows that are lent. -/
inductive Stops (b : Board φ) (fs : List (Board φ)) : Nat → Board φ → Prop where
  | phase (h : b.phase ≠ .synthesizing) : Stops b fs 0 b
  | copy {before after : List (Board φ)} {f c : Board φ} {l m : List (Position × Position)}
      {x : Position × Position} (hphase : b.phase = .synthesizing) (hfs : fs = before ++ f :: after)
      (hpending : f.pending.toList = l ++ x :: m) (htakes : b.Takes (kept before ++ l) c)
      (hrefuses : c.Refuses x) : Stops b fs before.length c
  | cells {c : Board φ} (hphase : b.phase = .synthesizing) (htakes : b.Takes (kept fs) c)
      (hwindows : fs.map (·.fixed.window) ≠ b.fixed.lent) : Stops b fs fs.length c

/-- Is nothing taken over from forks, given the copies and the records that each of them keeps? None
of them keeps anything, or the first thing that one keeps is a copy that the board refuses. -/
def TakesNothing (b : Board φ) :
    List (List (Position × Position) × List RegionRecord) → Prop
  | [] => True
  | ([], records) :: rest => records = [] ∧ b.TakesNothing rest
  | (x :: _, _) :: _ => b.Refuses x

namespace Stops

variable {fs : List (Board φ)} {n : Nat}

/-- The copies that were taken are the first ones that the forks keep. -/
theorem takes (h : b.Stops fs n c) : ∃ taken, taken <+: kept fs ∧ b.Takes taken c := by
  cases h with
  | phase h => exact ⟨[], List.nil_prefix, takes_nil.2 rfl⟩
  | @copy before after f c l m x _ hfs hpending htakes _ =>
    refine ⟨_, ⟨x :: m ++ kept after, ?_⟩, htakes⟩
    simp [hfs, kept, hpending]
  | cells _ htakes _ => exact ⟨_, List.prefix_rfl, htakes⟩

/-- A copy that is refused is none that is taken. -/
theorem not_takes_of_refuses {x : Position × Position} (hrefuses : b.Refuses x) :
    ¬ b.Takes (x :: l) c := by
  intro h
  obtain ⟨d, hx, -⟩ := takes_cons.1 h
  obtain ⟨fault, hfault⟩ := hrefuses
  rw [hx.1] at hfault
  cases hfault

/-- What takes no copy stays as it is. -/
theorem eq_iff_of_takes (h : b.Takes l c) : c = b ↔ l = [] := by
  constructor
  · rintro rfl
    have hcopies := h.copies
    simpa using hcopies
  · rintro rfl
    exact takes_nil.1 h

/-- Forks that keep nothing come before the first one that keeps something. -/
theorem takesNothing_append {before rest : List (List (Position × Position) × List RegionRecord)}
    (hbefore : ∀ f ∈ before, f = ([], [])) :
    b.TakesNothing (before ++ rest) ↔ b.TakesNothing rest := by
  induction before with
  | nil => rfl
  | cons f before ih =>
    obtain rfl := hbefore f (List.mem_cons_self ..)
    simp only [List.cons_append, TakesNothing, true_and]
    exact ih fun g hg => hbefore g (List.mem_cons_of_mem _ hg)

/-- If nothing is taken over, the forks whose copies were taken keep nothing. -/
theorem keepNothing_of_takes {before rest : List (List (Position × Position) × List RegionRecord)}
    (hnothing : b.TakesNothing (before ++ rest)) (htakes : b.Takes (before.flatMap (·.1) ++ l) c) :
    ∀ f ∈ before, f = ([], []) := by
  induction before with
  | nil =>
    intro f hf
    cases hf
  | cons f before ih =>
    obtain ⟨copies, records⟩ := f
    cases copies with
    | nil =>
      obtain ⟨rfl, hrest⟩ := hnothing
      intro g hg
      rcases List.mem_cons.1 hg with rfl | hg
      · rfl
      · exact ih hrest htakes g hg
    -- a fork that keeps copies has its first one refused
    | cons x copies => exact absurd htakes (not_takes_of_refuses hnothing)

/-- If the copies of the first forks were taken, nothing is taken over from forks exactly if the first
ones keep nothing, and nothing is taken over from the others. -/
theorem takesNothing_append_iff {before : List (List (Position × Position) × List RegionRecord)}
    (rest : List (List (Position × Position) × List RegionRecord))
    (htakes : b.Takes (before.flatMap (·.1) ++ l) c) :
    b.TakesNothing (before ++ rest) ↔ (∀ f ∈ before, f = ([], [])) ∧ b.TakesNothing rest := by
  constructor
  · intro hnothing
    have hbefore := keepNothing_of_takes hnothing htakes
    exact ⟨hbefore, (takesNothing_append hbefore).1 hnothing⟩
  · rintro ⟨hbefore, hrest⟩
    exact (takesNothing_append hbefore).2 hrest

/-- From a fork with a copy that is refused nothing is taken over exactly if this copy is its first. -/
theorem takesNothing_cons_iff {x : Position × Position} {records : List RegionRecord}
    {rest : List (List (Position × Position) × List RegionRecord)} (htakes : b.Takes l c)
    (hrefuses : c.Refuses x) : b.TakesNothing ((l ++ x :: m, records) :: rest) ↔ l = [] := by
  constructor
  · intro hnothing
    cases l with
    | nil => rfl
    | cons y l =>
      -- the first copy of the fork would have been taken, but it is refused
      exact absurd htakes (not_takes_of_refuses hnothing)
  · rintro rfl
    obtain rfl := takes_nil.1 htakes
    exact hrefuses

variable {ω : Type} {forks : List ω} {board : ω → Board φ} {records : ω → List RegionRecord}

/-- Forks keep nothing exactly if they keep neither copies nor records. -/
theorem keepNothing_iff :
    (∀ g ∈ forks.map fun f => ((board f).pending.toList, records f), g = ([], [])) ↔
      kept (forks.map board) = [] ∧ forks.flatMap records = [] := by
  simp only [kept, List.flatMap_map, List.flatMap_eq_nil_iff, List.forall_mem_map, Prod.mk.injEq,
    forall_and]

theorem flatMap_kept (forks : List ω) (board : ω → Board φ) (records : ω → List RegionRecord) :
    (forks.map fun f => ((board f).pending.toList, records f)).flatMap (·.1) =
      kept (forks.map board) := by
  simp [kept, List.flatMap_map]

/-- A merge that fails leaves everything as it was exactly if it took nothing over. -/
theorem unmoved_iff (h : b.Stops (forks.map board) n c) :
    (c = b ∧ (forks.take n).flatMap records = []) ↔
      (b.phase = .synthesizing →
        b.TakesNothing (forks.map fun f => ((board f).pending.toList, records f))) := by
  -- the merge stops at the phase, at a copy or at the cells
  cases h with
  | phase h => simp [h]
  | @copy before after f c l m x hphase hfs hpending htakes hrefuses =>
    obtain ⟨first, rest, rfl, rfl, hrest⟩ := List.map_eq_append_iff.1 hfs
    obtain ⟨g, last, rfl, rfl, rfl⟩ := List.map_eq_cons_iff.1 hrest
    rw [eq_iff_of_takes htakes, List.append_eq_nil_iff, List.length_map, List.take_left,
      List.map_append, List.map_cons, hpending]
    rw [← flatMap_kept _ _ records] at htakes
    rw [takesNothing_append_iff _ htakes, keepNothing_iff]
    rw [flatMap_kept] at htakes
    constructor
    · -- nothing was taken from the forks before, nor from this one
      rintro ⟨⟨hcopies, hl⟩, hrecords⟩ -
      rw [hcopies, List.nil_append] at htakes
      exact ⟨⟨hcopies, hrecords⟩, (takesNothing_cons_iff htakes hrefuses).2 hl⟩
    · intro hnothing
      obtain ⟨⟨hcopies, hrecords⟩, hg⟩ := hnothing hphase
      rw [hcopies, List.nil_append] at htakes
      exact ⟨⟨hcopies, (takesNothing_cons_iff htakes hrefuses).1 hg⟩, hrecords⟩
  -- all forks were replayed, so nothing was taken iff none of them kept anything
  | cells hphase htakes _ =>
    rw [eq_iff_of_takes htakes, List.length_map, List.take_length]
    rw [← flatMap_kept _ _ records, ← List.append_nil (List.flatMap ..)] at htakes
    have hnothing := takesNothing_append_iff [] htakes
    rw [List.append_nil, keepNothing_iff] at hnothing
    simp [hnothing, hphase, TakesNothing]

end Stops

end Board

/-- A numbered list that is cut at an item: the items before it, the item, and those after it. -/
theorem of_zipIdx_eq_append {α : Type} {xs : List α} {k : Nat} {before after : List (α × Nat)}
    {x : α × Nat} (h : xs.zipIdx k = before ++ x :: after) :
    ∃ first last, xs = first ++ x.1 :: last ∧ before = first.zipIdx k := by
  obtain ⟨first, rest, rfl, rfl, hrest⟩ := List.zipIdx_eq_append_iff.1 h
  obtain ⟨y, last, rfl, rfl, -⟩ := List.zipIdx_eq_cons_iff.1 hrest.symm
  exact ⟨first, last, rfl, rfl⟩

/-- A board outside of a synthesis does not merge. -/
theorem Board.phase_of_requireSynthesizing_error {φ : Type} {b : Board φ} {operation : String}
    {fault : Fault} (h : (Board.requireSynthesizing operation b).result = .error fault) :
    b.phase ≠ .synthesizing ∧ (Board.requireSynthesizing operation b).state = b := by
  have hphase : b.phase ≠ .synthesizing := by
    intro hphase
    have hends : (requireSynthesizing operation).Ends b () b :=
      (ends_requireSynthesizing operation ()).2 ⟨hphase, rfl⟩
    rw [hends.1] at h
    cases h
  have hkept : Run.Keeps (fun c => c = b) (Board.requireSynthesizing operation) :=
    Board.keeps_requireSynthesizing operation
  exact ⟨hphase, hkept b rfl⟩

/-! ## Provers -/

namespace Prover

variable {schema : Schema} {rows : RowSpan} {p f : Prover} {fs : List Prover} {fault : Fault}

/-- A prover after copies and records were taken over. -/
def taking (p : Prover) (b : Board Content) (records : List RegionRecord) : Prover :=
  { p with board := b, records := p.records ++ records.toArray }

/-- The records of forks are added in the order of the forks. -/
theorem foldl_records (fs : List Prover) (records : Array RegionRecord) :
    fs.foldl (fun all f => all ++ f.records) records =
      records ++ (fs.flatMap (·.records.toList)).toArray := by
  induction fs generalizing records with
  | nil => simp
  | cons f fs ih =>
    rw [List.foldl_cons, ih, List.flatMap_cons, ← List.append_toArray, Array.append_assoc]

/-- Nothing is taken over if neither the copies nor the records change. -/
theorem taking_eq_iff {b : Board Content} {records : List RegionRecord} :
    p.taking b records = p ↔ b = p.board ∧ records = [] := by
  constructor
  · intro h
    have hboard := congrArg Prover.board h
    have hrecords := congrArg Prover.records h
    simp only [taking] at hboard hrecords
    refine ⟨hboard, ?_⟩
    simpa using congrArg Array.size hrecords
  · rintro ⟨rfl, rfl⟩
    simp [taking]

/-- A fork is taken over up to the first copy that is refused; then its records are not. -/
theorem of_mergeOne_error {index : Nat} (h : (mergeOne index (.fork f) p).result = .error fault) :
    ∃ l x m c, f.board.pending.toList = l ++ x :: m ∧ p.board.Takes l c ∧ c.Refuses x ∧
      (mergeOne index (.fork f) p).state = { p with board := c } := by
  rcases Run.of_bind_error h with ⟨htake, hstate⟩ | ⟨_, q, -, hreport, -⟩
  · rcases Run.of_bind_error htake with ⟨hreplay, hstate'⟩ | ⟨_, q, -, hmodify, -⟩
    · obtain ⟨l, x, m, c, hpending, htakes, hrefuses, hboard⟩ := Board.of_replay_error hreplay
      refine ⟨l, x, m, c, hpending, htakes, hrefuses, ?_⟩
      rw [mergeOne, hstate, takeOver, hstate', onBoard, Run.zoom, hboard]
    · cases hmodify
  · cases hreport

/-- Forks are taken over one after another, up to the first copy that is refused. -/
theorem of_mergeOnes_error (hphase : p.board.phase = .synthesizing)
    (h : (Run.each (fun x : Offer Prover × Nat => mergeOne x.2 x.1) (fs.map .fork).zipIdx p).result =
      .error fault) :
    ∃ n c, p.board.Stops (fs.map (·.board)) n c ∧
      (Run.each (fun x : Offer Prover × Nat => mergeOne x.2 x.1) (fs.map .fork).zipIdx p).state =
        p.taking c ((fs.take n).flatMap (·.records.toList)) := by
  obtain ⟨before, ⟨offer, i⟩, after, results, q, hsplit, hbefore, hone, hstate⟩ := Run.of_each_error h
  obtain ⟨first, last, hfirst, rfl⟩ := of_zipIdx_eq_append hsplit
  obtain ⟨done, rest, rfl, rfl, hrest⟩ := List.map_eq_append_iff.1 hfirst
  obtain ⟨f, left, rfl, rfl, rfl⟩ := List.map_eq_cons_iff.1 hrest
  -- the forks before were taken over, and this one up to a copy
  obtain ⟨-, _, b, hreplays, rfl⟩ := ends_mergeOnes.1 hbefore
  obtain ⟨l, x, m, c, hpending, htakes, hrefuses, hboard⟩ := of_mergeOne_error hone
  -- so the merge stopped at a copy of this fork
  have hstops : p.board.Stops ((done ++ f :: left).map (·.board)) (done.map (·.board)).length c := by
    rw [List.map_append, List.map_cons]
    exact .copy hphase rfl hpending ((Board.ends_replays_iff.1 ⟨_, hreplays⟩).append htakes) hrefuses
  refine ⟨_, c, hstops, ?_⟩
  rw [hstate, hboard, List.length_map, List.take_left, foldl_records]
  rfl

/-- What a merge leaves that fails. -/
theorem Even.of_merge_error (hp : p.Even schema rows) (hfs : ∀ f ∈ fs, ∃ range, f.Even schema range)
    (h : (merge (fs.map .fork) p).result = .error fault) :
    ∃ n c, p.board.Stops (fs.map (·.board)) n c ∧
      (merge (fs.map .fork) p).state = p.taking c ((fs.take n).flatMap (·.records.toList)) := by
  rw [merge_eq] at h ⊢
  rcases Run.of_bind_error h with ⟨hcheck, hstate⟩ | ⟨_, q, hcheck, hrest, hstate⟩
  · -- refused at once, for the phase
    obtain ⟨hphase, hboard⟩ := Board.phase_of_requireSynthesizing_error hcheck
    refine ⟨0, p.board, .phase hphase, ?_⟩
    rw [hstate, onBoard, Run.zoom, hboard]
    simp [taking]
  obtain ⟨b, hb, rfl⟩ := (ends_onBoard ..).1 hcheck
  obtain ⟨hphase, rfl⟩ := (Board.ends_requireSynthesizing ..).1 hb
  rcases Run.of_bind_error hrest with ⟨hloop, hstate'⟩ | ⟨forks, q, hloop, hrejoin, hstate'⟩
  · -- refused while the copies were replayed
    obtain ⟨n, c, hstops, hleft⟩ := of_mergeOnes_error hphase hloop
    exact ⟨n, c, hstops, (hstate.trans hstate').trans hleft⟩
  -- all copies and records were taken over, and the cells were not
  have hq : q.Even schema rows := by
    have hkept := Even.stable.keeps_mergeOnes (fun _ _ hp => { hp with }) fs p hp
    rwa [hloop.2] at hkept
  obtain ⟨rfl, _, b, hreplays, rfl⟩ := ends_mergeOnes.1 hloop
  have htakes := Board.ends_replays_iff.1 ⟨_, hreplays⟩
  rcases hq.rejoin_cases hfs with ⟨⟨r, hr, -⟩, -⟩ | ⟨⟨hsame, -⟩, hwindows⟩
  · rw [hr.1] at hrejoin
    cases hrejoin
  · refine ⟨_, b, .cells hphase htakes ?_, ?_⟩
    · rw [htakes.eq] at hwindows
      rwa [List.map_map]
    · rw [hstate, hstate', hsame, List.length_map, List.take_length, foldl_records]
      rfl

end Prover

/-! ## Key builders -/

namespace KeyBuilder

variable {schema : Schema} {rows : RowSpan} {k f : KeyBuilder} {fs : List KeyBuilder} {fault : Fault}

/-- A fork is taken over up to the first copy that is refused. -/
theorem of_mergeOne_error {index : Nat} (h : (mergeOne index (.fork f) k).result = .error fault) :
    ∃ l x m c, f.board.pending.toList = l ++ x :: m ∧ k.board.Takes l c ∧ c.Refuses x ∧
      (mergeOne index (.fork f) k).state = ⟨c⟩ := by
  rcases Run.of_bind_error h with ⟨hreplay, hstate⟩ | ⟨_, q, -, hreport, -⟩
  · obtain ⟨l, x, m, c, hpending, htakes, hrefuses, hboard⟩ := Board.of_replay_error hreplay
    refine ⟨l, x, m, c, hpending, htakes, hrefuses, ?_⟩
    rw [mergeOne, hstate, onBoard, Run.zoom, hboard]
  · cases hreport

/-- Forks are taken over one after another, up to the first copy that is refused. -/
theorem of_mergeOnes_error (hphase : k.board.phase = .synthesizing)
    (h : (Run.each (fun x : Offer KeyBuilder × Nat => mergeOne x.2 x.1)
      (fs.map .fork).zipIdx k).result = .error fault) :
    ∃ n c, k.board.Stops (fs.map (·.board)) n c ∧
      (Run.each (fun x : Offer KeyBuilder × Nat => mergeOne x.2 x.1) (fs.map .fork).zipIdx k).state =
        ⟨c⟩ := by
  obtain ⟨before, ⟨offer, i⟩, after, results, l, hsplit, hbefore, hone, hstate⟩ := Run.of_each_error h
  obtain ⟨first, last, hfirst, rfl⟩ := of_zipIdx_eq_append hsplit
  obtain ⟨done, rest, rfl, rfl, hrest⟩ := List.map_eq_append_iff.1 hfirst
  obtain ⟨f, left, rfl, rfl, rfl⟩ := List.map_eq_cons_iff.1 hrest
  obtain ⟨-, _, hreplays⟩ := ends_mergeOnes.1 hbefore
  obtain ⟨m, x, m', c, hpending, htakes, hrefuses, hboard⟩ := of_mergeOne_error hone
  have hstops : k.board.Stops ((done ++ f :: left).map (·.board)) (done.map (·.board)).length c := by
    rw [List.map_append, List.map_cons]
    exact .copy hphase rfl hpending ((Board.ends_replays_iff.1 ⟨_, hreplays⟩).append htakes) hrefuses
  exact ⟨_, c, hstops, hstate.trans hboard⟩

/-- What a merge leaves that fails. -/
theorem Even.of_merge_error (hk : k.Even schema rows) (hfs : ∀ f ∈ fs, ∃ range, f.Even schema range)
    (h : (merge (fs.map .fork) k).result = .error fault) :
    ∃ n c, k.board.Stops (fs.map (·.board)) n c ∧ (merge (fs.map .fork) k).state = ⟨c⟩ := by
  rw [merge] at h ⊢
  rcases Run.of_bind_error h with ⟨hcheck, hstate⟩ | ⟨_, l, hcheck, hrest, hstate⟩
  · -- refused at once, for the phase
    obtain ⟨hphase, hboard⟩ := Board.phase_of_requireSynthesizing_error hcheck
    refine ⟨0, k.board, .phase hphase, ?_⟩
    rw [hstate, onBoard, Run.zoom, hboard]
  obtain ⟨hphase, hl⟩ := (Board.ends_requireSynthesizing ..).1 ((ends_onBoard ..).1 hcheck)
  obtain ⟨b⟩ := l
  obtain rfl : b = k.board := hl
  rcases Run.of_bind_error hrest with ⟨hloop, hstate'⟩ | ⟨forks, l, hloop, hrejoin, hstate'⟩
  · -- refused while the copies were replayed
    obtain ⟨n, c, hstops, hleft⟩ := of_mergeOnes_error hphase hloop
    exact ⟨n, c, hstops, (hstate.trans hstate').trans hleft⟩
  -- all copies were taken over, and the cells were not
  have hl : l.Even schema rows := by
    have hkept := keeps_mergeOnes Board.Even.stable fs k hk
    rwa [hloop.2] at hkept
  obtain ⟨rfl, _, hreplays⟩ := ends_mergeOnes.1 hloop
  have htakes := Board.ends_replays_iff.1 ⟨_, hreplays⟩
  have hboards : ∀ b ∈ forks.map (·.board), ∃ range, b.Even schema range := by
    intro b hb
    obtain ⟨f, hf, rfl⟩ := List.mem_map.1 hb
    exact hfs f hf
  obtain ⟨hsame, hwindows⟩ := hl.state_of_rejoin_error hboards hrejoin
  rw [htakes.eq] at hwindows
  refine ⟨_, l.board, .cells hphase htakes hwindows, ?_⟩
  rw [hstate, hstate', onBoard, Run.zoom, hsame]

end KeyBuilder

/-! ## When a merge that fails leaves everything -/

/-- A prover or a key builder whose merge of its own forks fails keeps its cells and the rows that are
lent. What it may be left with are copies and records that the forks kept: the first ones of them, up
to the copy that was refused. It is left as it was exactly if there were none of these. -/
theorem merge_fails (logRows : Nat) (schema : Schema) :
    (∀ {inputs : List (List Goldilocks)} {new a p : Prover} {fs : List Prover} {fault : Fault},
      Prover.create logRows schema inputs = .ok new →
      Descends new a → Reached a p → (∀ f ∈ fs, Forked a f) →
      (Prover.merge (fs.map .fork) p).result = .error fault →
      ∃ q, (Prover.merge (fs.map .fork) p).state = q ∧
        (q.advice = p.advice ∧ q.board.fixed = p.board.fixed ∧
          q.board.selectors = p.board.selectors) ∧
        (∃ taken, taken <+: fs.flatMap (·.board.pending.toList) ∧ p.board.Takes taken q.board) ∧
        (∃ records, records <+: fs.flatMap (·.records.toList) ∧
          q.records = p.records ++ records.toArray) ∧
        (q = p ↔ (p.board.phase = .synthesizing →
          p.board.TakesNothing (fs.map fun f => (f.board.pending.toList, f.records.toList))))) ∧
    (∀ {new a k : KeyBuilder} {fs : List KeyBuilder} {fault : Fault},
      KeyBuilder.create logRows schema = .ok new → Descends new a → Reached a k →
      (∀ f ∈ fs, Forked a f) → (KeyBuilder.merge (fs.map .fork) k).result = .error fault →
      ∃ l, (KeyBuilder.merge (fs.map .fork) k).state = l ∧
        (l.board.fixed = k.board.fixed ∧ l.board.selectors = k.board.selectors) ∧
        (∃ taken, taken <+: fs.flatMap (·.board.pending.toList) ∧ k.board.Takes taken l.board) ∧
        (l = k ↔ (k.board.phase = .synthesizing →
          k.board.TakesNothing (fs.map fun f => (f.board.pending.toList, []))))) := by
  constructor
  · intro inputs new a p fs fault hnew ha hp hfs hfails
    obtain ⟨⟨hgrid, -⟩, -, rfl⟩ := Prover.create_eq_ok_iff.1 hnew
    obtain ⟨rows, heven⟩ := ha.of_familyKeeps Prover.familyKeeps (.unused hgrid schema inputs)
    -- the forks are of one family with the prover
    have hforks : ∀ f ∈ fs, ∃ range, f.Even schema range := fun f hf =>
      (hfs f hf).of_familyKeeps Prover.familyKeeps heven
    obtain ⟨n, c, hstops, hstate⟩ :=
      (hp.of_familyKeeps Prover.familyKeeps heven).of_merge_error hforks hfails
    obtain ⟨taken, hprefix, htakes⟩ := hstops.takes
    refine ⟨_, hstate, ⟨rfl, ?_, ?_⟩, ⟨taken, ?_, htakes⟩, ⟨_, ?_, rfl⟩, ?_⟩
    · rw [Prover.taking, htakes.eq]
    · rw [Prover.taking, htakes.eq]
    · -- what was taken is a beginning of what the forks keep
      rwa [Board.kept, List.flatMap_map] at hprefix
    · exact (List.take_prefix n fs).flatMap _
    · rw [← hstops.unmoved_iff, Prover.taking_eq_iff]
  · intro new a k fs fault hnew ha hk hfs hfails
    obtain ⟨⟨hgrid, -⟩, rfl⟩ := KeyBuilder.create_eq_ok_iff.1 hnew
    obtain ⟨rows, heven⟩ := ha.of_familyKeeps KeyBuilder.familyKeeps (.unused hgrid schema)
    have hforks : ∀ f ∈ fs, ∃ range, f.Even schema range := fun f hf =>
      (hfs f hf).of_familyKeeps KeyBuilder.familyKeeps heven
    obtain ⟨n, c, hstops, hstate⟩ :=
      KeyBuilder.Even.of_merge_error (hk.of_familyKeeps KeyBuilder.familyKeeps heven) hforks hfails
    obtain ⟨taken, hprefix, htakes⟩ := hstops.takes
    refine ⟨_, hstate, ⟨?_, ?_⟩, ⟨taken, ?_, htakes⟩, ?_⟩
    · rw [htakes.eq]
    · rw [htakes.eq]
    · rwa [Board.kept, List.flatMap_map] at hprefix
    · -- a key builder keeps no records
      have hunmoved : (c = k.board ∧ (fs.take n).flatMap (fun _ => ([] : List RegionRecord)) = []) ↔
          (k.board.phase = .synthesizing →
            k.board.TakesNothing (fs.map fun f => (f.board.pending.toList, []))) :=
        hstops.unmoved_iff
      rw [← hunmoved]
      cases k
      simp

/-! ## A merge that fails at its second copy -/

namespace Prover

/-- Two advice columns of which one takes part in copies. -/
def oneSided : Schema :=
  { (∅ : Schema) with adviceRotations := [[], []], equality := [.advice 0] }

/-- A prover whose synthesis has begun. -/
def lender : Prover := AssignmentCall.performAll [.start] (unused 4 oneSided [])

/-- What is left of it when its first rows are lent out. -/
def lent : Prover := ((Assignment.fork [⟨0, 4⟩] : Run Prover (List Prover)) lender).state

/-- A fork that keeps two copies. The first one will be accepted, the second one will not. -/
def borrower : Prover :=
  AssignmentCall.performAll
    [.copy ⟨.advice 0, 0⟩ ⟨.advice 0, 1⟩, .copy ⟨.advice 0, 0⟩ ⟨.advice 1, 0⟩]
    (lender.sliver ⟨0, 4⟩)

/-- The lender is reached from its root by lending. -/
theorem reached_lent : Reached lender lent := .fork (.refl _) _

/-- The borrower is what the fork over the first four rows becomes by its two copies. -/
theorem forked_borrower : Forked lender borrower := by
  have hok : ((Assignment.fork [⟨0, 4⟩] : Run Prover (List Prover)) lender).result.isOk = true := by
    decide +kernel
  obtain ⟨forks, hends⟩ := Run.exists_ends_of_isOk hok
  have hforks : forks = [lender.sliver ⟨0, 4⟩] := (Even.of_ends_fork hends).2
  exact .fork (.refl _) hends (by simp [hforks]) ((Reached.refl _).performAll _)

/-- The second copy names a column that takes no part in copies. -/
theorem merge_borrower_fails :
    (merge ([borrower].map .fork) lent).result = .error (.notInPermutation (.advice 1)) := by
  decide +kernel

/-- The merge fails, and a copy is left of it that was not there before. -/
theorem merge_borrower_moves :
    (∃ new, create 4 oneSided [] = .ok new ∧ Descends new lender) ∧
      (Reached lender lent ∧ Forked lender borrower) ∧
      (merge ([borrower].map .fork) lent).result = .error (.notInPermutation (.advice 1)) ∧
      lent.board.copies = #[] ∧
      (merge ([borrower].map .fork) lent).state.board.copies =
        #[(⟨.advice 0, 0⟩, ⟨.advice 0, 1⟩)] := by
  have hnew : create 4 oneSided [] = .ok (unused 4 oneSided []) :=
    create_eq_ok_iff.2 ⟨by decide, by decide, rfl⟩
  refine ⟨⟨_, hnew, .reached ((Reached.refl _).performAll _)⟩, ⟨reached_lent, forked_borrower⟩,
    merge_borrower_fails, ?_, ?_⟩
  · decide +kernel
  · decide +kernel

/-- What is left of the lender is as `merge_fails` says. -/
theorem merge_fails_borrower :
    ∃ q, (merge ([borrower].map .fork) lent).state = q ∧
      (q.advice = lent.advice ∧ q.board.fixed = lent.board.fixed ∧
        q.board.selectors = lent.board.selectors) ∧
      (∃ taken, taken <+: [borrower].flatMap (·.board.pending.toList) ∧
        lent.board.Takes taken q.board) ∧
      (∃ records, records <+: [borrower].flatMap (·.records.toList) ∧
        q.records = lent.records ++ records.toArray) ∧
      (q = lent ↔ (lent.board.phase = .synthesizing →
        lent.board.TakesNothing ([borrower].map fun f =>
          (f.board.pending.toList, f.records.toList)))) := by
  have hnew : create 4 oneSided [] = .ok (unused 4 oneSided []) :=
    create_eq_ok_iff.2 ⟨by decide, by decide, rfl⟩
  refine (merge_fails 4 oneSided).1 hnew (.reached ((Reached.refl _).performAll _)) reached_lent
    (fun f hf => ?_) merge_borrower_fails
  obtain rfl := List.mem_singleton.1 hf
  exact forked_borrower

end Prover

end CircuitLayout
