import Mathlib.Order.Bounds.Basic
import CircuitLayout.Proofs.Occupancy.Placing

namespace CircuitLayout.Frontiers

/-! # Placing greedily

Frontiers remember one row of each lane, and so the whole history of what was placed and which rows
were taken: the row is where the last use of the lane ends. Main statement: `placed_greedily`, each
request is given the lowest row behind all earlier ones that share a lane with it.
-/

/-- What frontiers are asked for. -/
inductive Request where
  /-- A place for a measured region. -/
  | place (shape : Footprint)
  /-- The first free row of a lane. -/
  | takeRow (lane : Lane)

namespace Request

/-- The lanes that are asked for. -/
def lanes : Request → List Lane
  | place shape => shape.lanes.toList
  | takeRow lane => [lane]

/-- The number of rows that are asked for. -/
def height : Request → Nat
  | place shape => shape.height
  | takeRow _ => 1

end Request

/-- A request with the row that it was given. -/
structure Grant where
  request : Request
  start : Nat

namespace Grant

/-- The row behind those that were given. -/
def stop (g : Grant) : Nat := g.start + g.request.height

/-- Does a request ask for a lane that was given before? -/
def Shares (g : Grant) (r : Request) : Prop := ∃ lane ∈ g.request.lanes, lane ∈ r.lanes

end Grant

/-- Gives a request its row, and moves the frontiers of its lanes. -/
def serve (f : Frontiers) : Request → Nat × Frontiers
  | .place shape => f.place shape
  | .takeRow lane => f.takeRow lane

/-- The frontiers after some requests. -/
def after (f : Frontiers) (requests : List Request) : Frontiers :=
  requests.foldl (fun f r => (f.serve r).2) f

/-- What some requests were given, in their order. -/
def grants : Frontiers → List Request → List Grant
  | _, [] => []
  | f, r :: rs => ⟨r, (f.serve r).1⟩ :: grants (f.serve r).2 rs

/-- Where the last use of a lane ends. A lane that was not used ends at row 0. -/
def latest (lane : Lane) (gs : List Grant) : Nat :=
  ((gs.filter fun g => decide (lane ∈ g.request.lanes)).map Grant.stop).foldl max 0

variable {f : Frontiers} {r : Request} {lane : Lane} {row : Nat}

/-! ## Where lanes end -/

/-- The latest end is at most `row` iff all grants that share the lane end by then. -/
theorem latest_le_iff {gs : List Grant} :
    latest lane gs ≤ row ↔ ∀ g ∈ gs, lane ∈ g.request.lanes → g.stop ≤ row := by
  simp only [latest, foldl_max_le_iff, Nat.zero_le, true_and, List.forall_mem_map, List.mem_filter,
    decide_eq_true_eq, and_imp]

/-- One more grant raises the latest end in its own lanes only. -/
theorem latest_append (gs : List Grant) (g : Grant) :
    latest lane (gs ++ [g]) =
      if lane ∈ g.request.lanes then max (latest lane gs) g.stop else latest lane gs := by
  by_cases h : lane ∈ g.request.lanes
  · simp [latest, h]
  · simp [latest, h]

/-! ## One request -/

/-- A request is given the first row from which all its lanes are free. -/
theorem serve_start (f : Frontiers) (r : Request) : (f.serve r).1 = f.firstFree r.lanes := by
  cases r with
  | place shape => rfl
  | takeRow lane => simp [serve, takeRow, firstFree, Request.lanes]

/-- The lanes of a request end behind it, and the others where they ended. -/
theorem frontier_serve (hword : (f.serve r).1 + r.height < Word.size) :
    (f.serve r).2.frontier lane =
      if lane ∈ r.lanes then (f.serve r).1 + r.height else f.frontier lane := by
  cases r with
  | place shape =>
    have hstop : Word.add (f.firstFree shape.lanes.toList) shape.height =
        f.firstFree shape.lanes.toList + shape.height := Word.add_of_lt hword
    -- the region raises its lanes to its own end
    show (f.place shape).2.frontier lane = _
    rw [frontier_place, hstop]
    by_cases h : lane ∈ shape.lanes.toList
    · -- no lane of the region ends behind its start
      have hle := f.frontier_le_firstFree h
      have hlane : lane ∈ (Request.place shape).lanes := h
      rw [if_pos h, if_pos hlane]
      show _ = f.firstFree shape.lanes.toList + shape.height
      omega
    · have hlane : lane ∉ (Request.place shape).lanes := h
      rw [if_neg h, if_neg hlane]
  | takeRow other =>
    have hstop : Word.add (f.frontier other) 1 = f.frontier other + 1 := Word.add_of_lt hword
    show (f.takeRow other).2.frontier lane = _
    rw [frontier_takeRow, hstop]
    simp only [Request.lanes, List.mem_singleton, eq_comm]
    rfl

/-! ## Requests one after another -/

/-- Requests are served one after the other. -/
theorem after_append (before : List Request) (r : Request) :
    f.after (before ++ [r]) = ((f.after before).serve r).2 := by
  simp [after]

/-- What is granted to later requests depends on the frontiers that the earlier ones left. -/
theorem grants_append (before rest : List Request) :
    grants f (before ++ rest) = grants f before ++ grants (f.after before) rest := by
  induction before generalizing f with
  | nil => rfl
  | cons first before ih => exact congrArg (_ :: ·) ih

/-- The last request gets its place behind the frontiers of all before it. -/
theorem grants_concat (before : List Request) (r : Request) :
    grants f (before ++ [r]) = grants f before ++ [⟨r, ((f.after before).serve r).1⟩] :=
  grants_append before [r]

/-- The frontiers tell of each lane where its last use ends. -/
theorem frontier_after {requests : List Request}
    (hwords : ∀ g ∈ grants ∅ requests, g.stop < Word.size) :
    ((∅ : Frontiers).after requests).frontier lane = latest lane (grants ∅ requests) := by
  -- induction from the end: only the last request moves a frontier
  induction requests using List.reverseRecOn generalizing lane with
  | nil => rfl
  | append_singleton before r ih =>
    rw [grants_concat] at hwords ⊢
    have hbefore : ∀ lane, ((∅ : Frontiers).after before).frontier lane = latest lane (grants ∅ before) :=
      fun lane => ih fun g hg => hwords g (List.mem_append_left _ hg)
    have hword : _ < Word.size := hwords _ (List.mem_append_right _ (List.mem_singleton_self _))
    rw [after_append, frontier_serve hword, latest_append, hbefore]
    by_cases h : lane ∈ r.lanes
    · rw [if_pos h, if_pos h, ← hbefore]
      -- the region starts behind the frontier of each of its lanes
      have hle := ((∅ : Frontiers).after before).frontier_le_firstFree h
      rw [← serve_start] at hle
      simp only [Grant.stop]
      omega
    · rw [if_neg h, if_neg h]

/-- A request is given a row below another one exactly if all earlier requests that share a lane
with it end there. -/
theorem serve_start_le_iff {before : List Request}
    (hwords : ∀ g ∈ grants ∅ before, g.stop < Word.size) :
    (((∅ : Frontiers).after before).serve r).1 ≤ row ↔
      ∀ g ∈ grants ∅ before, g.Shares r → g.stop ≤ row := by
  rw [serve_start, firstFree_le_iff]
  constructor
  · rintro h g hg ⟨lane, hlane, hr⟩
    have hlatest := h lane hr
    rw [frontier_after hwords] at hlatest
    exact latest_le_iff.1 hlatest g hg hlane
  · intro h lane hr
    rw [frontier_after hwords]
    apply latest_le_iff.2
    intro g hg hlane
    exact h g hg ⟨lane, hlane, hr⟩

/-- Of two requests that share a lane, the later one is given rows behind those of the earlier. -/
theorem pairwise_grants {requests : List Request}
    (hwords : ∀ g ∈ grants ∅ requests, g.stop < Word.size) :
    (grants ∅ requests).Pairwise fun g g' => g.Shares g'.request → g.stop ≤ g'.start := by
  -- the last grant is no lower than the ends of those it shares a lane with
  induction requests using List.reverseRecOn with
  | nil => exact .nil
  | append_singleton before r ih =>
    rw [grants_concat] at hwords ⊢
    have hbefore : ∀ g ∈ grants ∅ before, g.stop < Word.size := fun g hg =>
      hwords g (List.mem_append_left _ hg)
    apply List.pairwise_append.2
    refine ⟨ih hbefore, List.pairwise_singleton .., fun g hg g' hg' hshares => ?_⟩
    rcases List.mem_singleton.1 hg' with rfl
    exact (serve_start_le_iff hbefore).1 (Nat.le_refl _) g hg hshares

/-- As long as no row leaves the range of a word: after some requests each lane ends where its last
use does. The next request is given the least row behind all earlier ones that share a lane with
it, which is row 0 if none does. So two requests that share a lane are given rows apart, in the
order in which they were made. -/
theorem placed_greedily (requests : List Request)
    (hwords : ∀ g ∈ grants ∅ requests, g.stop < Word.size) :
    (∀ before rest, requests = before ++ rest → ∀ lane,
      ((∅ : Frontiers).after before).frontier lane = latest lane (grants ∅ before)) ∧
    (∀ before r rest, requests = before ++ r :: rest →
      IsLeast {row | ∀ g ∈ grants ∅ before, g.Shares r → g.stop ≤ row}
        (((∅ : Frontiers).after before).serve r).1 ∧
      ((∀ g ∈ grants ∅ before, ¬ g.Shares r) → (((∅ : Frontiers).after before).serve r).1 = 0)) ∧
    (grants ∅ requests).Pairwise fun g g' => g.Shares g'.request → g.stop ≤ g'.start := by
  have hstops : ∀ before rest, requests = before ++ rest →
      ∀ g ∈ grants ∅ before, g.stop < Word.size := by
    rintro before rest rfl g hg
    apply hwords
    rw [grants_append]
    exact List.mem_append_left _ hg
  refine ⟨fun before rest hsplit lane => frontier_after (hstops before rest hsplit),
    fun before r rest hsplit => ?_, pairwise_grants hwords⟩
  -- the start is a lower bound and is itself among the rows
  have hle : ∀ row, _ ≤ row ↔ ∀ g ∈ grants ∅ before, g.Shares r → g.stop ≤ row := fun row =>
    serve_start_le_iff (hstops before (r :: rest) hsplit)
  constructor
  · constructor
    · exact (hle _).1 (Nat.le_refl _)
    · intro row hrow
      exact (hle row).2 hrow
  · intro hnone
    -- row 0 is among the rows as well
    apply Nat.le_zero.1
    apply (hle 0).2
    intro g hg hshares
    exact absurd hshares (hnone g hg)

/-- Two regions share column 1, a row is taken of column 2, where the second one ends, and a third
region has a lane of its own. -/
def chain : List Request :=
  [.place (.ofTouches 0 [(.column (.advice 0), 2), (.column (.advice 1), 0)]),
    .place (.ofTouches 1 [(.column (.advice 1), 1), (.column (.advice 2), 0)]),
    .takeRow (.column (.advice 2)),
    .place (.ofTouches 2 [(.column (.advice 3), 4)])]

/-- The second region starts behind the first, at row 3, the row that is taken lies behind the
second, and the third region starts at row 0. -/
theorem placed_greedily_chain :
    (grants ∅ chain).map Grant.start = [0, 3, 5, 0] ∧
    ((∅ : Frontiers).after chain).frontier (.column (.advice 2)) =
      latest (.column (.advice 2)) (grants ∅ chain) ∧
    (grants ∅ chain).Pairwise fun g g' => g.Shares g'.request → g.stop ≤ g'.start := by
  have hgreedy := placed_greedily chain (by decide +kernel)
  have hlane := hgreedy.1 chain [] (List.append_nil _).symm (.column (.advice 2))
  exact ⟨by decide +kernel, hlane, hgreedy.2.2⟩

end CircuitLayout.Frontiers
