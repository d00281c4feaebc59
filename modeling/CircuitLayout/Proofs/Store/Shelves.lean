import Mathlib.Data.List.ReduceOption
import CircuitLayout.Proofs.Store.Mirrored

namespace CircuitLayout

/-! # Stores side by side

A store, the parts split off from it, and the parts of these are asked for one thing after another,
each by its place on a shelf. Main statement: `Shelf.split_work_rejoin`, one store that was never
split would have given the same answers, and it is what the first store becomes when it takes its
parts back.
-/

open Store

/-- Stores that live side by side. Each keeps its place, and the place of one that was taken back
stays empty. -/
abbrev Shelf (α : Type) : Type := List (Option (Store α))

/-- What may be asked of the stores on a shelf. -/
inductive ShelfCall (α : Type) where
  | cells (place : Nat) (c : CellCall α)
  /-- Splits a store; the parts join the shelf. -/
  | split (place : Nat) (ranges : List RowSpan)
  /-- Has a store take parts back, which leave the shelf then. -/
  | rejoin (place : Nat) (parts : List Nat)

namespace Shelf

variable {α : Type} {shelf left after : Shelf α} {place : Nat} {s s' : Store α}

/-- The store at a place, if one is there. -/
def store? (shelf : Shelf α) (place : Nat) : Option (Store α) := shelf[place]?.join

/-- Takes stores off a shelf, one after another. What is named twice is not there the second
time. -/
def takeAll : List Nat → Shelf α → Option (List (Store α) × Shelf α)
  | [], shelf => some ([], shelf)
  | place :: places, shelf => do
    let s ← shelf.store? place
    let (rest, left) ← takeAll places (shelf.set place none)
    return (s :: rest, left)

/-- What was looked for on a shelf, or a fault. -/
def found {β : Type} : Option β → Run (Shelf α) β
  | some b => return b
  | none => Run.raise .outOfRange

/-- Putting back what is there changes nothing. -/
theorem set_store? (h : shelf.store? place = some s) : shelf.set place (some s) = shelf := by
  have hplace : shelf[place]? = some (some s) := Option.join_eq_some_iff.1 h
  rcases List.getElem?_eq_some_iff.1 hplace with ⟨hlt, hget⟩
  rw [← hget, List.set_getElem_self]

/-- Looking up a store ends iff there is one. -/
@[simp] theorem ends_found {β : Type} {looked : Option β} {b : β} :
    (found looked).Ends shelf b after ↔ looked = some b ∧ after = shelf := by
  cases looked with
  | none => simp [found]
  | some b => simp [found, eq_comm]

end Shelf

/-- Asks something of a store on the shelf that the state is. -/
def ShelfCall.perform {α : Type} [Inhabited α] : ShelfCall α → Run (Shelf α) (Option α)
  | cells place c => do
    let shelf ← Run.get
    let s ← Shelf.found (shelf.store? place)
    let (result, s') ← Run.aside s c.perform
    Run.set (shelf.set place (some s'))
    Run.settle result
  | split place ranges => do
    let shelf ← Run.get
    let s ← Shelf.found (shelf.store? place)
    let (parts, s') ← Run.ofExcept (s.split ranges)
    Run.set (shelf.set place (some s') ++ parts.map some)
    return none
  | rejoin place parts => do
    let shelf ← Run.get
    let s ← Shelf.found (shelf.store? place)
    let (taken, left) ← Shelf.found (Shelf.takeAll parts (shelf.set place none))
    let s' ← Run.ofExcept (s.rejoin taken)
    Run.set (left.set place (some s'))
    return none

namespace ShelfCall

variable {α : Type} [Inhabited α] {shelf after : Shelf α} {place : Nat} {answer : Option α}

/-- A call on a place ends iff the store there accepts it, and only that place changes. -/
theorem ends_cells {c : CellCall α} : (cells place c).perform.Ends shelf answer after ↔
    ∃ s s', shelf.store? place = some s ∧ c.perform.Ends s answer s' ∧
      after = shelf.set place (some s') := by
  simp only [perform, Run.ends_bind, Run.ends_get, Shelf.ends_found, Run.ends_set, Run.ends_settle]
  constructor
  · rintro ⟨_, _, ⟨rfl, rfl⟩, s, _, ⟨hs, rfl⟩, ⟨result, s'⟩, _, hc, _, _, rfl, rfl, rfl⟩
    rcases (Run.ends_aside ..).1 hc with ⟨hends, rfl⟩
    exact ⟨s, s', hs, hends, rfl⟩
  · rintro ⟨s, s', hs, hends, rfl⟩
    exact ⟨shelf, shelf, ⟨rfl, rfl⟩, s, shelf, ⟨hs, rfl⟩, (.ok answer, s'), shelf,
      (Run.ends_aside ..).2 ⟨hends, rfl⟩, (), _, rfl, rfl, rfl⟩

/-- A split ends iff the store accepts it, and the parts get new places at the end. -/
theorem ends_split {ranges : List RowSpan} : (split place ranges).perform.Ends shelf answer after ↔
    ∃ s s' parts, shelf.store? place = some s ∧ s.split ranges = .ok (parts, s') ∧
      after = shelf.set place (some s') ++ parts.map some ∧ answer = none := by
  simp only [perform, Run.ends_bind, Run.ends_get, Shelf.ends_found, Run.ends_ofExcept,
    Run.ends_set, Run.ends_pure]
  constructor
  · rintro ⟨_, _, ⟨rfl, rfl⟩, s, _, ⟨hs, rfl⟩, ⟨parts, s'⟩, _, ⟨hsplit, rfl⟩, _, _, rfl, rfl, rfl⟩
    exact ⟨s, s', parts, hs, hsplit, rfl, rfl⟩
  · rintro ⟨s, s', parts, hs, hsplit, rfl, rfl⟩
    exact ⟨shelf, shelf, ⟨rfl, rfl⟩, s, shelf, ⟨hs, rfl⟩, (parts, s'), shelf, ⟨hsplit, rfl⟩, (), _,
      rfl, rfl, rfl⟩

/-- A rejoin ends iff the parts can be taken from their places and the store accepts them. -/
theorem ends_rejoin {parts : List Nat} : (rejoin place parts).perform.Ends shelf answer after ↔
    ∃ s s' taken left, shelf.store? place = some s ∧
      Shelf.takeAll parts (shelf.set place none) = some (taken, left) ∧
      s.rejoin taken = .ok s' ∧ after = left.set place (some s') ∧ answer = none := by
  simp only [perform, Run.ends_bind, Run.ends_get, Shelf.ends_found, Run.ends_ofExcept,
    Run.ends_set, Run.ends_pure]
  constructor
  · rintro ⟨_, _, ⟨rfl, rfl⟩, s, _, ⟨hs, rfl⟩, ⟨taken, left⟩, _, ⟨htaken, rfl⟩, s', _,
      ⟨hrejoin, rfl⟩, _, _, rfl, rfl, rfl⟩
    exact ⟨s, s', taken, left, hs, htaken, hrejoin, rfl, rfl⟩
  · rintro ⟨s, s', taken, left, hs, htaken, hrejoin, rfl, rfl⟩
    exact ⟨shelf, shelf, ⟨rfl, rfl⟩, s, shelf, ⟨hs, rfl⟩, (taken, left), shelf, ⟨htaken, rfl⟩, s',
      shelf, ⟨hrejoin, rfl⟩, (), _, rfl, rfl, rfl⟩

/-- What is refused leaves the shelf as it is. -/
theorem atomic (c : ShelfCall α) : Run.Atomic c.perform := by
  have hget : ∀ shelf : Shelf α, Run.Keeps (· = shelf) Run.get := fun _ _ h => h
  have hfound : ∀ {β : Type} (looked : Option β) (shelf : Shelf α),
      Run.Keeps (· = shelf) (Shelf.found (α := α) looked) := by
    intro β looked shelf
    cases looked with
    | none => exact Run.Keeps.raise _
    | some b => exact Run.Keeps.pure b
  have hset : ∀ shelf : Shelf α, Run.Atomic (do Run.set shelf; return (none : Option α)) :=
    fun shelf => .of_ends fun _ => ⟨none, shelf, by simp⟩
  cases c with
  | cells place c =>
    intro shelf fault hresult
    simp only [perform, Run.bind_apply, Run.get] at hresult ⊢
    cases hs : shelf.store? place with
    | none => rfl
    | some s =>
      rw [hs] at hresult
      simp only [Shelf.found, Run.pure_apply, Run.aside, Run.set] at hresult ⊢
      cases hc : (c.perform s).result with
      | ok answer =>
        rw [hc] at hresult
        cases hresult
      | error fault' =>
        rw [c.atomic s fault' hc]
        exact Shelf.set_store? hs
  | split place ranges =>
    refine .after hget fun shelf => .after (hfound _) fun s => .after ?_ fun p => hset _
    exact fun shelf => Run.Keeps.ofExcept _
  | rejoin place parts =>
    refine .after hget fun shelf => .after (hfound _) fun s => .after (hfound _) fun p =>
      .after ?_ fun s' => hset _
    exact fun shelf => Run.Keeps.ofExcept _

end ShelfCall

namespace Shelf

variable {α : Type} {shelf left after : Shelf α} {place : Nat} {s t : Store α}
  {taken : List (Store α)} {places : List Nat}

/-! ## Who is on a shelf -/

/-- A store on a shelf, and those that are left when it is taken off. -/
theorem perm_of_store? (h : shelf.store? place = some s) :
    shelf.reduceOption.Perm (s :: List.reduceOption (shelf.set place none)) := by
  induction shelf generalizing place with
  | nil => cases h
  | cons first shelf ih =>
    cases place with
    | zero =>
      obtain rfl : first = some s := by simpa [store?] using h
      simp
    | succ place =>
      have hrest := @ih place (by simpa [store?] using h)
      cases first with
      | none => simpa using hrest
      | some t => simpa using (hrest.cons t).trans (.swap s t _)

/-- A store that is put where a place is free or taken up joins those that are elsewhere. -/
theorem perm_set (h : place < shelf.length) :
    (List.reduceOption (shelf.set place (some s))).Perm
      (s :: List.reduceOption (shelf.set place none)) := by
  have hs : Shelf.store? (shelf.set place (some s)) place = some s := by simp [store?, h]
  simpa using perm_of_store? hs

/-- A place with a store is on the shelf. -/
theorem lt_of_store? (h : shelf.store? place = some s) : place < shelf.length := by
  have hplace : shelf[place]? = some (some s) := Option.join_eq_some_iff.1 h
  exact (List.getElem?_eq_some_iff.1 hplace).1

/-- Stores are taken one after the other, each from what the ones before left. -/
theorem takeAll_cons_eq_some_iff {first : Nat} :
    takeAll (first :: places) shelf = some (taken, left) ↔
      ∃ s rest, shelf.store? first = some s ∧ takeAll places (shelf.set first none) = some (rest, left) ∧
        taken = s :: rest := by
  simp only [takeAll, Option.bind_eq_bind, Option.bind_eq_some_iff, Option.pure_def,
    Option.some.injEq, Prod.mk.injEq]
  constructor
  · rintro ⟨s, hs, ⟨rest, _⟩, hrest, rfl, rfl⟩
    exact ⟨s, rest, hs, hrest, rfl⟩
  · rintro ⟨s, rest, hs, hrest, rfl⟩
    exact ⟨s, hs, (rest, left), hrest, rfl, rfl⟩

/-- To take no store leaves the shelf. -/
theorem takeAll_nil_eq_some_iff : takeAll [] shelf = some (taken, left) ↔ taken = [] ∧ left = shelf := by
  simp [takeAll, eq_comm]

/-- To take stores leaves their places. -/
theorem length_of_takeAll (h : takeAll places shelf = some (taken, left)) :
    left.length = shelf.length := by
  induction places generalizing shelf taken with
  | nil => rw [(takeAll_nil_eq_some_iff.1 h).2]
  | cons first places ih =>
    rcases takeAll_cons_eq_some_iff.1 h with ⟨s, rest, -, hrest, -⟩
    rw [ih hrest, List.length_set]

/-- Stores that are taken off, and those that are left. -/
theorem perm_of_takeAll (h : takeAll places shelf = some (taken, left)) :
    shelf.reduceOption.Perm (taken ++ left.reduceOption) := by
  induction places generalizing shelf taken with
  | nil =>
    rcases takeAll_nil_eq_some_iff.1 h with ⟨rfl, rfl⟩
    exact .refl _
  | cons first places ih =>
    rcases takeAll_cons_eq_some_iff.1 h with ⟨s, rest, hs, hrest, rfl⟩
    exact (perm_of_store? hs).trans ((ih hrest).cons s)

/-- A store after a change is the new one or was there before. -/
theorem store?_of_set {k : Nat} {new : Option (Store α)}
    (h : Shelf.store? (shelf.set place new) k = some t) :
    (k = place ∧ new = some t) ∨ (k ≠ place ∧ shelf.store? k = some t) := by
  simp only [store?, List.getElem?_set] at h
  by_cases hk : place = k
  · left
    rw [if_pos hk] at h
    split at h
    · exact ⟨hk.symm, h⟩
    · cases h
  · right
    rw [if_neg hk] at h
    exact ⟨fun heq => hk heq.symm, h⟩

/-- Who is on a shelf after others were taken off was there before, in the same place. -/
theorem store?_of_takeAll {k : Nat} (h : takeAll places shelf = some (taken, left))
    (ht : left.store? k = some t) : shelf.store? k = some t := by
  induction places generalizing shelf taken with
  | nil =>
    rw [(takeAll_nil_eq_some_iff.1 h).2] at ht
    exact ht
  | cons first places ih =>
    rcases takeAll_cons_eq_some_iff.1 h with ⟨s, rest, -, hrest, -⟩
    rcases store?_of_set (ih hrest) with ⟨-, hnone⟩ | ⟨-, hbefore⟩
    · cases hnone
    · exact hbefore

/-- What is taken off was on the shelf, in one of the places. -/
theorem exists_store?_of_takeAll (h : takeAll places shelf = some (taken, left)) (ht : t ∈ taken) :
    ∃ k ∈ places, shelf.store? k = some t := by
  induction places generalizing shelf taken with
  | nil =>
    rw [(takeAll_nil_eq_some_iff.1 h).1] at ht
    exact absurd ht List.not_mem_nil
  | cons first places ih =>
    rcases takeAll_cons_eq_some_iff.1 h with ⟨s, rest, hs, hrest, rfl⟩
    rcases List.mem_cons.1 ht with rfl | ht
    · exact ⟨first, List.mem_cons_self .., hs⟩
    · rcases ih hrest ht with ⟨k, hk, hstore⟩
      rcases store?_of_set hstore with ⟨-, hnone⟩ | ⟨-, hbefore⟩
      · cases hnone
      · exact ⟨k, List.mem_cons_of_mem _ hk, hbefore⟩

/-- A place that is free stays free. -/
theorem set_none_of_takeAll
    (h : takeAll places (List.set shelf place none) = some (taken, left)) :
    left.set place none = left := by
  have hfree : left.store? place = none := by
    cases hstore : left.store? place with
    | none => rfl
    | some t =>
      rcases store?_of_set (store?_of_takeAll h hstore) with ⟨-, hnone⟩ | ⟨hne, -⟩
      · cases hnone
      · exact absurd rfl hne
  apply List.ext_getElem?
  intro k
  rw [List.getElem?_set]
  split
  · next hk =>
    subst hk
    split
    · next hlt =>
      simp only [store?, List.getElem?_eq_getElem hlt, Option.join_some] at hfree
      rw [List.getElem?_eq_getElem hlt, hfree]
    · next hlt => rw [List.getElem?_eq_none (by omega)]
  · rfl

/-! ## What one call does -/

variable [Inhabited α] {c : ShelfCall α} {answer : Option α} {w : Store α} {window : RowSpan}
  {width : Nat}

/-- A place on the shelf goes on having the window that it has. -/
theorem window_of_perform (h : c.perform.Ends shelf answer after) {k : Nat} (hk : k < shelf.length)
    (ht : after.store? k = some t) : ∃ t₀, shelf.store? k = some t₀ ∧ t.window = t₀.window := by
  cases c with
  | cells place c =>
    rcases ShelfCall.ends_cells.1 h with ⟨s, s', hs, hc, rfl⟩
    rcases store?_of_set ht with ⟨rfl, hsame⟩ | ⟨-, hbefore⟩
    · cases hsame
      exact ⟨s, hs, congrArg Outline.window (CellCall.outline_of_ends hc)⟩
    · exact ⟨t, hbefore, rfl⟩
  | split place ranges =>
    rcases ShelfCall.ends_split.1 h with ⟨s, s', parts, hs, hsplit, rfl, -⟩
    have ht' : Shelf.store? (shelf.set place (some s')) k = some t := by
      rw [store?, List.getElem?_append_left (by simpa using hk)] at ht
      exact ht
    rcases split_eq_ok_iff.1 hsplit with ⟨-, -, -, rfl⟩
    rcases store?_of_set ht' with ⟨rfl, hsame⟩ | ⟨-, hbefore⟩
    · cases hsame
      exact ⟨s, hs, rfl⟩
    · exact ⟨t, hbefore, rfl⟩
  | rejoin place parts =>
    rcases ShelfCall.ends_rejoin.1 h with ⟨s, s', taken, left, hs, htaken, hrejoin, rfl, -⟩
    rcases store?_of_set ht with ⟨rfl, hsame⟩ | ⟨-, hleft⟩
    · cases hsame
      rcases rejoin_eq_ok_iff.1 hrejoin with ⟨-, -, rfl⟩
      exact ⟨s, hs, window_foldl_absorb taken s⟩
    · rcases store?_of_set (store?_of_takeAll htaken hleft) with ⟨-, hnone⟩ | ⟨-, hbefore⟩
      · cases hnone
      · exact ⟨t, hbefore, rfl⟩

/-- No place is ever removed. -/
theorem length_le_perform (h : c.perform.Ends shelf answer after) : shelf.length ≤ after.length := by
  cases c with
  | cells place c =>
    rcases ShelfCall.ends_cells.1 h with ⟨s, s', -, -, rfl⟩
    simp
  | split place ranges =>
    rcases ShelfCall.ends_split.1 h with ⟨s, s', parts, -, -, rfl, -⟩
    simp
  | rejoin place parts =>
    rcases ShelfCall.ends_rejoin.1 h with ⟨s, s', taken, left, -, htaken, -, rfl, -⟩
    have hlength := length_of_takeAll htaken
    simp only [List.length_set] at hlength ⊢
    omega

end Shelf

/-- What a call asks of the cells, put to a store that is not split: a fill reaches no further than
the window of the store that is asked. -/
def ShelfCall.unsplit? {α : Type} (shelf : Shelf α) : ShelfCall α → Option (CellCall α)
  | cells place c => (shelf.store? place).map fun s => c.clip s.window
  | split .. => none
  | rejoin .. => none

/-- What a call adds to the record: what it asks of the cells, and the answer, if it succeeds. -/
def ShelfCall.recorded {α : Type} [Inhabited α] (shelf : Shelf α) (c : ShelfCall α) :
    List (CellCall α × Option α) :=
  match (c.perform shelf).result, c.unsplit? shelf with
  | .ok answer, some call => [(call, answer)]
  | _, _ => []

/-- Does a call, if it succeeds, have no store take back a part that lends rows? -/
def ShelfCall.TakesWhole {α : Type} [Inhabited α] (shelf : Shelf α) : ShelfCall α → Prop
  | cells .. => True
  | split .. => True
  | rejoin place parts => ((rejoin place parts).perform shelf).result.isOk →
      ∀ k ∈ parts, ∀ p, shelf.store? k = some p → p.Whole

namespace Shelf

variable {α : Type} [Inhabited α] {shelf after : Shelf α} {c : ShelfCall α} {answer : Option α}
  {w s t : Store α} {window : RowSpan} {width : Nat}

/-- What adds nothing to the record leaves the whole as it is. -/
theorem mirrors_of_unrecorded (hrecorded : c.recorded shelf = [])
    (h : Mirrors window width w after.reduceOption) :
    ∃ w', (Run.each CellCall.perform ((c.recorded shelf).map Prod.fst)).Ends w
        ((c.recorded shelf).map Prod.snd) w' ∧
      Mirrors window width w' after.reduceOption := by
  refine ⟨w, ?_, h⟩
  rw [hrecorded]
  exact (Run.ends_each_nil ..).2 ⟨rfl, rfl⟩

/-- What the stores on a shelf do, the whole does too. -/
theorem mirrors_of_ends (h : Mirrors window width w shelf.reduceOption) (hwhole : c.TakesWhole shelf)
    (hends : c.perform.Ends shelf answer after) :
    ∃ w', (Run.each CellCall.perform ((c.recorded shelf).map Prod.fst)).Ends w
        ((c.recorded shelf).map Prod.snd) w' ∧
      Mirrors window width w' after.reduceOption := by
  cases c with
  | cells place c =>
    have hresult : ((ShelfCall.cells place c).perform shelf).result = .ok answer := hends.1
    rcases ShelfCall.ends_cells.1 hends with ⟨s, s', hs, hc, rfl⟩
    have hrecorded : (ShelfCall.cells place c).recorded shelf = [(c.clip s.window, answer)] := by
      simp [ShelfCall.recorded, hresult, ShelfCall.unsplit?, hs]
    rcases (h.perm (perm_of_store? hs)).call hc with ⟨w', hcall, hmirrors⟩
    refine ⟨w', ?_, hmirrors.perm (perm_set (lt_of_store? hs)).symm⟩
    rw [hrecorded]
    exact (Run.ends_each_cons ..).2 ⟨answer, w', [], hcall, (Run.ends_each_nil ..).2 ⟨rfl, rfl⟩, rfl⟩
  | split place ranges =>
    rcases ShelfCall.ends_split.1 hends with ⟨s, s', parts, hs, hsplit, rfl, -⟩
    have hrecorded : (ShelfCall.split place ranges).recorded shelf = [] := by
      simp [ShelfCall.recorded, ShelfCall.unsplit?]
    refine mirrors_of_unrecorded hrecorded ?_
    -- `split` speaks of the parts before the other stores, the shelf has them last
    have hsplit' := (h.perm (perm_of_store? hs)).split hsplit
    refine hsplit'.perm ?_
    rw [List.reduceOption_append]
    have hparts : List.reduceOption (parts.map some) = parts := by simp [List.reduceOption]
    rw [hparts]
    have hset := (perm_set (s := s') (lt_of_store? hs)).append_right parts
    exact ((List.perm_append_comm).cons s').trans hset.symm
  | rejoin place parts =>
    rcases ShelfCall.ends_rejoin.1 hends with ⟨s, s', taken, left, hs, htaken, hrejoin, rfl, -⟩
    have hreturned : ∀ k ∈ parts, ∀ p, shelf.store? k = some p → p.Whole := by
      apply hwhole
      rw [hends.1]
      rfl
    have hrecorded : (ShelfCall.rejoin place parts).recorded shelf = [] := by
      simp [ShelfCall.recorded, ShelfCall.unsplit?]
    refine mirrors_of_unrecorded hrecorded ?_
    have hperm := (perm_of_store? hs).trans ((perm_of_takeAll htaken).cons s)
    -- the lender's place is empty while the parts are taken, so it is not one of them
    have hparts : ∀ p ∈ taken, p.Whole := by
      intro p hp
      rcases exists_store?_of_takeAll htaken hp with ⟨k, hk, hstore⟩
      rcases store?_of_set hstore with ⟨-, hnone⟩ | ⟨-, hbefore⟩
      · cases hnone
      · exact hreturned k hk p hbefore
    have hlt : place < left.length := by
      rw [length_of_takeAll htaken, List.length_set]
      exact lt_of_store? hs
    have hset := perm_set (s := s') hlt
    rw [set_none_of_takeAll htaken] at hset
    exact ((h.perm hperm).rejoin hrejoin hparts).perm hset.symm

/-- Also a call that is refused: it changes nothing. -/
theorem mirrors_of_perform (h : Mirrors window width w shelf.reduceOption)
    (hwhole : c.TakesWhole shelf) :
    ∃ w', (Run.each CellCall.perform ((c.recorded shelf).map Prod.fst)).Ends w
        ((c.recorded shelf).map Prod.snd) w' ∧
      Mirrors window width w' (c.perform shelf).state.reduceOption := by
  cases hresult : (c.perform shelf).result with
  | ok answer => exact mirrors_of_ends h hwhole ⟨hresult, rfl⟩
  | error fault =>
    have hrecorded : c.recorded shelf = [] := by simp [ShelfCall.recorded, hresult]
    rw [c.atomic shelf fault hresult]
    exact mirrors_of_unrecorded hrecorded h

/-! ## Runs -/

/-- What calls leave of a shelf, one after another. A call that is refused does not keep the next
one from being made. -/
def runAll (calls : List (ShelfCall α)) (shelf : Shelf α) : Shelf α :=
  calls.foldl (fun shelf c => (c.perform shelf).state) shelf

/-- What calls ask of the cells and are answered, as far as they succeed. -/
def record : List (ShelfCall α) → Shelf α → List (CellCall α × Option α)
  | [], _ => []
  | c :: cs, shelf => c.recorded shelf ++ record cs (c.perform shelf).state

/-- Does no store, of those that are asked, ever take back a part that lends rows? -/
def TakesWhole : List (ShelfCall α) → Shelf α → Prop
  | [], _ => True
  | c :: cs, shelf => c.TakesWhole shelf ∧ TakesWhole cs (c.perform shelf).state

/-- The shelf and the whole store answer all calls alike, as long as what is rejoined is whole. -/
theorem mirrors_of_runAll {calls : List (ShelfCall α)}
    (h : Mirrors window width w shelf.reduceOption) (hwhole : TakesWhole calls shelf) :
    ∃ w', (Run.each CellCall.perform ((record calls shelf).map Prod.fst)).Ends w
        ((record calls shelf).map Prod.snd) w' ∧
      Mirrors window width w' (runAll calls shelf).reduceOption := by
  induction calls generalizing shelf w with
  | nil => exact ⟨w, (Run.ends_each_nil ..).2 ⟨rfl, rfl⟩, h⟩
  | cons c calls ih =>
    rcases hwhole with ⟨hfirst, hrest⟩
    rcases mirrors_of_perform h hfirst with ⟨u, hu, hmid⟩
    rcases ih hmid hrest with ⟨w', hw', hafter⟩
    refine ⟨w', ?_, hafter⟩
    simp only [record, List.map_append]
    exact hu.each_append hw'

/-- A store that keeps its place keeps its window. -/
theorem window_of_runAll {calls : List (ShelfCall α)} {k : Nat} (hk : k < shelf.length)
    (ht : (runAll calls shelf).store? k = some t) :
    ∃ t₀, shelf.store? k = some t₀ ∧ t.window = t₀.window := by
  induction calls generalizing shelf with
  | nil => exact ⟨t, ht, rfl⟩
  | cons c calls ih =>
    cases hresult : (c.perform shelf).result with
    | error fault =>
      have hsame := c.atomic shelf fault hresult
      have ht' : (runAll calls (c.perform shelf).state).store? k = some t := ht
      rw [hsame] at ht'
      exact ih hk ht'
    | ok answer =>
      have hends : c.perform.Ends shelf answer _ := ⟨hresult, rfl⟩
      rcases ih (Nat.lt_of_lt_of_le hk (length_le_perform hends)) ht with ⟨u, hu, hwindow⟩
      rcases window_of_perform hends hk hu with ⟨t₀, ht₀, hwindow'⟩
      exact ⟨t₀, ht₀, hwindow.trans hwindow'⟩

end Shelf

/-! ## Splitting, working and rejoining -/

namespace Shelf

variable {α : Type} {shelf more : Shelf α} {lender lender' : Store α} {parts parts' : List (Store α)}

/-- A store and the parts split off from it, each in its place. -/
def ofParts (lender : Store α) (parts : List (Store α)) : Shelf α := some lender :: parts.map some

/-- A shelf of a lender and its parts has just these stores. -/
theorem reduceOption_ofParts (lender : Store α) (parts : List (Store α)) :
    (ofParts lender parts).reduceOption = lender :: parts := by
  simp [ofParts, List.reduceOption]

/-- A shelf with the outlines of some parts is a shelf of parts with these outlines. -/
theorem eq_map_some_of_outline
    (h : shelf.map (Option.map outline) = parts.map fun p => some (outline p)) :
    ∃ parts' : List (Store α), shelf = parts'.map some ∧ parts'.map outline = parts.map outline := by
  induction parts generalizing shelf with
  | nil => exact ⟨[], by simpa using h, rfl⟩
  | cons p parts ih =>
    cases shelf with
    | nil => simp at h
    | cons first shelf =>
      simp only [List.map_cons, List.cons.injEq, Option.map_eq_some_iff] at h
      rcases h with ⟨⟨p', rfl, hp'⟩, hrest⟩
      rcases ih hrest with ⟨parts', rfl, hparts'⟩
      exact ⟨p' :: parts', rfl, by simp [hp', hparts']⟩

/-- Parts that were split off lend no row as long as their outlines stay. -/
theorem whole_of_outline {s : Store α} {ranges : List RowSpan}
    (hsplit : s.split ranges = .ok (parts, lender))
    (houtline : parts'.map outline = parts.map outline) : ∀ p ∈ parts', p.Whole := by
  intro p hp
  have hmem : outline p ∈ parts.map outline := houtline ▸ List.mem_map_of_mem hp
  rcases List.mem_map.1 hmem with ⟨p₀, hp₀, hsame⟩
  have hnone : p.lent = [] := by
    rw [(split_eq_ok_iff.1 hsplit).2.2.1] at hp₀
    rcases List.mem_map.1 hp₀ with ⟨range, -, rfl⟩
    exact (congrArg Outline.lent hsame).symm
  exact whole_of_unlent hnone

variable [Inhabited α] {calls : List (ShelfCall α)}

/-- Where only cells are asked for, each place goes on having a store, over the same window and with
the same rows lent. -/
theorem outline_of_runAll (hcalls : ∀ c ∈ calls, ∃ place call, c = ShelfCall.cells place call) :
    (runAll calls shelf).map (Option.map outline) = shelf.map (Option.map outline) := by
  induction calls generalizing shelf with
  | nil => rfl
  | cons c calls ih =>
    have hrest := @ih (c.perform shelf).state fun c hc => hcalls c (List.mem_cons_of_mem _ hc)
    refine Eq.trans hrest ?_
    rcases hcalls c (List.mem_cons_self ..) with ⟨place, call, rfl⟩
    cases hresult : ((ShelfCall.cells place call).perform shelf).result with
    | error fault => rw [ShelfCall.atomic _ shelf fault hresult]
    | ok answer =>
      rcases ShelfCall.ends_cells.1 ⟨hresult, rfl⟩ with ⟨s, s', hs, hc, hafter⟩
      have hsame : outline s' = outline s := CellCall.outline_of_ends hc
      rw [hafter, List.map_set, Option.map_some, hsame, ← Option.map_some, ← List.map_set,
        set_store? hs]

/-- As long as only cells are asked for, the store and its parts are where they were. -/
theorem exists_ofParts_of_runAll (lender : Store α) (parts : List (Store α))
    (hcalls : ∀ c ∈ calls, ∃ place call, c = ShelfCall.cells place call) :
    ∃ lender' parts', runAll calls (ofParts lender parts) = ofParts lender' parts' ∧
      outline lender' = outline lender ∧ parts'.map outline = parts.map outline := by
  have houtline : (runAll calls (ofParts lender parts)).map (Option.map outline) = _ :=
    outline_of_runAll hcalls
  cases hafter : runAll calls (ofParts lender parts) with
  | nil =>
    rw [hafter] at houtline
    simp [ofParts] at houtline
  | cons first rest =>
    rw [hafter] at houtline
    simp only [ofParts, List.map_cons, List.cons.injEq, Option.map_some, Option.map_eq_some_iff,
      List.map_map] at houtline
    rcases houtline with ⟨⟨lender', rfl, hlender⟩, hrest⟩
    rcases eq_map_some_of_outline hrest with ⟨parts', rfl, hparts⟩
    exact ⟨lender', parts', rfl, hlender, hparts⟩

/-- Where the store and its parts still are, they have the windows that they had. -/
theorem windows_of_runAll
    (hafter : runAll calls (ofParts lender parts) = ofParts lender' parts' ++ more)
    (hlength : parts'.length = parts.length) :
    lender'.window = lender.window ∧ parts'.map Store.window = parts.map Store.window := by
  constructor
  · have hfirst : (runAll calls (ofParts lender parts)).store? 0 = some lender' := by
      rw [hafter]
      rfl
    rcases window_of_runAll (by simp [ofParts]) hfirst with ⟨t₀, ht₀, hwindow⟩
    obtain rfl : lender = t₀ := Option.some.inj ht₀
    exact hwindow
  · apply List.ext_getElem (by simp [hlength])
    intro i hi hi'
    simp only [List.length_map] at hi hi'
    have hpart : (runAll calls (ofParts lender parts)).store? (i + 1) = some parts'[i] := by
      have hmap : (parts'.map some ++ more)[i]? = some (some parts'[i]) := by
        rw [List.getElem?_append_left (by simpa using hi)]
        simp [hi]
      rw [hafter]
      exact congrArg Option.join hmap
    have hlt : i + 1 < (ofParts lender parts).length := by simpa [ofParts] using hi'
    rcases window_of_runAll hlt hpart with ⟨t₀, ht₀, hwindow⟩
    obtain rfl : parts[i] = t₀ := by simpa [ofParts, store?, hi'] using ht₀
    simpa using hwindow

/-- A store is split, and it and its parts are asked for cells, split further and rejoined, one call
after another. A store that was never split answers all the calls that succeed in the same way, and
it is what the store becomes when it takes its parts back, as long as none of them lends rows. That
happens whenever they are all there; they are if only cells were asked for. A call that is refused
changes no store. -/
theorem split_work_rejoin {s : Store α} {ranges : List RowSpan} (hs : s.Reachable)
    (hsplit : s.split ranges = .ok (parts, lender)) (calls : List (ShelfCall α))
    (hwhole : TakesWhole calls (ofParts lender parts)) :
    (∃ w, (Run.each CellCall.perform ((record calls (ofParts lender parts)).map Prod.fst)).Ends s
        ((record calls (ofParts lender parts)).map Prod.snd) w ∧
      (∀ whole rest, runAll calls (ofParts lender parts) = some whole :: rest → whole.lent = [] →
        whole = w) ∧
      (∀ lender' parts' more,
        runAll calls (ofParts lender parts) = ofParts lender' parts' ++ more →
        parts'.length = parts.length → lender'.lent = ranges → (∀ p ∈ parts', p.Whole) →
          lender'.rejoin parts' = .ok w) ∧
      ((∀ c ∈ calls, ∃ place call, c = .cells place call) →
        ∃ lender' parts', runAll calls (ofParts lender parts) = ofParts lender' parts' ∧
          lender'.rejoin parts' = .ok w)) ∧
    ∀ c : ShelfCall α, Run.Atomic c.perform := by
  refine ⟨?_, ShelfCall.atomic⟩
  rcases split_eq_ok_iff.1 hsplit with ⟨hunlent, -, hparts, hlender⟩
  have hfirst : lender.window = s.window ∧ lender.lent = ranges := by
    rw [hlender]
    exact ⟨rfl, rfl⟩
  have hranges : parts.map Store.window = ranges := by
    rw [hparts, List.map_map]
    exact List.map_id ranges
  have hstart : Mirrors s.window s.width s (ofParts lender parts).reduceOption := by
    rw [reduceOption_ofParts]
    have hbefore : Mirrors s.window s.width s [s] :=
      ⟨hs.shape, hunlent, .root hunlent, by simpa using hs.shape, by simp⟩
    simpa using hbefore.split hsplit
  rcases mirrors_of_runAll hstart hwhole with ⟨w, hw, hafter⟩
  -- parts that are all there have the windows that were lent, whatever else the shelf holds
  have hhome : ∀ lender' parts' more,
      runAll calls (ofParts lender parts) = ofParts lender' parts' ++ more →
      parts'.length = parts.length → lender'.lent = ranges → (∀ p ∈ parts', p.Whole) →
        lender'.rejoin parts' = .ok w := by
    intro lender' parts' more hthere hlength hlent hreturned
    rcases windows_of_runAll hthere hlength with ⟨hwindow, hwindows⟩
    rw [hthere, List.reduceOption_append, reduceOption_ofParts] at hafter
    exact hafter.rejoin_eq_whole (hwindow.trans hfirst.1)
      ((hwindows.trans hranges).trans hlent.symm) hreturned
  refine ⟨w, hw, fun whole rest hthere hlent => ?_, hhome, fun hcalls => ?_⟩
  · have hroot : (runAll calls (ofParts lender parts)).store? 0 = some whole := by
      rw [hthere]
      rfl
    rcases window_of_runAll (by simp [ofParts]) hroot with ⟨t₀, ht₀, hwindow⟩
    obtain rfl : lender = t₀ := Option.some.inj ht₀
    rw [hthere, List.reduceOption_cons_of_some] at hafter
    exact hafter.eq_whole (hwindow.trans hfirst.1) hlent
  · rcases exists_ofParts_of_runAll lender parts hcalls with
      ⟨lender', parts', hthere, hlender', hparts'⟩
    have hlength : parts'.length = parts.length := by
      have := congrArg List.length hparts'
      simpa using this
    have hlent : lender'.lent = ranges := (congrArg Outline.lent hlender').trans hfirst.2
    have hthere' : runAll calls (ofParts lender parts) = ofParts lender' parts' ++ [] := by
      rw [hthere, List.append_nil]
    exact ⟨lender', parts', hthere,
      hhome lender' parts' [] hthere' hlength hlent (whole_of_outline hsplit hparts')⟩

/-- Parts of the rows from 2 up to 8 are asked for cells, and so is the store that lends them; the
first part is split itself for a while. -/
def errands : List (ShelfCall Nat) :=
  [.cells 1 (.set 0 3 7), .cells 0 (.fill 1 ⟨0, 6⟩ 5), .cells 3 (.fill 0 ⟨5, 9⟩ 9),
    .cells 0 (.set 1 4 6), .split 1 [⟨2, 3⟩], .cells 4 (.set 0 2 1), .rejoin 1 [4],
    .cells 1 (.get 0 2)]

/-- Filling the rows up to 6 was refused, as some of them were lent. What else was asked, a store
that was not split does as well, and the store is the same once it takes its three parts back. -/
theorem split_work_rejoin_errands :
    ∃ w lender' parts',
      runAll errands (ofParts
        { replicate 2 ⟨2, 8⟩ 0 with lent := [⟨2, 4⟩, ⟨4, 4⟩, ⟨6, 8⟩] }
        ([⟨2, 4⟩, ⟨4, 4⟩, ⟨6, 8⟩].map (replicate 2 ⟨2, 8⟩ 0).part)) =
          ofParts lender' parts' ++ [none] ∧
      lender'.rejoin parts' = .ok w ∧
      (Run.each CellCall.perform [.set 0 3 7, .fill 0 ⟨6, 8⟩ 9, .set 1 4 6, .set 0 2 1,
        .get 0 2]).Ends (replicate 2 ⟨2, 8⟩ 0) [none, none, none, none, some 1] w := by
  let root : Store Nat := replicate 2 ⟨2, 8⟩ 0
  let ranges : List RowSpan := [⟨2, 4⟩, ⟨4, 4⟩, ⟨6, 8⟩]
  let start : Shelf Nat := ofParts { root with lent := ranges } (ranges.map root.part)
  have hsplit : root.split ranges = .ok (ranges.map root.part, { root with lent := ranges }) := rfl
  have hfirst : ((runAll (errands.take 6) start).store? 4).map Store.lent = some [] := by
    decide +kernel
  have hwhole : TakesWhole errands start := by
    refine ⟨trivial, trivial, trivial, trivial, trivial, trivial, fun _ k hk p hp => ?_, trivial,
      trivial⟩
    obtain rfl : k = 4 := by simpa using hk
    have hp' : (runAll (errands.take 6) start).store? 4 = some p := hp
    rw [hp', Option.map_some, Option.some.injEq] at hfirst
    exact whole_of_unlent hfirst
  obtain ⟨⟨w, hw, -, hhome, -⟩, -⟩ :=
    split_work_rejoin (.replicate 2 ⟨2, 8⟩ 0) hsplit errands hwhole
  have hrecord : record errands start =
      [(.set 0 3 7, none), (.fill 0 ⟨6, 8⟩ 9, none), (.set 1 4 6, none), (.set 0 2 1, none),
        (.get 0 2, some 1)] := by
    decide +kernel
  have houtline : (runAll errands start).map (Option.map outline) =
      [some ⟨⟨2, 8⟩, ranges⟩, some ⟨⟨2, 4⟩, []⟩, some ⟨⟨4, 4⟩, []⟩, some ⟨⟨6, 8⟩, []⟩, none] := by
    decide +kernel
  simp only [List.map_eq_cons_iff, List.map_eq_nil_iff, Option.map_eq_some_iff,
    Option.map_eq_none_iff] at houtline
  obtain ⟨_, _, hafter, ⟨lender', rfl, hlender⟩, _, _, rfl, ⟨p₁, rfl, h₁⟩, _, _, rfl,
    ⟨p₂, rfl, h₂⟩, _, _, rfl, ⟨p₃, rfl, h₃⟩, _, _, rfl, rfl, rfl⟩ := houtline
  refine ⟨w, lender', [p₁, p₂, p₃], hafter, ?_, ?_⟩
  · apply hhome lender' [p₁, p₂, p₃] [none] hafter rfl (congrArg Outline.lent hlender)
    intro p hp
    apply whole_of_unlent
    simp only [List.mem_cons, List.not_mem_nil, or_false] at hp
    rcases hp with rfl | rfl | rfl
    · exact congrArg Outline.lent h₁
    · exact congrArg Outline.lent h₂
    · exact congrArg Outline.lent h₃
  · rw [hrecord] at hw
    exact hw

end Shelf

end CircuitLayout
