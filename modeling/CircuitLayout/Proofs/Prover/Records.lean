import CircuitLayout.Proofs.Prover.Atomic

namespace CircuitLayout

/-! # Records of regions

A prover records what an operation did after the operation did it, and only if a region is open. Main
statements: `Prover.record_perform`, what a call makes of the records, `Prover.record_performAll`, the
record of a region summarises the operations that succeeded while it was open, whatever failed between
them, and `Prover.state_writeRegion`, a region that is written leaves one record behind the others.
-/

open Run (Keeps)
open Desk (onTarget withinRegion)

namespace RegionRecord

/-! ## Entries -/

/-- What the record of a region takes up. -/
inductive Entry where
  | cell (column : Column) (row : Nat)
  | selector (index row : Nat)
  | label (column : Column) (text : String)
  deriving DecidableEq

/-- The assigned cells among some entries, in order. -/
def cells (entries : List Entry) : List (Column × Nat) :=
  entries.filterMap fun
    | .cell column row => some (column, row)
    | .selector .. | .label .. => none

/-- The rows on which a selector was enabled, in order. -/
def enabled (index : Nat) (entries : List Entry) : List Nat :=
  entries.filterMap fun
    | .selector i row => if i = index then some row else none
    | .cell .. | .label .. => none

/-- The names that a column was given, in order. -/
def texts (column : Column) (entries : List Entry) : List String :=
  entries.filterMap fun
    | .label c text => if c = column then some text else none
    | .cell .. | .selector .. => none

section Append

variable (entries more : List Entry)

/-- The cells of entries, in order. -/
@[simp] theorem cells_append : cells (entries ++ more) = cells entries ++ cells more :=
  List.filterMap_append

/-- The rows where a selector was enabled, in order. -/
@[simp] theorem enabled_append (index : Nat) :
    enabled index (entries ++ more) = enabled index entries ++ enabled index more :=
  List.filterMap_append

/-- The texts that a column was named with, in order. -/
@[simp] theorem texts_append (column : Column) :
    texts column (entries ++ more) = texts column entries ++ texts column more :=
  List.filterMap_append

end Append

/-- Takes up an entry, if there is one. -/
def add (r : RegionRecord) : Option Entry → RegionRecord
  | none => r
  | some (.cell column row) => r.touch column row
  | some (.selector index row) => r.enable index row
  | some (.label column text) => r.nameColumn column text

/-- No entry renames a region. -/
@[simp] theorem name_add (r : RegionRecord) (entry : Option Entry) : (r.add entry).name = r.name := by
  rcases entry with _ | ⟨_ | _ | _⟩ <;> rfl

/-- Are these the first and the last of some rows? There are none if there are no rows. -/
def Bounds (rows : List Nat) : Option (Nat × Nat) → Prop
  | none => rows = []
  | some (first, last) => first ∈ rows ∧ last ∈ rows ∧ ∀ row ∈ rows, first ≤ row ∧ row ≤ last

/-- Is a record made of the given entries, and of nothing else? -/
structure Summarises (name : String) (entries : List Entry) (r : RegionRecord) : Prop where
  name_eq : r.name = name
  columns : ∀ column, column ∈ r.columns ↔ ∃ row, (column, row) ∈ cells entries
  rows : Bounds ((cells entries).map (·.2)) r.rows
  selectors : ∀ index, r.selectors.find? index =
    if enabled index entries = [] then none else some (enabled index entries)
  labels : ∀ column, r.labels.find? column = (texts column entries).getLast?

/-- The bounds of some rows and of one more. -/
theorem bounds_touch {rows : List Nat} {r : RegionRecord} (h : Bounds rows r.rows) (column : Column)
    (row : Nat) : Bounds (rows ++ [row]) (r.touch column row).rows := by
  -- the first row that is touched is both ends of the bounds
  cases hrows : r.rows with
  | none =>
    rw [hrows] at h
    obtain rfl : rows = [] := h
    simp [touch, hrows, Bounds]
  | some bounds =>
    obtain ⟨first, last⟩ := bounds
    rw [hrows] at h
    obtain ⟨hfirst, hlast, hall⟩ := h
    simp only [touch, hrows, Bounds, List.mem_append, List.mem_singleton]
    refine ⟨?_, ?_, ?_⟩
    · -- either end is an old one or the new row
      rcases Nat.le_total first row with hle | hle
      · exact .inl (by rwa [Nat.min_eq_left hle])
      · exact .inr (Nat.min_eq_right hle)
    · rcases Nat.le_total row last with hle | hle
      · exact .inl (by rwa [Nat.max_eq_left hle])
      · exact .inr (Nat.max_eq_right hle)
    · rintro other (hother | rfl)
      · have := hall other hother
        omega
      · omega

namespace Summarises

variable {name : String} {entries : List Entry} {r : RegionRecord}

/-- A region of which nothing was recorded. -/
theorem blank (name : String) : Summarises name [] (blank name) where
  name_eq := rfl
  columns column := ⟨fun h => absurd h (OrderedSet.not_mem_empty column), fun ⟨_, h⟩ => nomatch h⟩
  rows := rfl
  selectors _ := rfl
  labels _ := rfl

/-- One more cell. -/
theorem touch (h : Summarises name entries r) (column : Column) (row : Nat) :
    Summarises name (entries ++ [.cell column row]) (r.touch column row) where
  name_eq := h.name_eq
  columns other := by
    -- a column is in the set if some cell touched it, the last one included
    simp only [RegionRecord.touch, OrderedSet.mem_insert, h.columns, cells_append, List.mem_append,
      exists_or]
    simp [cells, or_comm]
  rows := by
    rw [cells_append, List.map_append]
    exact bounds_touch h.rows column row
  selectors index := by
    rw [enabled_append, show enabled index [.cell column row] = [] from rfl, List.append_nil]
    exact h.selectors index
  labels other := by
    rw [texts_append, show texts other [.cell column row] = [] from rfl, List.append_nil]
    exact h.labels other

/-- One more selector. -/
theorem enable (h : Summarises name entries r) (index row : Nat) :
    Summarises name (entries ++ [.selector index row]) (r.enable index row) where
  name_eq := h.name_eq
  columns other := by
    rw [cells_append, show cells [.selector index row] = [] from rfl, List.append_nil]
    exact h.columns other
  rows := by
    rw [cells_append, show cells [.selector index row] = [] from rfl, List.append_nil]
    exact h.rows
  selectors other := by
    have hone : enabled other [.selector index row] = if index = other then [row] else [] := by
      by_cases hsame : index = other <;> simp [enabled, hsame]
    simp only [RegionRecord.enable, OrderedMap.find?_insert, h.selectors, enabled_append, hone]
    by_cases hsame : index = other
    · subst hsame
      -- the first row of a selector, or one more
      by_cases hnone : enabled index entries = [] <;> simp [hnone]
    · simp [hsame]
  labels other := by
    rw [texts_append, show texts other [.selector index row] = [] from rfl, List.append_nil]
    exact h.labels other

/-- One more name for a column. -/
theorem nameColumn (h : Summarises name entries r) (column : Column) (text : String) :
    Summarises name (entries ++ [.label column text]) (r.nameColumn column text) where
  name_eq := h.name_eq
  columns other := by
    rw [cells_append, show cells [.label column text] = [] from rfl, List.append_nil]
    exact h.columns other
  rows := by
    rw [cells_append, show cells [.label column text] = [] from rfl, List.append_nil]
    exact h.rows
  selectors index := by
    rw [enabled_append, show enabled index [.label column text] = [] from rfl, List.append_nil]
    exact h.selectors index
  labels other := by
    -- the entry concerns the column it names and no other
    have hone : texts other [.label column text] = if column = other then [text] else [] := by
      by_cases hsame : column = other <;> simp [texts, hsame]
    simp only [RegionRecord.nameColumn, OrderedMap.find?_insert, h.labels, texts_append, hone]
    by_cases hsame : column = other <;> simp [hsame]

/-- A record that summarises some entries, and one more that it may take up. -/
theorem add (h : Summarises name entries r) (entry : Option Entry) :
    Summarises name (entries ++ entry.toList) (r.add entry) := by
  cases entry with
  | none =>
    rw [Option.toList_none, List.append_nil]
    exact h
  | some entry =>
    cases entry with
    | cell column row => exact h.touch column row
    | selector index row => exact h.enable index row
    | label column text => exact h.nameColumn column text

end Summarises

end RegionRecord

/-! ## Calls -/

/-- What the record of the open region takes up when a call succeeds. -/
def AssignmentCall.records? : AssignmentCall → Option RegionRecord.Entry
  | nameColumn label column => some (.label column label)
  | enableSelector _ selector row => some (.selector selector.index row)
  | assignAdvice _ column row _ => some (.cell (.advice column) row)
  | assignFixed _ column row _ => some (.cell (.fixed column) row)
  | start | close | enterRegion .. | exitRegion | queryAdvice .. | queryFixed .. | queryInput ..
  | copy .. | fillFrom .. | challenge .. | pushScope .. | popScope .. => none

namespace Prover

variable {α κ : Type} {p q : Prover}

/-- What a call that succeeds makes of the records. -/
theorem record_of_ends {c : AssignmentCall} (henter : ∀ name, c ≠ .enterRegion name)
    (hexit : c ≠ .exitRegion) {reply : c.Reply} (hends : c.perform.Ends p reply q) :
    q.records = p.records ∧ q.current = p.current.map (·.add c.records?) := by
  -- what has no entry leaves the open region
  have hsame : ∀ current : Option RegionRecord, current = current.map (·.add none) := by
    intro current
    exact Option.map_id'.symm
  cases c with
  -- opening and closing a region are apart
  | enterRegion name => exact absurd rfl (henter name)
  | exitRegion => exact absurd rfl hexit
  | nameColumn label column =>
    obtain rfl := (ends_record ..).1 hends
    exact ⟨rfl, rfl⟩
  | enableSelector label selector row =>
    obtain ⟨-, selectors, -, rfl⟩ := (ends_enableSelector ..).1 hends
    exact ⟨rfl, rfl⟩
  | assignAdvice label column row value =>
    obtain ⟨v, hassign, -⟩ := (Run.ends_map ..).1 hends
    obtain ⟨-, advice, -, rfl⟩ := (ends_assignAdvice ..).1 hassign
    exact ⟨rfl, rfl⟩
  | assignFixed label column row value =>
    obtain ⟨v, hassign, -⟩ := (Run.ends_map ..).1 hends
    obtain ⟨-, fixed, -, rfl⟩ := (ends_assignFixed ..).1 hassign
    exact ⟨rfl, rfl⟩
  -- calls without an entry
  | queryAdvice column row =>
    obtain ⟨-, content, -, -, rfl⟩ := (ends_queryAdvice ..).1 hends
    exact ⟨rfl, hsame _⟩
  | queryFixed column row =>
    obtain ⟨-, content, -, -, rfl⟩ := (ends_queryFixed ..).1 hends
    exact ⟨rfl, hsame _⟩
  | queryInput column row =>
    obtain ⟨-, cells, -, -, rfl⟩ := (ends_queryInput ..).1 hends
    exact ⟨rfl, hsame _⟩
  | challenge index =>
    obtain ⟨-, rfl⟩ := (ends_challenge ..).1 hends
    exact ⟨rfl, hsame _⟩
  | start | close | copy | fillFrom =>
    obtain ⟨b, -, rfl⟩ := (ends_onBoard ..).1 hends
    exact ⟨rfl, hsame _⟩
  | pushScope | popScope =>
    obtain rfl := (Run.ends_modify ..).1 hends
    exact ⟨rfl, hsame _⟩

/-- A call that neither opens nor closes a region keeps the records, and the open region takes it up if
it succeeds. -/
theorem record_perform {c : AssignmentCall} (henter : ∀ name, c ≠ .enterRegion name)
    (hexit : c ≠ .exitRegion) (p : Prover) :
    (c.perform p).state.records = p.records ∧
      (c.perform p).state.current =
        p.current.map (·.add (if (c.perform p).result.isOk then c.records? else none)) := by
  cases hresult : (c.perform p).result with
  | error fault =>
    rw [atomic_perform c p fault hresult]
    exact ⟨rfl, Option.map_id'.symm⟩
  | ok reply => exact record_of_ends henter hexit ⟨hresult, rfl⟩

/-- What entries do not take away from the records and the open region, no call does but the opening and
closing of regions, forks and merges. -/
theorem callKeeps_of_records {P : Array RegionRecord → Option RegionRecord → Prop}
    (h : ∀ records current entry, P records current → P records (current.map (·.add entry))) :
    CallKeeps fun p : Prover => P p.records p.current := by
  -- only entering and leaving a region is of another kind
  have hcall : ∀ c : AssignmentCall, (∀ name, c ≠ .enterRegion name) → c ≠ .exitRegion →
      Keeps (fun p : Prover => P p.records p.current) c.perform := by
    intro c henter hexit p hp
    obtain ⟨hrecords, hcurrent⟩ := record_perform henter hexit p
    show P (c.perform p).state.records (c.perform p).state.current
    rw [hrecords, hcurrent]
    exact h _ _ _ hp
  exact {
    nameColumn := fun label column => hcall (.nameColumn label column) nofun nofun
    enableSelector := fun label selector row => hcall (.enableSelector label selector row) nofun nofun
    queryAdvice := fun column row => hcall (.queryAdvice column row) nofun nofun
    queryFixed := fun column row => hcall (.queryFixed column row) nofun nofun
    queryInput := fun column row => hcall (.queryInput column row) nofun nofun
    assignAdvice := fun label column row v => hcall (.assignAdvice label column row v) nofun nofun
    assignFixed := fun label column row v => hcall (.assignFixed label column row v) nofun nofun
    copy := fun left right => hcall (.copy left right) nofun nofun
    start := hcall .start nofun nofun
    close := hcall .close nofun nofun
    fillFrom := fun column row value => hcall (.fillFrom column row value) nofun nofun
    challenge := fun index => hcall (.challenge index) nofun nofun
    pushScope := fun name => hcall (.pushScope name) nofun nofun
    popScope := fun name => hcall (.popScope name) nofun nofun }

/-- A prover on which a region was opened. -/
def opened (p : Prover) (name : String) : Prover := { p with current := some (.blank name) }

/-- While a region is open no call opens a second one, and none but the one that closes it changes the
finished records. The open region takes up what the call did, unless the call fails. -/
theorem record_perform_of_open {c : AssignmentCall} (hexit : c ≠ .exitRegion) {r : RegionRecord}
    (hopen : p.current = some r) :
    (c.perform p).state.records = p.records ∧
      (c.perform p).state.current =
        some (r.add (if (c.perform p).result.isOk then c.records? else none)) := by
  by_cases henter : ∃ name, c = .enterRegion name
  · obtain ⟨name, rfl⟩ := henter
    -- regions are not nested, so entering one fails here
    have hresult : ((AssignmentCall.enterRegion name).perform p).result =
        .error (.regionNested name r.name) := by
      show (enterRegion name p).result = _
      rw [enterRegion, Run.get_bind_apply, hopen]
      rfl
    rw [atomic_perform _ p _ hresult, hopen, hresult]
    exact ⟨rfl, rfl⟩
  · have hrecord := record_perform (fun name hc => henter ⟨name, hc⟩) hexit p
    rwa [hopen] at hrecord

/-! ## Operations -/

/-- What can be asked of a prover: a call, a fork, or a merge of anything. -/
inductive Operation where
  | call (c : AssignmentCall)
  | fork (ranges : List RowSpan)
  | merge (offers : List (Offer Prover))

namespace Operation

/-- What an operation does. -/
def perform : Operation → Run Prover Unit
  | call c => do
    let _ ← c.perform
    return ()
  | fork ranges => do
    let _ ← Prover.fork ranges
    return ()
  | merge offers => Prover.merge offers

/-- What the record of the open region takes up when an operation succeeds. -/
def records? : Operation → Option RegionRecord.Entry
  | call c => c.records?
  | fork .. | merge .. => none

/-- What is left of a prover after some operations, whether they succeed or fail. -/
def performAll (operations : List Operation) (p : Prover) : Prover :=
  operations.foldl (fun q o => (o.perform q).state) p

/-- Those of some operations on a prover that succeed, in order. -/
def succeeding : List Operation → Prover → List Operation
  | [], _ => []
  | o :: operations, p =>
    let rest := succeeding operations (o.perform p).state
    if (o.perform p).result.isOk then o :: rest else rest

end Operation

/-- What does not touch the records is kept by whatever is done to the board. -/
theorem keeps_onBoard_of {P : Prover → Prop} (h : ∀ p b, P p → P { p with board := b })
    (m : Run (Board Content) α) : Keeps P (onBoard m) :=
  Keeps.zoom fun p hp => h p _ hp

/-- The records and the open region take no notice of a fork. -/
theorem keeps_fork_of_records {P : Array RegionRecord → Option RegionRecord → Prop}
    (ranges : List RowSpan) : Keeps (fun p => P p.records p.current) (fork ranges) := by
  refine (keeps_onBoard_of (fun _ _ hp => hp) _).bind fun _ => ?_
  refine Keeps.get_bind fun p hp => ?_
  refine (Keeps.ofExcept _).bind fun parts => ?_
  refine Keeps.bind (Keeps.set (s := { p with advice := parts.2 }) hp) fun _ => ?_
  exact (keeps_onBoard_of (fun _ _ hp => hp) _).bind fun _ => Keeps.pure _

/-- What is taken over from a fork does not touch the open region. -/
theorem keeps_current_mergeOne (current : Option RegionRecord) (index : Nat) (offer : Offer Prover) :
    Keeps (fun p => p.current = current) (mergeOne index offer) := by
  -- records are taken over, and the open region is not among them
  have htake : ∀ fork : Prover, Keeps (fun p => p.current = current) (takeOver fork) := fun fork =>
    (keeps_onBoard_of (fun _ _ hp => hp) _).bind fun _ => Keeps.modify fun _ hp => hp
  cases offer with
  | stranger => exact Keeps.raise _
  | fork fork =>
    refine (htake fork).bind fun _ => ?_
    exact (keeps_onBoard_of (fun _ _ hp => hp) _).bind fun _ => Keeps.pure _
  | itself =>
    refine Keeps.get.bind fun before => (htake before).bind fun _ => ?_
    refine Keeps.get_bind fun p hp => ?_
    refine (keeps_onBoard_of (fun _ _ hp => hp) _).bind fun _ => ?_
    exact (Keeps.set (s := p.emptied) hp).bind fun _ => Keeps.pure _

/-- The open region takes no notice of a merge. -/
theorem keeps_current_merge (current : Option RegionRecord) (offers : List (Offer Prover)) :
    Keeps (fun p => p.current = current) (merge offers) := by
  refine (keeps_onBoard_of (fun _ _ hp => hp) _).bind fun _ => ?_
  refine (Keeps.each fun x _ => keeps_current_mergeOne current x.2 x.1).bind fun forks => ?_
  refine Keeps.get_bind fun p hp => ?_
  refine (Keeps.ofExcept _).bind fun advice => ?_
  refine Keeps.bind (Keeps.set (s := { p with advice := advice }) hp) fun _ => ?_
  exact keeps_onBoard_of (fun _ _ hp => hp) _

/-- Is a region open, with a record that summarises some entries? -/
def Recording (name : String) (entries : List RegionRecord.Entry) (p : Prover) : Prop :=
  ∃ r, p.current = some r ∧ r.Summarises name entries

namespace Recording

variable {name : String} {entries : List RegionRecord.Entry}

/-- An open region takes up what a call did, unless the call fails. No call opens a second region. -/
theorem call (h : Recording name entries p) {c : AssignmentCall} (hexit : c ≠ .exitRegion) :
    Recording name (entries ++ (if (c.perform p).result.isOk then c.records? else none).toList)
      (c.perform p).state := by
  obtain ⟨r, hopen, hr⟩ := h
  exact ⟨_, (record_perform_of_open hexit hopen).2, hr.add _⟩

/-- An open region takes up what an operation did, unless the operation fails. -/
theorem perform (h : Recording name entries p) {o : Operation} (hexit : o ≠ .call .exitRegion) :
    Recording name (entries ++ (if (o.perform p).result.isOk then o.records? else none).toList)
      (o.perform p).state := by
  -- forks and merges leave the open region as it is and have no entry
  have hquiet : (o.perform p).state.current = p.current → o.records? = none →
      Recording name (entries ++ (if (o.perform p).result.isOk then o.records? else none).toList)
        (o.perform p).state := by
    intro hsame hnone
    obtain ⟨r, hopen, hr⟩ := h
    rw [hnone, ite_self, Option.toList_none, List.append_nil]
    exact ⟨r, hsame.trans hopen, hr⟩
  cases o with
  | call c =>
    obtain ⟨hresult, hstate⟩ := Run.bind_pure_eq c.perform () p
    -- a call as an operation succeeds when the call does
    have hok : ((Operation.call c).perform p).result.isOk = (c.perform p).result.isOk := by
      refine (congrArg Except.isOk hresult).trans ?_
      cases (c.perform p).result <;> rfl
    rw [hok, show ((Operation.call c).perform p).state = (c.perform p).state from hstate]
    exact h.call fun hc => hexit (congrArg Operation.call hc)
  | fork ranges =>
    refine hquiet ?_ rfl
    exact ((keeps_fork_of_records (P := fun _ current => current = p.current) ranges).bind
      fun _ => Keeps.pure _) p rfl
  | merge offers => exact hquiet (keeps_current_merge p.current offers p rfl) rfl

/-- An open region takes up what some operations did, those that fail left out. -/
theorem performAll (h : Recording name entries p) {operations : List Operation}
    (hexit : ∀ o ∈ operations, o ≠ .call .exitRegion) :
    Recording name (entries ++ (Operation.succeeding operations p).filterMap (·.records?))
      (Operation.performAll operations p) := by
  induction operations generalizing p entries with
  | nil =>
    rw [Operation.succeeding, List.filterMap_nil, List.append_nil]
    exact h
  | cons o operations ih =>
    obtain ⟨hfirst, hrest⟩ := List.forall_mem_cons.1 hexit
    -- the rest is recorded behind the first operation
    have hnext := ih (h.perform hfirst) hrest
    rw [List.append_assoc] at hnext
    -- the entry of the first operation, if it succeeds, comes first
    have hsplit : (Operation.succeeding (o :: operations) p).filterMap (·.records?) =
        (if (o.perform p).result.isOk then o.records? else none).toList ++
          (Operation.succeeding operations (o.perform p).state).filterMap (·.records?) := by
      rw [Operation.succeeding]
      split
      · cases hentry : o.records? <;> simp [hentry]
      · rfl
    rw [hsplit]
    exact hnext

end Recording

/-- Of a region that is opened where none is open, and closed after some operations, a record of its
name is kept that summarises those of the operations that succeeded. -/
theorem record_performAll (hidle : p.current = none) (name : String) {operations : List Operation}
    (hexit : ∀ o ∈ operations, o ≠ .call .exitRegion) :
    (enterRegion name).Ends p () (p.opened name) ∧ ∃ r,
      r.Summarises name ((Operation.succeeding operations (p.opened name)).filterMap (·.records?)) ∧
      let left := Operation.performAll operations (p.opened name)
      exitRegion.Ends left () { left with records := left.records.push r, current := none } := by
  have hopened : Recording name [] (p.opened name) := ⟨_, rfl, .blank name⟩
  obtain ⟨r, hopen, hr⟩ := hopened.performAll hexit
  exact ⟨(ends_enterRegion ..).2 ⟨hidle, rfl⟩, r, hr, (ends_exitRegion ..).2 ⟨r, hopen, rfl⟩⟩

/-! ## Regions that are written -/

/-- A region that is opened is closed again, whatever is done within it, and its record is kept. -/
theorem withinRegion_of_idle (name : String) (body : Run (Desk Prover κ) α) {d : Desk Prover κ}
    (hidle : d.target.current = none) {r : RegionRecord}
    (hopen : (body { d with target := d.target.opened name }).state.target.current = some r) :
    let run := body { d with target := d.target.opened name }
    withinRegion name body d = ⟨run.result,
      { run.state with
        target.records := run.state.target.records.push r
        target.current := none },
      run.events⟩ := by
  intro run
  -- no region is open, so one can be entered; one is open after the body, so it can be left
  have henter : (Assignment.enterRegion name : Run Prover Unit) d.target =
      ⟨.ok (), d.target.opened name, []⟩ := by
    show enterRegion name d.target = _
    rw [enterRegion, Run.get_bind_apply, hidle]
    rfl
  have hexit : (Assignment.exitRegion : Run Prover Unit) run.state.target =
      ⟨.ok (), { run.state.target with
        records := run.state.target.records.push r, current := none }, []⟩ := by
    show exitRegion run.state.target = _
    rw [exitRegion, Run.get_bind_apply, hopen]
    rfl
  have hbody : body { d with target := d.target.opened name } =
      ⟨run.result, run.state, run.events⟩ := rfl
  simp only [withinRegion, onTarget, Run.bind_apply, Run.zoom, Run.attempt, henter, hbody, hexit]
  -- the region is closed either way, and a fault of the body is raised again
  cases run.result with
  | error fault => simp [Run.settle, Run.rethrow]
  | ok a => simp [Run.settle, Run.pure]

/-- What the routine of a region does on a prover, once its region is open. -/
def runOpened (starts : Array Nat) (region : Nat) (name : String) (routine : Routine α) (p : Prover) :
    Outcome (Desk Prover Requests) α :=
  routine.run (announcedCall starts region) ⟨p.opened name, #[]⟩

/-- A region that is written ends as its routine does, and leaves what the routine leaves of the prover,
with a record behind the others. -/
theorem writeRegion_of_idle {starts : Array Nat} {region : Nat} {name : String} {routine : Routine α}
    (hidle : p.current = none) {r : RegionRecord}
    (hopen : (runOpened starts region name routine p).state.target.current = some r) :
    let run := runOpened starts region name routine p
    writeRegion starts region name routine p = ⟨run.result.map (·, run.state.kept),
      { run.state.target with records := run.state.target.records.push r, current := none },
      .pass region .writing :: run.events⟩ := by
  intro run
  -- the region as it is run, with its first event
  let body : Run (Desk Prover Requests) α := do
    Run.emit (.pass region .writing)
    routine.run (announcedCall starts region)
  have hwithin := withinRegion_of_idle name body (d := ⟨p, #[]⟩) hidle hopen
  have hbody : body ⟨p.opened name, #[]⟩ =
      ⟨run.result, run.state, .pass region .writing :: run.events⟩ := rfl
  have hwrite : writeRegion starts region name routine = Run.zoom (fun target => Desk.mk target #[])
      (fun _ d => d.target) (do
        let a ← withinRegion name body
        let requests ← Desk.getKept
        return (a, requests)) := rfl
  -- the desk is opened for the region alone, with no requests yet
  rw [hwrite]
  simp only [Run.zoom, Run.bind_apply, hwithin, hbody]
  cases run.result with
  | error fault => rfl
  | ok a => exact congrArg (Outcome.mk (.ok (a, run.state.kept)) _) (List.append_nil _)

end Prover

end CircuitLayout
