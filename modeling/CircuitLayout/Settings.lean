import CircuitLayout.Json.Number
import CircuitLayout.Text

namespace CircuitLayout

/-!
# Settings of the layout

The settings come from defaults, from the environment or from a document. In a document missing
members keep their defaults, and the members are checked in a fixed order.
-/

/-- How a circuit is laid out. -/
structure Settings where
  /-- Are batches of regions written on forks, where the target has them? -/
  parallel : Bool
  /-- The number of workers; zero leaves the choice open. -/
  threads : Nat
  /-- Regions of at least this height have their place reported. -/
  tallRegion : Nat
  deriving DecidableEq, Repr

/-- What stands at a path. -/
inductive FileContent where
  /-- Nothing that can be opened. -/
  | missing
  | folder
  | text (text : String)
  deriving DecidableEq, Repr

/-- What can be wrong with a source of settings. -/
inductive SettingsFault where
  /-- The file cannot be opened. -/
  | unreadable (path : String)
  /-- The path leads to a folder, which opens like a file and holds no text. -/
  | folder
  /-- The text is no document. -/
  | malformed
  /-- The document is no object. -/
  | notObject
  /-- The member has a value of the wrong type. -/
  | wrongType (key : String)
  | negativeThreads (threads : Int)
  deriving DecidableEq, Repr

namespace SettingsFault

/-- The message of a fault. A path in it ends at its first NUL. -/
def message : SettingsFault → String
  | unreadable path => Text.untilNul s!"Failed to open file: {path}"
  | folder => "basic_filebuf::underflow error reading the file: Is a directory"
  | malformed => "the text is not a JSON document"
  | notObject => "layout config must be a JSON object"
  | wrongType key => s!"{key} has a value of the wrong type"
  | negativeThreads threads => s!"num_threads must be >= 0, got {threads}"

/-- The lines that a fault leaves among the diagnostics. -/
def notices : SettingsFault → List String
  | unreadable path => Text.lines s!"[config] cannot open {path}"
  | _ => []

end SettingsFault

namespace Settings

/-- The settings of one who asks for none. -/
def default : Settings := ⟨true, 0, 40⟩

instance : Inhabited Settings := ⟨default⟩

/-- The name of the member, or variable, for each setting. -/
def parallelKey : String := "parallel_synthesis"

/-- The name of the member for the number of workers. -/
def threadsKey : String := "num_threads"

/-- The name of the member for the height of reported regions. -/
def tallRegionKey : String := "large_region_threshold"

/-- The members that stand for the settings. -/
def members (s : Settings) : List (String × Json) :=
  [(parallelKey, .bool s.parallel), (threadsKey, .nat s.threads),
    (tallRegionKey, .nat s.tallRegion)]

/-- The settings as a document. -/
def toJson (s : Settings) : Json := .obj s.members

/-- Reads a member with a reading of its own; a value without one has the wrong type. -/
def member {α : Type} (members : List (String × Json)) (key : String) (read : Json → Option α)
    (missing : α) : Except SettingsFault α :=
  match Json.member? members key with
  | none => .ok missing
  | some value =>
    match read value with
    | some x => .ok x
    | none => .error (.wrongType key)

/-- Reads settings from a document. -/
def ofJson : Json → Except SettingsFault Settings
  | .obj members => do
    let parallel ← member members parallelKey Json.bool? default.parallel
    let threads ← member members threadsKey Json.signed? default.threads
    -- the sign is checked before the next member is read
    if threads < 0 then throw (.negativeThreads threads)
    let tallRegion ← member members tallRegionKey Json.word? default.tallRegion
    return ⟨parallel, threads.toNat, tallRegion⟩
  | _ => .error .notObject

/-- A member that is there and can be read is what the settings have. -/
theorem member_eq_ok {α : Type} {members : List (String × Json)} {key : String} {value : Json}
    {read : Json → Option α} {missing x : α} (hvalue : Json.member? members key = some value)
    (hread : read value = some x) : member members key read missing = .ok x := by
  simp only [member, hvalue, hread]

/-- Settings are read back as they were written, as long as the number of workers fits 31 bits and
the height fits a word. -/
theorem ofJson_toJson {s : Settings} (hthreads : s.threads < Nat.pow 2 31)
    (htall : s.tallRegion < Word.size) : ofJson s.toJson = .ok s := by
  have hparallel : Json.member? s.members parallelKey = some (.bool s.parallel) := by
    simp [Json.member?, members, parallelKey, threadsKey, tallRegionKey]
  have hcount : Json.member? s.members threadsKey = some (.nat s.threads) := by
    simp [Json.member?, members, threadsKey, tallRegionKey]
  have hheight : Json.member? s.members tallRegionKey = some (.nat s.tallRegion) := by
    simp [Json.member?, members]
  rw [toJson, ofJson, member_eq_ok hparallel (Json.bool?_bool _),
    member_eq_ok hcount (Json.signed?_nat hthreads), member_eq_ok hheight (Json.word?_nat htall)]
  -- the only check that is left: the number of threads is not negative
  have hcounts : ¬ (s.threads : Int) < 0 := by omega
  simp only [bind, Except.bind, if_neg hcounts]
  rfl

/-- With one worker more the number is read as a negative one. -/
example : (ofJson (toJson ⟨true, Nat.pow 2 31, 40⟩)).isOk = false := by
  decide

/-- The environment, as far as it is set. -/
abbrev Environment := String → Option String

/-- The variable that can turn batches on forks off. -/
def parallelVariable : String := "PLONKISH_PARALLEL_SYN"

/-- The variables that can set the number of workers, the first one first. -/
def threadVariables : List String := ["PLONKISH_NUM_THREADS", "OMP_NUM_THREADS"]

/-- The number of workers that a variable asks for, zero if it asks for none. -/
def threadsOf (environment : Environment) (name : String) : Nat :=
  match environment name with
  | some text => (Numeral.signed text).toNat
  | none => 0

/-- The number of workers that the environment asks for, zero if it asks for none. -/
def environmentThreads (environment : Environment) : Nat :=
  ((threadVariables.map (threadsOf environment)).find? (· ≠ 0)).getD 0

/-- Reads settings from the environment. -/
def ofEnvironment (environment : Environment) : Settings where
  parallel :=
    match environment parallelVariable with
    | some text => !(text = "0" || text = "false")
    | none => default.parallel
  threads := environmentThreads environment
  tallRegion := default.tallRegion

end Settings

end CircuitLayout
