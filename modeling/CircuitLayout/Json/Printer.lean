import CircuitLayout.Json

namespace CircuitLayout.Json

/-!
# Printing documents

The members of an object are printed by increasing name. The compact form has no blanks; the
indented form puts every item on a line of its own.
-/

/-- A digit of the base sixteen. -/
def hexDigit (n : Nat) : Char :=
  if n < 10 then Char.ofNat ('0'.toNat + n) else Char.ofNat ('a'.toNat + (n - 10))

/-- A character as it stands in a string: quotes, backslashes and control characters are escaped. -/
def escapeChar (c : Char) : List Char :=
  match c with
  | '"' => ['\\', '"']
  | '\\' => ['\\', '\\']
  | '\n' => ['\\', 'n']
  | '\r' => ['\\', 'r']
  | '\t' => ['\\', 't']
  | c =>
    if c.toNat = 8 then ['\\', 'b']
    else if c.toNat = 12 then ['\\', 'f']
    else if c.toNat < 32 then
      ['\\', 'u', '0', '0', hexDigit (c.toNat / 16), hexDigit (c.toNat % 16)]
    else [c]

/-- A text in quotes. -/
def quote (text : String) : String :=
  String.ofList ('"' :: text.toList.flatMap escapeChar ++ ['"'])

/-- Sorts members by name. -/
def sortMembers (members : List (String × String)) : List (String × String) :=
  members.mergeSort fun a b => decide (a.1 ≤ b.1)

/-- The opening brace. -/
def openBrace : String := "\x7b"

/-- The closing brace. -/
def closeBrace : String := "\x7d"

mutual

/-- The compact form. -/
def compact : Json → String
  | null => "null"
  | bool value => if value then "true" else "false"
  | int value => toString value
  | decimal text => text
  | str text => quote text
  | arr items => "[" ++ ",".intercalate (compactItems items) ++ "]"
  | obj members =>
    openBrace ++
      ",".intercalate ((sortMembers (compactMembers members)).map fun m =>
        quote m.1 ++ ":" ++ m.2) ++
      closeBrace

/-- The compact forms of items. -/
def compactItems : List Json → List String
  | [] => []
  | item :: items => compact item :: compactItems items

/-- The compact forms of members, with their names. -/
def compactMembers : List (String × Json) → List (String × String)
  | [] => []
  | (name, item) :: members => (name, compact item) :: compactMembers members

end

/-- A line break and the indentation of a depth. -/
def lineBreak (depth : Nat) : String :=
  String.ofList ('\n' :: List.replicate (2 * depth) ' ')

/-- Lines between two brackets; without any the brackets stand together. -/
def bracketed (opening closing : String) (depth : Nat) (lines : List String) : String :=
  if lines.isEmpty then opening ++ closing
  else
    opening ++ lineBreak (depth + 1) ++ ("," ++ lineBreak (depth + 1)).intercalate lines ++
      lineBreak depth ++ closing

mutual

/-- The indented form, at a depth. -/
def indented (depth : Nat) : Json → String
  | null => "null"
  | bool value => if value then "true" else "false"
  | int value => toString value
  | decimal text => text
  | str text => quote text
  | arr items => bracketed "[" "]" depth (indentedItems (depth + 1) items)
  | obj members =>
    bracketed openBrace closeBrace depth
      ((sortMembers (indentedMembers (depth + 1) members)).map fun m => quote m.1 ++ ": " ++ m.2)

/-- The indented forms of items. -/
def indentedItems (depth : Nat) : List Json → List String
  | [] => []
  | item :: items => indented depth item :: indentedItems depth items

/-- The indented forms of members, with their names. -/
def indentedMembers (depth : Nat) : List (String × Json) → List (String × String)
  | [] => []
  | (name, item) :: members => (name, indented depth item) :: indentedMembers depth members

end

end CircuitLayout.Json
