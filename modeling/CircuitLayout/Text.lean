namespace CircuitLayout.Text

/-!
# Texts as they are shown

A text that is written to a stream shows as lines, which end at line breaks and nowhere else. A
message is handed on up to its first NUL.
-/

/-! ## Lines -/

/-- Puts a character in front of the first of some lines. -/
def push (c : Char) : List (List Char) → List (List Char)
  | [] => [[c]]
  | line :: lines => (c :: line) :: lines

/-- The pieces between line breaks. There is always one, and a line break at the end is followed by
an empty one. -/
def cut : List Char → List (List Char)
  | [] => [[]]
  | c :: cs => if c = '\n' then [] :: cut cs else push c (cut cs)

/-- The lines of a text. -/
def lines (text : String) : List String := (cut text.toList).map String.ofList

/-! ## Messages -/

/-- A text up to its first NUL. -/
def untilNul (text : String) : String :=
  String.ofList (text.toList.takeWhile fun c => decide (c ≠ '\x00'))

end CircuitLayout.Text
