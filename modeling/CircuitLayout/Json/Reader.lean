import CircuitLayout.Json.Number

namespace CircuitLayout.Json

/-!
# Reading documents

The grammar is the strict one: no comments, no comma after the last item, no zero before further
digits, nothing but blanks after the document, no control character inside a string.
-/

/-- The four blanks between tokens. -/
def isBlank (c : Char) : Bool := c = ' ' || c = '\t' || c = '\n' || c = '\r'

/-- What follows the blanks. -/
def skipBlanks (s : List Char) : List Char := s.dropWhile isBlank

/-- What follows a given text, if the input starts with it. -/
def afterText? : List Char → List Char → Option (List Char)
  | [], s => some s
  | c :: cs, d :: s => if c = d then afterText? cs s else none
  | _ :: _, [] => none

/-- The value of a hexadecimal digit. -/
def hexValue? (c : Char) : Option Nat :=
  if c.isDigit then some (c.toNat - '0'.toNat)
  else if 'a' ≤ c ∧ c ≤ 'f' then some (c.toNat - 'a'.toNat + 10)
  else if 'A' ≤ c ∧ c ≤ 'F' then some (c.toNat - 'A'.toNat + 10)
  else none

/-- Four hexadecimal digits. -/
def hexUnit? : List Char → Option (Nat × List Char)
  | a :: b :: c :: d :: rest => do
    let a ← hexValue? a
    let b ← hexValue? b
    let c ← hexValue? c
    let d ← hexValue? d
    return (((a * 16 + b) * 16 + c) * 16 + d, rest)
  | _ => none

/-- Is a unit the first half of a pair? -/
def isHighHalf (n : Nat) : Bool := decide (0xD800 ≤ n) && decide (n < 0xDC00)

/-- Is a unit the second half of a pair? -/
def isLowHalf (n : Nat) : Bool := decide (0xDC00 ≤ n) && decide (n < 0xE000)

/-- The character of an escape by number; halves count only in pairs. -/
def escapedUnit? (s : List Char) : Option (Char × List Char) := do
  let (n, rest) ← hexUnit? s
  if isHighHalf n then
    let rest ← afterText? ['\\', 'u'] rest
    let (m, rest) ← hexUnit? rest
    if isLowHalf m then
      return (Char.ofNat (0x10000 + (n - 0xD800) * 0x400 + (m - 0xDC00)), rest)
    else none
  else if isLowHalf n then none
  else return (Char.ofNat n, rest)

/-- The character of an escape, without the backslash. -/
def escaped? : List Char → Option (Char × List Char)
  | '"' :: rest => some ('"', rest)
  | '\\' :: rest => some ('\\', rest)
  | '/' :: rest => some ('/', rest)
  | 'b' :: rest => some (Char.ofNat 8, rest)
  | 'f' :: rest => some (Char.ofNat 12, rest)
  | 'n' :: rest => some ('\n', rest)
  | 'r' :: rest => some ('\r', rest)
  | 't' :: rest => some ('\t', rest)
  | 'u' :: rest => escapedUnit? rest
  | _ => none

/-- The rest of a string after its opening quote, with the characters before it, last first. -/
def stringTail? : Nat → List Char → List Char → Option (String × List Char)
  | 0, _, _ => none
  | fuel + 1, seen, s =>
    match s with
    | [] => none
    | '"' :: rest => some (String.ofList seen.reverse, rest)
    | '\\' :: rest => do
      let (c, rest) ← escaped? rest
      stringTail? fuel (c :: seen) rest
    | c :: rest => if c.toNat < 32 then none else stringTail? fuel (c :: seen) rest

/-- The digits before the point: a lone zero, or digits that start with another one. -/
def wholePart? (s : List Char) : Option (List Char × List Char) :=
  match digits s with
  | ([], _) => none
  | ('0' :: _ :: _, _) => none
  | found => some found

/-- The point and the digits after it, if there is a point. -/
def fraction? : List Char → Option (List Char × List Char)
  | '.' :: s =>
    match digits s with
    | ([], _) => none
    | (found, rest) => some ('.' :: found, rest)
  | s => some ([], s)

/-- The exponent, if there is one. -/
def exponent? (s : List Char) : Option (List Char × List Char) :=
  match s with
  | c :: rest =>
    if c = 'e' ∨ c = 'E' then
      let (sign, rest) := match rest with
        | '+' :: rest => (['+'], rest)
        | '-' :: rest => (['-'], rest)
        | rest => ([], rest)
      match digits rest with
      | ([], _) => none
      | (found, rest) => some (c :: sign ++ found, rest)
    else some ([], s)
  | [] => some ([], [])

/-- A number. Without fraction and exponent it is an integer. One beyond all doubles is refused. -/
def number? (s : List Char) : Option (Json × List Char) := do
  let (sign, s) := match s with
    | '-' :: rest => (['-'], rest)
    | rest => ([], rest)
  let (whole, s) ← wholePart? s
  let (fraction, s) ← fraction? s
  let (exponent, s) ← exponent? s
  let spelling := sign ++ whole ++ fraction ++ exponent
  guard (Decimal.ofChars spelling).whole?.isSome
  if fraction.isEmpty ∧ exponent.isEmpty then
    let n := Numeral.ofDigits whole
    return (.int (if sign.isEmpty then (n : Int) else -(n : Int)), s)
  else return (.decimal (String.ofList spelling), s)

mutual

/-- A value and what follows it. -/
def value? : Nat → List Char → Option (Json × List Char)
  | 0, _ => none
  | fuel + 1, s =>
    match skipBlanks s with
    | '"' :: rest =>
      (stringTail? (rest.length + 1) [] rest).map fun (text, rest) => (.str text, rest)
    | '[' :: rest =>
      match skipBlanks rest with
      | ']' :: rest => some (.arr [], rest)
      | rest => items? fuel [] rest
    | '\x7b' :: rest =>
      match skipBlanks rest with
      | '\x7d' :: rest => some (.obj [], rest)
      | rest => members? fuel [] rest
    | 'n' :: rest => (afterText? ['u', 'l', 'l'] rest).map fun rest => (.null, rest)
    | 't' :: rest => (afterText? ['r', 'u', 'e'] rest).map fun rest => (.bool true, rest)
    | 'f' :: rest => (afterText? ['a', 'l', 's', 'e'] rest).map fun rest => (.bool false, rest)
    | rest => number? rest

/-- The items of an array after those seen, which stand last first. -/
def items? : Nat → List Json → List Char → Option (Json × List Char)
  | 0, _, _ => none
  | fuel + 1, seen, s => do
    let (item, rest) ← value? fuel s
    match skipBlanks rest with
    | ',' :: rest => items? fuel (item :: seen) rest
    | ']' :: rest => some (.arr (item :: seen).reverse, rest)
    | _ => none

/-- The members of an object after those seen, which stand last first. -/
def members? : Nat → List (String × Json) → List Char → Option (Json × List Char)
  | 0, _, _ => none
  | fuel + 1, seen, s =>
    match skipBlanks s with
    | '"' :: rest => do
      let (name, rest) ← stringTail? (rest.length + 1) [] rest
      match skipBlanks rest with
      | ':' :: rest => do
        let (item, rest) ← value? fuel rest
        match skipBlanks rest with
        | ',' :: rest => members? fuel ((name, item) :: seen) rest
        | '\x7d' :: rest => some (.obj ((name, item) :: seen).reverse, rest)
        | _ => none
      | _ => none
    | _ => none

end

/-- Reads a document; nothing but blanks may follow it. -/
def parse? (text : String) : Option Json :=
  let s := text.toList
  match value? (2 * s.length + 2) s with
  | some (document, rest) => if (skipBlanks rest).isEmpty then some document else none
  | none => none

end CircuitLayout.Json
