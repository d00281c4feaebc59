namespace CircuitLayout

/-!
# Documents

Values of the document format in which settings are read and layouts are reported.
-/

/-- A document. -/
inductive Json where
  | null
  | bool (value : Bool)
  | int (value : Int)
  /-- A number with a fraction or an exponent, as it was written. -/
  | decimal (text : String)
  | str (text : String)
  | arr (items : List Json)
  /-- The members of an object, in the order in which they were written. -/
  | obj (members : List (String × Json))
  deriving Inhabited

namespace Json

/-- A natural number as a document. -/
def nat (n : Nat) : Json := int n

/-- The member of a name; of several the last one counts. -/
def member? (members : List (String × Json)) (key : String) : Option Json :=
  (members.reverse.find? fun m => decide (m.1 = key)).map (·.2)

/-- A value as a truth value. -/
def bool? : Json → Option Bool
  | bool value => some value
  | _ => none

@[simp] theorem bool?_bool (value : Bool) : bool? (bool value) = some value := rfl

/-- Adds members to an object. -/
def extend : Json → List (String × Json) → Json
  | obj members, more => obj (members ++ more)
  | other, _ => other

end Json

end CircuitLayout
