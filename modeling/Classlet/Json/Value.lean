/-!
# JSON values

A JSON text as a value.  The order of the fields of an object and fields given more than once are
kept, and numbers written as integers are told from those written otherwise.
-/

namespace Classlet

/-- A JSON value. -/
inductive Json where
  | null
  | bool (b : Bool)
  | int (n : Int)
  /-- A number written with a point or an exponent, or a negative zero. -/
  | decimal (lexeme : String)
  | str (s : String)
  /-- A string whose escapes denote no text, or an object with such a name, as it was written. -/
  | garbled (lexeme : String)
  | arr (items : List Json)
  | obj (fields : List (String × Json))
  deriving Inhabited

namespace Json

/-- A natural number. -/
def nat (n : Nat) : Json := int n

/-- A list of strings. -/
def strings (items : List String) : Json := arr (items.map str)

/-- A value that may be absent. -/
def ofOption {α : Type} (encode : α → Json) : Option α → Json
  | some a => encode a
  | none => null

/-- A list of values. -/
def ofList {α : Type} (encode : α → Json) (items : List α) : Json := arr (items.map encode)

mutual

/-- How deep arrays and objects are nested in a value. -/
def depth : Json → Nat
  | arr items => depthOfItems items + 1
  | obj fields => depthOfFields fields + 1
  | _ => 0

/-- The greatest depth of some values. -/
def depthOfItems : List Json → Nat
  | [] => 0
  | j :: rest => max j.depth (depthOfItems rest)

/-- The greatest depth of the values of some fields. -/
def depthOfFields : List (String × Json) → Nat
  | [] => 0
  | (_, j) :: rest => max j.depth (depthOfFields rest)

end

mutual

/-- The value in which every object keeps, of the fields given under one name, the last. -/
def lastFields : Json → Json
  | arr items => arr (lastFieldsOfItems items)
  | obj fields => obj (lastFieldsOfFields fields)
  | j => j

/-- The same for the items of an array. -/
def lastFieldsOfItems : List Json → List Json
  | [] => []
  | j :: rest => j.lastFields :: lastFieldsOfItems rest

/-- The same for the fields of an object. -/
def lastFieldsOfFields : List (String × Json) → List (String × Json)
  | [] => []
  | (name, j) :: rest =>
    if rest.any (·.1 == name) then lastFieldsOfFields rest
    else (name, j.lastFields) :: lastFieldsOfFields rest

end

end Json

end Classlet
