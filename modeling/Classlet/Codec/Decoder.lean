import Classlet.Bindings
import Classlet.Json.Value

/-!
# Decoders

How values are read from JSON.  A record is an object with its fields in any order, or an array of
all of them in the order of their declaration; a field of the record given twice is refused, one
that the record does not have is ignored.  A variant is its name alone, or an object whose only
field is its name with its content.

A decoder is told what it may still accept: how many levels of arrays and objects it may enter, and
whether the fields in the content of a variant may be given as an array, too.
-/

namespace Classlet.Codec

/-- What a decoder may still accept. -/
structure Reading where
  /-- How many levels of arrays and objects may be entered. -/
  levels : Nat
  /-- The fields of a variant may be given as an array. -/
  tuples : Bool

/-- The reading one level further inside. -/
def Reading.enter (r : Reading) : Option Reading :=
  match r.levels with
  | 0 => none
  | levels + 1 => some { r with levels }

/-- Reads a value of `α`. -/
abbrev Decoder (α : Type) := Reading → Json → Option α

/-- Reads a value without a limit on its depth, the fields of a variant from an object only. -/
def Decoder.decode {α : Type} (d : Decoder α) (j : Json) : Option α := d ⟨j.depth, false⟩ j

/-! ### Single values -/

/-- A string. -/
def string : Decoder String
  | _, .str s => some s
  | _, _ => none

/-- A truth value. -/
def boolean : Decoder Bool
  | _, .bool b => some b
  | _, _ => none

/-- An integer of 32 bits with a sign. -/
def int32 : Decoder Int
  | _, .int n => if -2147483648 ≤ n && n ≤ 2147483647 then some n else none
  | _, _ => none

/-- A natural number below a bound. -/
def natBelow (bound : Nat) : Decoder Nat
  | _, .int n => if 0 ≤ n && n < bound then some n.toNat else none
  | _, _ => none

/-- A natural number of 32 bits. -/
def word32 : Decoder Nat := natBelow 4294967296

/-- A natural number of 64 bits. -/
def word64 : Decoder Nat := natBelow 18446744073709551616

/-! ### Compound values -/

/-- A list. -/
def list {α : Type} (d : Decoder α) : Decoder (List α)
  | r, .arr items => do items.mapM (d (← r.enter))
  | _, _ => none

/-- A value, or null. -/
def nullable {α : Type} (d : Decoder α) : Decoder (Option α)
  | _, .null => some none
  | r, j => (d r j).map some

/-- A pair as an array of two. -/
def pair {α β : Type} (a : Decoder α) (b : Decoder β) : Decoder (α × β)
  | r, .arr [x, y] => do
    let r ← r.enter
    return (← a r x, ← b r y)
  | _, _ => none

/-- An object from names to values.  Of the values given under one name the last counts. -/
def bindings {α : Type} (d : Decoder α) : Decoder (Bindings α)
  | r, .obj fields => do
    let r ← r.enter
    return .ofList (← fields.mapM fun (name, j) => return (name, ← d r j))
  | _, _ => none

/-- The value of a field among those of an object; `none` if the field is given twice. -/
def uniqueField (fields : List (String × Json)) (name : String) : Option (Option Json) :=
  match fields.filter (·.1 == name) with
  | [] => some none
  | [(_, j)] => some (some j)
  | _ => none

/-- The fields of a record that has the given ones, in that order. -/
def recordFields (names : List String) : Json → Option (List (Option Json))
  | .obj fields => names.mapM (uniqueField fields)
  | .arr items => if items.length = names.length then some (items.map some) else none
  | _ => none

/-- The fields of a record all of which may be left out, the last ones also in an array. -/
def partialFields (names : List String) : Json → Option (List (Option Json))
  | .obj fields => names.mapM (uniqueField fields)
  | .arr items =>
    if items.length ≤ names.length then
      some (items.map some ++ List.replicate (names.length - items.length) none)
    else none
  | _ => none

/-- A record built from its fields. -/
def record {α : Type} (names : List String) (build : Reading → List (Option Json) → Option α) :
    Decoder α := fun r j => do
  build (← r.enter) (← recordFields names j)

/-- The content of a variant built from its fields. -/
def variantFields {α : Type} (names : List String)
    (build : Reading → List (Option Json) → Option α) : Decoder α
  | r, .arr items => if r.tuples then record names build r (.arr items) else none
  | r, j => record names build r j

/-- A field that has to be given. -/
def required {α : Type} (d : Decoder α) (r : Reading) (field : Option Json) : Option α := do
  d r (← field)

/-- A field that may be left out or null. -/
def optional {α : Type} (d : Decoder α) (r : Reading) : Option Json → Option (Option α)
  | none => some none
  | some j => nullable d r j

/-- A field that may be left out and then has a default. -/
def withDefault {α : Type} (default : α) (d : Decoder α) (r : Reading) : Option Json → Option α
  | none => some default
  | some j => d r j

/-- A variant built from its name and content. -/
def variant {α : Type} (build : Reading → String → Option Json → Option α) : Decoder α
  | r, .str name => build r name none
  | r, .obj [(name, content)] => do build (← r.enter) name (some content)
  | _, _ => none

/-- The content of a variant that has none. -/
def noContent {α : Type} (a : α) : Option Json → Option α
  | none => some a
  | some .null => some a
  | some _ => none

/-- One of several values by its name. -/
def oneOf {α : Type} (values : List (String × α)) : Decoder α :=
  variant fun _ name content => do noContent (← values.lookup name) content

/-- The name of one of several values. -/
def nameOf {α : Type} [BEq α] (values : List (String × α)) (a : α) : Json :=
  match values.find? (·.2 == a) with
  | some (name, _) => .str name
  | none => .null

/-- A variant with its content. -/
def tagged (name : String) (content : Json) : Json := .obj [(name, content)]

end Classlet.Codec
