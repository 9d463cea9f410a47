import Classlet.Json.Value

/-!
# Reading JSON

A reader for JSON texts.  Numbers have no superfluous zeros, strings no raw control characters, and
nothing but blanks stands around a value.
-/

namespace Classlet.Json

/-- The text without the blanks at its start. -/
def skipBlanks (cs : List Char) : List Char :=
  cs.dropWhile fun c => c = ' ' || c = '\t' || c = '\n' || c = '\x0d'

/-! ### Strings -/

/-- The value of a hexadecimal digit. -/
def hexValue? (c : Char) : Option Nat :=
  if '0' ≤ c && c ≤ '9' then some (c.toNat - '0'.toNat)
  else if 'a' ≤ c && c ≤ 'f' then some (c.toNat - 'a'.toNat + 10)
  else if 'A' ≤ c && c ≤ 'F' then some (c.toNat - 'A'.toNat + 10)
  else none

/-- The number of four hexadecimal digits. -/
def hexNumber? (a b c d : Char) : Option Nat := do
  return (((← hexValue? a) * 16 + (← hexValue? b)) * 16 + (← hexValue? c)) * 16 + (← hexValue? d)

/-- The character of an escape that consists of one letter. -/
def simpleEscape? (c : Char) : Option Char :=
  if c = '"' then some '"'
  else if c = '\\' then some '\\'
  else if c = '/' then some '/'
  else if c = 'b' then some '\x08'
  else if c = 'f' then some '\x0c'
  else if c = 'n' then some '\n'
  else if c = 'r' then some '\x0d'
  else if c = 't' then some '\t'
  else none

/-- The first half of a pair that denotes one character. -/
def isLeading (n : Nat) : Bool := 0xD800 ≤ n && n < 0xDC00

/-- The second half of such a pair. -/
def isTrailing (n : Nat) : Bool := 0xDC00 ≤ n && n < 0xE000

/-- The second half of a pair at the start of a text. -/
def trailing? : List Char → Option Nat
  | '\\' :: 'u' :: a :: b :: c :: d :: _ => do
    let n ← hexNumber? a b c d
    if isTrailing n then some n else none
  | _ => none

/-- The characters a string denotes, up to its closing quote, and the text after that.  `before`
holds the characters before these, the last one first.  Half a pair denotes nothing, and then there
are no characters to return. -/
def stringBody : Nat → Option (List Char) → List Char → Option (Option (List Char) × List Char)
  | 0, _, _ => none
  | _ + 1, _, [] => none
  | _ + 1, before, '"' :: rest => some (before.map List.reverse, rest)
  | fuel + 1, before, '\\' :: 'u' :: a :: b :: c :: d :: rest => do
    let n ← hexNumber? a b c d
    if isLeading n then
      match trailing? rest with
      | some m =>
        let code := 0x10000 + (n - 0xD800) * 0x400 + (m - 0xDC00)
        stringBody fuel (before.map (Char.ofNat code :: ·)) (rest.drop 6)
      | none => stringBody fuel none rest
    else if isTrailing n then stringBody fuel none rest
    else stringBody fuel (before.map (Char.ofNat n :: ·)) rest
  | fuel + 1, before, '\\' :: c :: rest => do
    let char ← simpleEscape? c
    stringBody fuel (before.map (char :: ·)) rest
  | fuel + 1, before, c :: rest =>
    if c.toNat < 32 then none else stringBody fuel (before.map (c :: ·)) rest

/-- What stands in a text before what is left of it. -/
def written (cs rest : List Char) : String := String.ofList (cs.take (cs.length - rest.length))

/-- A string after its opening quote, and the text after it. -/
def stringValue (fuel : Nat) (cs : List Char) : Option (Json × List Char) := do
  let (chars, rest) ← stringBody fuel (some []) cs
  match chars with
  | some chars => return (str (String.ofList chars), rest)
  | none => return (garbled ("\"" ++ written cs rest), rest)

/-! ### Numbers -/

/-- Decimal digits at the start of a text, and the text after them. -/
def digits (cs : List Char) : List Char × List Char := cs.span Char.isDigit

/-- The number that decimal digits denote. -/
def digitsValue (cs : List Char) : Nat :=
  cs.foldl (fun n c => n * 10 + (c.toNat - '0'.toNat)) 0

/-- Decimal digits at the start of a text, at least one, and the text after them. -/
def someDigits (cs : List Char) : Option (List Char × List Char) :=
  match digits cs with
  | ([], _) => none
  | found => some found

/-- The digits before the point: a zero alone, or digits that start with another. -/
def wholePart : List Char → Option (List Char × List Char)
  | '0' :: rest => some (['0'], rest)
  | cs => someDigits cs

/-- The text after an optional point and the digits behind it. -/
def afterFraction : List Char → Option (List Char)
  | '.' :: rest => (someDigits rest).map (·.2)
  | cs => some cs

/-- The text after an optional exponent. -/
def afterExponent : List Char → Option (List Char)
  | [] => some []
  | c :: rest =>
    if c = 'e' || c = 'E' then
      match rest with
      | '+' :: more => (someDigits more).map (·.2)
      | '-' :: more => (someDigits more).map (·.2)
      | more => (someDigits more).map (·.2)
    else some (c :: rest)

/-- A fraction or an exponent stands at the start of a text. -/
def startsDecimals : List Char → Bool
  | [] => false
  | c :: _ => c = '.' || c = 'e' || c = 'E'

/-- A number, and the text after it. -/
def numberValue (cs : List Char) : Option (Json × List Char) := do
  let (negative, unsigned) := match cs with
    | '-' :: rest => (true, rest)
    | _ => (false, cs)
  let (whole, afterWhole) ← wholePart unsigned
  let rest ← afterExponent (← afterFraction afterWhole)
  if startsDecimals afterWhole || (negative && whole = ['0']) then
    return (decimal (written cs rest), rest)
  else if negative then return (int (-(digitsValue whole : Int)), rest)
  else return (int (digitsValue whole), rest)

/-! ### Values -/

mutual

/-- A value, and the text after it. -/
def value : Nat → List Char → Option (Json × List Char)
  | 0, _ => none
  | fuel + 1, cs =>
    match skipBlanks cs with
    | 'n' :: 'u' :: 'l' :: 'l' :: rest => some (null, rest)
    | 't' :: 'r' :: 'u' :: 'e' :: rest => some (bool true, rest)
    | 'f' :: 'a' :: 'l' :: 's' :: 'e' :: rest => some (bool false, rest)
    | '"' :: rest => stringValue fuel rest
    | '[' :: rest =>
      match skipBlanks rest with
      | ']' :: rest => some (arr [], rest)
      | rest => itemValues fuel [] rest
    | '\x7b' :: rest =>
      match skipBlanks rest with
      | '\x7d' :: rest => some (obj [], rest)
      | inside => do
        let (fields, after) ← fieldValues fuel (some []) inside
        match fields with
        | some fields => return (obj fields, after)
        | none => return (garbled ("\x7b" ++ written rest after), after)
    | rest => numberValue rest

/-- The array of the items up to the closing bracket, and the text after that.  `before` holds the
items before these, the last one first. -/
def itemValues : Nat → List Json → List Char → Option (Json × List Char)
  | 0, _, _ => none
  | fuel + 1, before, cs => do
    let (item, rest) ← value fuel cs
    match skipBlanks rest with
    | ',' :: rest => itemValues fuel (item :: before) rest
    | ']' :: rest => return (arr (item :: before).reverse, rest)
    | _ => none

/-- The fields of an object up to its closing brace, and the text after that.  `before` holds the
fields before these, the last one first.  Where a name denotes no text there are no fields to
return. -/
def fieldValues : Nat → Option (List (String × Json)) → List Char →
    Option (Option (List (String × Json)) × List Char)
  | 0, _, _ => none
  | fuel + 1, before, cs =>
    match skipBlanks cs with
    | '"' :: rest => do
      let (name, rest) ← stringBody fuel (some []) rest
      match skipBlanks rest with
      | ':' :: rest =>
        let (field, rest) ← value fuel rest
        let fields := do return (String.ofList (← name), field) :: (← before)
        match skipBlanks rest with
        | ',' :: rest => fieldValues fuel fields rest
        | '\x7d' :: rest => return (fields.map List.reverse, rest)
        | _ => none
      | _ => none
    | _ => none

end

/-- The value of a JSON text.  Every step of the reader takes a character, so the length of the text
is depth enough. -/
def parse (text : String) : Option Json := do
  let cs := text.toList
  let (j, rest) ← value (cs.length + 1) cs
  if (skipBlanks rest).isEmpty then return j else none

end Classlet.Json
