/-!
# Names

The little work on names that the language needs: cutting a dotted name into its segments, stripping
the quotes from a segment, finding repeated names and showing a name in a message.
-/

namespace Classlet.Text

/-- The parts of a text between occurrences of `sep`; one part more than there are occurrences. -/
def splitChars (sep : Char) : List Char → List (List Char)
  | [] => [[]]
  | c :: rest =>
    if c = sep then [] :: splitChars sep rest
    else
      match splitChars sep rest with
      | [] => [[c]]
      | part :: parts => (c :: part) :: parts

/-- Even the empty text has a part. -/
theorem splitChars_ne_nil (sep : Char) (s : List Char) : splitChars sep s ≠ [] := by
  cases s with
  | nil => simp [splitChars]
  | cons c rest =>
    rw [splitChars]
    split
    · simp
    · split <;> simp

/-- The segments of a dotted name. -/
def segments (s : String) : List String := (splitChars '.' s.toList).map String.ofList

/-- What follows the last dot of a name, or the name itself. -/
def lastSegment (s : String) : String := (segments s).getLast?.getD ""

/-- A text without the double quotes at its ends. -/
def trimQuotes (s : String) : String :=
  let front := s.toList.dropWhile (· = '"')
  String.ofList (front.reverse.dropWhile (· = '"')).reverse

/-- The names that occur more than once, each where it occurs for the second time.  `seen` holds
what came before. -/
def repeated : List String → List String → List String
  | _, [] => []
  | seen, name :: rest =>
    let others := repeated (name :: seen) rest
    if seen.count name = 1 then name :: others else others

/-- A text between grave accents, as messages show names and types. -/
def quoted (s : String) : String := "`" ++ s ++ "`"

end Classlet.Text
