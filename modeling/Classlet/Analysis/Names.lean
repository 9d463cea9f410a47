import Classlet.Analysis.Pass

/-!
# Names

Every name that is read or assigned has to be declared, a static method has neither a receiver nor
fields, and an import is written once.
-/

namespace Classlet.Names

/-- The wording for the use of a field in a static method. -/
def fieldInStatic (name : String) : String :=
  "Field " ++ Text.quoted name ++ " cannot be used in a static method"

/-- The wording for the use of the receiver in a static method. -/
def thisInStatic : String := "`this` cannot be used in a static method"

/-- What is wrong with reading a name, if anything. -/
def readError? (scope : Scope) (name : String) : Option String :=
  match scope.resolve name with
  | some .this => if scope.inStatic then some thisInStatic else none
  | some (.bound .field _) => if scope.inStatic then some (fieldInStatic name) else none
  | some _ => none
  | none => some ("Variable " ++ Text.quoted name ++ " is not declared")

/-- What is wrong with assigning to a name, if anything. -/
def assignError? (scope : Scope) (name : String) : Option String :=
  match scope.resolve name with
  | some (.bound .field _) => if scope.inStatic then some (fieldInStatic name) else none
  | some (.bound _ _) => none
  | _ => some ("Assignment target " ++ Text.quoted name ++ " is not declared")

/-- Every name that is read or assigned stands for something usable. -/
def undeclaredPass : Pass where
  name := "undeclared-variable"
  visit _ scope s := do
    match ← Check.lift s.kind with
    | .varRef name => Check.errors s (readError? scope name).toList
    | .this => Check.errors s (if scope.inStatic then [thisInStatic] else [])
    | .assign target | .arrayAssign target => Check.errors s (assignError? scope target).toList
    | _ => pure ()

/-- Every import is written once. -/
def importPass : Pass where
  name := "import"
  visit _ _ _ := pure ()
  finish scope := ⟨(Text.repeated [] scope.table.imports).map fun name =>
    ⟨.unknown, "Duplicate import " ++ Text.quoted name⟩, .ok ()⟩

end Classlet.Names
