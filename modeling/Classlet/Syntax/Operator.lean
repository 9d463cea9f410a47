/-!
# Operators

The binary and unary operators of the language, their written symbols, and the four families the
binary ones fall into.
-/

namespace Classlet

/-- A binary operator. -/
inductive BinaryOp where
  | add | sub | mul | div
  | lt | gt | le | ge
  | eq | ne
  | and | or
  deriving DecidableEq, Inhabited

/-- A unary operator. -/
inductive UnaryOp where
  | not | neg
  deriving DecidableEq, Inhabited

namespace BinaryOp

/-- The operator as it is written in a program. -/
def symbol : BinaryOp → String
  | add => "+"
  | sub => "-"
  | mul => "*"
  | div => "/"
  | lt => "<"
  | gt => ">"
  | le => "<="
  | ge => ">="
  | eq => "=="
  | ne => "!="
  | and => "&&"
  | or => "||"

/-- `+ - * /`, from integers to an integer. -/
def isArithmetic : BinaryOp → Bool
  | add | sub | mul | div => true
  | _ => false

/-- `< > <= >=`, from integers to a truth value. -/
def isRelational : BinaryOp → Bool
  | lt | gt | le | ge => true
  | _ => false

/-- `== !=`, between operands of one type. -/
def isEquality : BinaryOp → Bool
  | eq | ne => true
  | _ => false

/-- `&& ||`, between truth values. -/
def isLogical : BinaryOp → Bool
  | and | or => true
  | _ => false

end BinaryOp

/-- The operator as it is written in a program. -/
def UnaryOp.symbol : UnaryOp → String
  | .not => "!"
  | .neg => "-"

end Classlet
