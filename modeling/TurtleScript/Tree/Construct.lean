import TurtleScript.Tree.Expr

/-!
# Trees written by hand

Constructors without source ranges, for trees that come from code and not from a
document.
-/
namespace TurtleScript.Expr

def number (value : Double) : Expr := constant {} (.number value)

def string (value : String) : Expr := constant {} (.string value)

def boolean (value : Bool) : Expr := constant {} (.boolean value)

def ident (name : String) : Expr := var {} name none

/-- A declaration with any type expression. -/
def declareAs (type : Expr) (name : String) : Expr := var {} name (some type)

/-- A scalar declaration such as `number x`. -/
def declare (keyword name : String) : Expr := declareAs (ident keyword) name

/-- An array declaration such as `number[] xs`. -/
def declareArray (keyword name : String) : Expr :=
  declareAs (element {} (ident keyword) none) name

def operate (op : BinaryOp) (left right : Expr) : Expr := binary {} op left right

def assign (target value : Expr) : Expr := operate .assign target value

end TurtleScript.Expr
