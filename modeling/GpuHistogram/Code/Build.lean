/-
Writing code. The arithmetic operators on expressions build the node with the type of the left operand, comparisons and
logical operators build a truth value, and a numeral is a 64-bit literal. The loops built here run a 64-bit variable up
to a bound.
-/
import GpuHistogram.Code.Basic

namespace GpuHistogram

namespace Expr

/-- an operator node; its type is that of the left operand, or a truth value -/
def op2 (op : Binary) (l r : Expr) : Expr :=
  .binary op l r (if op.isComparison || op.isLogical then .bool else l.ty) .unknown

/-- an operator node; its type is that of the operand, or a truth value -/
def op1 (op : Unary) (e : Expr) : Expr :=
  .unary op e (if op = .not then .bool else e.ty) .unknown

instance : Add Expr := ⟨op2 .add⟩

instance : Sub Expr := ⟨op2 .sub⟩

instance : Mul Expr := ⟨op2 .mul⟩

instance : Div Expr := ⟨op2 .div⟩

instance : Mod Expr := ⟨op2 .rem⟩

/-- an integer literal -/
def literal (v : Int) (s : Scalar) : Expr := .int v (.scalar s) .unknown

/-- a 64-bit literal -/
def i64 (v : Int) : Expr := literal v .i64

instance (n : Nat) : OfNat Expr n := ⟨i64 n⟩

/-- a truth value -/
def truth (b : Bool) : Expr := .bool b .bool .unknown

/-- a variable of a type -/
def typed (n : Name) (ty : Ty) : Expr := .var n ty .unknown

/-- a scalar variable -/
def scalarVar (n : Name) (s : Scalar) : Expr := typed n (.scalar s)

/-- a 64-bit variable -/
def ofName (n : Name) : Expr := typed n .i64

/-- an element of a named array -/
def element (n : Name) (s : Scalar) (space : Space) (idx : Expr) : Expr :=
  .access (typed n (.pointer s space)) idx (.scalar s) .unknown

/-- a cast to a scalar type -/
def cast (e : Expr) (s : Scalar) : Expr := .convert e (.scalar s)

/-- a cast to a scalar type, left out if the expression has that type -/
def castIfNeeded (e : Expr) (s : Scalar) : Expr :=
  if e.ty = .scalar s then e else e.cast s

/-- the same bits as a scalar of another type -/
def sameBits (e : Expr) (s : Scalar) : Expr := .bitCast e (.scalar s)

/-- the quotient rounded up -/
def ceilDiv (l r : Expr) : Expr := (l + r - 1) / r

def max (l r : Expr) : Expr := op2 .max l r

def lt (l r : Expr) : Expr := op2 .lt l r

def le (l r : Expr) : Expr := op2 .le l r

def ge (l r : Expr) : Expr := op2 .ge l r

def gt (l r : Expr) : Expr := op2 .gt l r

def eq (l r : Expr) : Expr := op2 .eq l r

def ne (l r : Expr) : Expr := op2 .ne l r

def and (l r : Expr) : Expr := op2 .and l r

def not (e : Expr) : Expr := op1 .not e

/-- the product from left to right, 1 if there is nothing to multiply -/
def product : List Expr → Expr
  | [] => 1
  | e :: rest => rest.foldl (· * ·) e

/-- the sum from left to right, 0 if there is nothing to add -/
def sum : List Expr → Expr
  | [] => 0
  | e :: rest => rest.foldl (· + ·) e

/-- a conditional; its type is that of the first branch -/
def ite (c t e : Expr) : Expr := .select c t e t.ty .unknown

/-- what a thread asks about its place -/
def atPlace (p : Place) (axis : Axis) : Expr := .place p axis .unknown

/-- the number of threads of the group -/
def localSize : Expr := .place .localSize .x .unknown

end Expr

namespace Stmt

/-- a new variable with the type of its value -/
def bind (n : Name) (e : Expr) : Stmt := .define e.ty n e .unknown

/-- store a value -/
def store (dst e : Expr) : Stmt := .assign dst e .unknown

/-- give a variable a value of its type -/
def update (n : Name) (e : Expr) : Stmt := store (.typed n e.ty) e

/-- a loop of a 64-bit variable from `init` up to `bound` -/
def countBy (n : Name) (init bound step : Expr) (body : List Stmt) : Stmt :=
  .forLoop .i64 n init ((Expr.ofName n).lt bound) (.ofName n + step) body .unknown

/-- a loop of a 64-bit variable over all numbers from `init` up to `bound` -/
def count (n : Name) (init bound : Expr) (body : List Stmt) : Stmt :=
  countBy n init bound 1 body

/-- run statements if a condition holds -/
def ifThen (c : Expr) (thn : List Stmt) : Stmt := .ifElse c thn [] .unknown

/-- statements with variables of their own -/
def block (body : List Stmt) : Stmt := .scope body .unknown

end Stmt

end GpuHistogram
