/-
The language that device compilers read: a small part of C with address spaces. It is one language for both targets; what
differs is which qualifiers occur in a type and how a kernel is marked. Every expression carries its type.
-/
import GpuHistogram.Name
import GpuHistogram.Scalar.Basic
import GpuHistogram.Scalar.Operator

namespace GpuHistogram

/-- whose device compiler the text is for -/
inductive Target where
  | openCL
  | cuda
  deriving DecidableEq, Inhabited

namespace Source

/-- the address space written in front of a type -/
inductive Qualifier where
  | unqualified
  | global
  /-- the memory of a group in OpenCL -/
  | group
  /-- the memory of a group in CUDA -/
  | shared
  deriving DecidableEq, Inhabited

inductive Ty where
  | void
  | scalar (s : Scalar)
  | pointer (s : Scalar) (q : Qualifier)
  deriving DecidableEq, Inhabited

/-- the type of a scalar expression -/
def Ty.scalar? : Ty → Option Scalar
  | scalar s => some s
  | _ => none

/-- indices and sizes -/
def Ty.i64 : Ty := .scalar .i64

inductive Expr where
  | var (n : Name) (ty : Ty)
  | bool (b : Bool) (ty : Ty)
  | int (v : Int) (ty : Ty)
  /-- a number given by the bits of a double -/
  | float (bits : UInt64) (ty : Ty)
  | unary (op : Unary) (arg : Expr) (ty : Ty)
  | binary (op : Binary) (lhs rhs : Expr) (ty : Ty)
  | ternary (cond thn els : Expr) (ty : Ty)
  | access (target idx : Expr) (ty : Ty)
  | addressOf (e : Expr) (ty : Ty)
  | convert (e : Expr) (ty : Ty)
  /-- a call of a function of the language or of the prelude -/
  | call (id : String) (args : List Expr) (ty : Ty)
  deriving Inhabited

namespace Expr

def ty : Expr → Ty
  | var _ ty | bool _ ty | int _ ty | float _ ty | unary _ _ ty | binary _ _ _ ty | ternary _ _ _ ty => ty
  | access _ _ ty | addressOf _ ty | convert _ ty | call _ _ ty => ty

/-- whether an expression needs no parentheses under a prefix operator -/
def isLeaf : Expr → Bool
  | var .. | bool .. | int .. | float .. | access .. | call .. => true
  | _ => false

end Expr

inductive Stmt where
  | define (ty : Ty) (n : Name) (e : Expr)
  | assign (dst e : Expr)
  /-- a loop that sets its variable to `init`, and to `incr` after each round, while `cond` holds -/
  | forLoop (ty : Ty) (n : Name) (init cond incr : Expr) (body : List Stmt)
  | ifElse (cond : Expr) (thn els : List Stmt)
  | whileLoop (cond : Expr) (body : List Stmt)
  | scope (body : List Stmt)
  | expr (e : Expr)
  /-- an array in the memory of a group -/
  | localArray (n : Name) (s : Scalar) (size : Int) (q : Qualifier)
  /-- the block of bytes in the memory of a group whose size the launch decides -/
  | externShared (n : Name)
  deriving Inhabited

/-- a parameter of a kernel -/
structure Param where
  name : Name
  ty : Ty
  deriving DecidableEq, Inhabited

/-- a function that the host launches -/
structure Kernel where
  target : Target
  name : Name
  params : List Param
  body : List Stmt
  deriving Inhabited

end Source

end GpuHistogram
