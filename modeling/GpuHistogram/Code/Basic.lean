/-
Programs for a host and a device. Host code allocates arrays and launches kernels; a kernel is run by the threads of a
grid of groups, each group with its own local memory. One language of expressions and statements serves both sides; what
only the host may do is singled out by `Stmt.isHostOnly`.

Every node carries its type where it has one and the origin it is reported under. `Expr.sameAs` is the equality that
ignores both, except where the type is part of the meaning.
-/
import GpuHistogram.Name
import GpuHistogram.Origin
import GpuHistogram.Scalar.Operator
import GpuHistogram.Scalar.Basic

namespace GpuHistogram

/-- where an array lives: on the device, shared by a group, owned by one thread, or in a space not known here -/
inductive Space where
  | device
  | shared
  | own
  | other (qualifier : String)
  deriving DecidableEq, Inhabited

/-- the name of a memory space in printed programs -/
def Space.text : Space → String
  | device => "device"
  | shared => "local"
  | own => "private"
  | other s => s

/-- the axes of a grid, the first varying fastest -/
inductive Axis where
  | x
  | y
  | z
  deriving DecidableEq, Inhabited

namespace Axis

def index : Axis → Nat
  | x => 0
  | y => 1
  | z => 2

def ofIndex? : Nat → Option Axis
  | 0 => some x
  | 1 => some y
  | 2 => some z
  | _ => none

end Axis

/-- the limits of a device that host code may ask for -/
inductive Capability where
  | maxGroupSize
  | maxLocalMemory
  | localMemoryPerThread
  deriving DecidableEq, Inhabited

/-- all limits that host code may ask for -/
def Capability.all : List Capability := [maxGroupSize, maxLocalMemory, localMemoryPerThread]

/-- what a limit is called in printed programs -/
def Capability.title : Capability → String
  | maxGroupSize => "MaxGroupSize"
  | maxLocalMemory => "MaxLocalMemory"
  | localMemoryPerThread => "LocalMemPerThread"

/-- what the threads of a group agree on at a barrier: local memory, or also the writes to global memory -/
inductive BarrierScope where
  | shared
  | device
  deriving DecidableEq, Inhabited

/-- what a scope is called in printed programs -/
def BarrierScope.title : BarrierScope → String
  | shared => "Local"
  | device => "Global"

/-- the type of an expression -/
inductive Ty where
  | scalar (s : Scalar)
  | pointer (s : Scalar) (space : Space)
  deriving DecidableEq, Inhabited

namespace Ty

/-- the type of a scalar expression -/
def scalar? : Ty → Option Scalar
  | scalar s => some s
  | pointer .. => none

/-- the element type, of a pointer the one it points at -/
def elem : Ty → Scalar
  | scalar s => s
  | pointer s _ => s

def isPointer : Ty → Bool
  | scalar _ => false
  | pointer .. => true

/-- indices and sizes -/
def i64 : Ty := scalar .i64

/-- truth values -/
def bool : Ty := scalar .bool

end Ty

/-- what a thread may ask about its place in a launch -/
inductive Place where
  | localId
  | groupId
  | globalId
  | localSize
  | groupCount
  deriving DecidableEq, Inhabited

/-- all that a thread may ask -/
def Place.all : List Place := [localId, groupId, globalId, localSize, groupCount]

/-- what a place is called in printed programs -/
def Place.text : Place → String
  | localId => "local_id"
  | groupId => "group_id"
  | globalId => "global_id"
  | localSize => "local_size"
  | groupCount => "num_groups"

inductive Expr where
  | var (n : Name) (ty : Ty) (o : Origin)
  | bool (b : Bool) (ty : Ty) (o : Origin)
  | int (v : Int) (ty : Ty) (o : Origin)
  /-- a number given by the bits of a double -/
  | float (bits : UInt64) (ty : Ty) (o : Origin)
  | unary (op : Unary) (arg : Expr) (ty : Ty) (o : Origin)
  | binary (op : Binary) (lhs rhs : Expr) (ty : Ty) (o : Origin)
  | select (cond thn els : Expr) (ty : Ty) (o : Origin)
  | access (target idx : Expr) (ty : Ty) (o : Origin)
  /-- a cast to another type -/
  | convert (e : Expr) (ty : Ty)
  /-- the same bits as a value of another type -/
  | bitCast (e : Expr) (ty : Ty)
  | place (p : Place) (axis : Axis) (o : Origin)
  /-- a size chosen when the program is run, on the host -/
  | size (id : String) (o : Origin)
  /-- a limit of the device, on the host -/
  | capability (c : Capability) (o : Origin)
  deriving DecidableEq, Inhabited

namespace Expr

def ty : Expr → Ty
  | var _ ty _ | bool _ ty _ | int _ ty _ | float _ ty _ => ty
  | unary _ _ ty _ | binary _ _ _ ty _ | select _ _ _ ty _ | access _ _ ty _ => ty
  | convert _ ty | bitCast _ ty => ty
  | place .. | size .. | capability .. => .i64

/-- whether an expression has no parts -/
def isLeaf : Expr → Bool
  | unary .. | binary .. | select .. | access .. | convert .. | bitCast .. => false
  | _ => true

/-- the origin of an expression; a cast has that of its operand -/
def origin : Expr → Origin
  | var _ _ o | bool _ _ o | int _ _ o | float _ _ o => o
  | unary _ _ _ o | binary _ _ _ _ o | select _ _ _ _ o | access _ _ _ o => o
  | convert e _ | bitCast e _ => e.origin
  | place _ _ o | size _ o | capability _ o => o

/-- the expression reported under another origin -/
def withOrigin (o : Origin) : Expr → Expr
  | var n ty _ => var n ty o
  | bool b ty _ => bool b ty o
  | int v ty _ => int v ty o
  | float b ty _ => float b ty o
  | unary op arg ty _ => unary op arg ty o
  | binary op l r ty _ => binary op l r ty o
  | select c t e ty _ => select c t e ty o
  | access t i ty _ => access t i ty o
  | convert e ty => convert (e.withOrigin o) ty
  | bitCast e ty => bitCast (e.withOrigin o) ty
  | place p a _ => place p a o
  | size id _ => size id o
  | capability c _ => capability c o

/-- equality up to origins, and up to types except on number literals and casts -/
def sameAs : Expr → Expr → Bool
  | var n _ _, var m _ _ => n = m
  | bool a _ _, bool b _ _ => a = b
  | int v t _, int w u _ => v = w && t = u
  | float x t _, float y u _ => x = y && t = u
  | unary op a _ _, unary op' b _ _ => op = op' && a.sameAs b
  | binary op a b _ _, binary op' c d _ _ => a.sameAs c && op = op' && b.sameAs d
  | select a b c _ _, select d e f _ _ => a.sameAs d && b.sameAs e && c.sameAs f
  | access a b _ _, access c d _ _ => a.sameAs c && b.sameAs d
  | convert a t, convert b u => a.sameAs b && t = u
  | bitCast a t, bitCast b u => a.sameAs b && t = u
  | place p a _, place q b _ => p = q && a = b
  | size a _, size b _ => a = b
  | capability a _, capability b _ => a = b
  | _, _ => false

@[simp] theorem ty_withOrigin (o : Origin) (e : Expr) : (e.withOrigin o).ty = e.ty := by
  cases e <;> rfl

@[simp] theorem origin_withOrigin (o : Origin) (e : Expr) : (e.withOrigin o).origin = o := by
  induction e <;> simp_all [withOrigin, origin]

theorem sameAs_refl (e : Expr) : e.sameAs e = true := by
  induction e <;> simp_all [sameAs]

end Expr

/-- how many elements a block of local memory has: a number, or an expression for the host -/
inductive BlockSize where
  | fixed (n : Int)
  | computed (e : Expr)
  deriving DecidableEq, Inhabited

/-- memory that each group of a launch has for itself while it runs -/
structure LocalBlock where
  name : Name
  elem : Scalar
  size : BlockSize
  deriving DecidableEq, Inhabited

/-- all of a kernel but its body -/
structure LaunchSpec where
  name : Name
  /-- the variables of the host code that the body uses, in their order -/
  captures : List (Name × Ty)
  blocks : List LocalBlock
  /-- the number of groups along each axis -/
  groups : List Expr
  /-- the number of threads of a group along each axis -/
  groupSize : List Expr
  origin : Origin
  deriving DecidableEq, Inhabited

/-- the number of axes of the grid -/
def LaunchSpec.dims (k : LaunchSpec) : Nat :=
  k.groups.length

inductive Stmt where
  | define (ty : Ty) (n : Name) (e : Expr) (o : Origin)
  | assign (dst e : Expr) (o : Origin)
  /-- a loop that sets its variable to `init`, and to `incr` after each round, while `cond` holds -/
  | forLoop (ty : Ty) (n : Name) (init cond incr : Expr) (body : List Stmt) (o : Origin)
  | ifElse (cond : Expr) (thn els : List Stmt) (o : Origin)
  | whileLoop (cond : Expr) (body : List Stmt) (o : Origin)
  | scope (body : List Stmt) (o : Origin)
  | barrier (scope : BarrierScope) (o : Origin)
  | fence (space : Space) (o : Origin)
  /-- update an element in one step; `old` is bound to the element before the update -/
  | atomic (op : Atomic) (space : Space) (s : Scalar) (target : Name) (idx value : Expr) (old : Option Name) (o : Origin)
  /-- store the bits `new` if the element has the bits `cmp`, in one step; `old` is bound to the bits found -/
  | compareSwap (old : Name) (space : Space) (s : Scalar) (target : Name) (idx cmp new : Expr) (o : Origin)
  | alloc (n : Name) (s : Scalar) (count : Expr) (o : Origin)
  | free (n : Name) (o : Origin)
  | copy (dst : Name) (dstOffset : Expr) (src : Name) (srcOffset count : Expr) (o : Origin)
  | fill (n : Name) (offset count value : Expr) (o : Origin)
  /-- let one array name refer to the memory of another -/
  | rebind (dst src : Name) (o : Origin)
  | table (n : Name) (s : Scalar) (values : List Expr) (o : Origin)
  | launch (spec : LaunchSpec) (body : List Stmt) (o : Origin)
  deriving Inhabited

namespace Stmt

/-- whether a statement has no place in a kernel -/
def isHostOnly : Stmt → Bool
  | alloc .. | free .. | copy .. | fill .. | rebind .. | table .. | launch .. => true
  | _ => false

def origin : Stmt → Origin
  | define _ _ _ o | assign _ _ o | forLoop _ _ _ _ _ _ o | ifElse _ _ _ o | whileLoop _ _ o | scope _ o => o
  | barrier _ o | fence _ o | atomic _ _ _ _ _ _ _ o | compareSwap _ _ _ _ _ _ _ o => o
  | alloc _ _ _ o | free _ o | copy _ _ _ _ _ o | fill _ _ _ _ o | rebind _ _ o | table _ _ _ o | launch _ _ o => o

end Stmt

/-- code run by every thread of a grid -/
structure Kernel extends LaunchSpec where
  body : List Stmt
  deriving Inhabited

/-- the statement that launches a kernel -/
def Kernel.toStmt (k : Kernel) (o : Origin) : Stmt :=
  .launch k.toLaunchSpec k.body o

/-- what a size chosen at run time is a size of -/
inductive SizeKind where
  | groupSize
  | groupCount
  deriving DecidableEq, Inhabited

/-- the name of a class of sizes in printed programs -/
def SizeKind.text : SizeKind → String
  | groupSize => "group_size"
  | groupCount => "num_groups"

/-- host code and the sizes it leaves to be chosen at run time, in the order of their names -/
structure Program where
  body : List Stmt := []
  sizes : List (String × SizeKind) := []
  deriving Inhabited

/-- enter a size into a table kept in the order of the names -/
def insertSize (id : String) (c : SizeKind) : List (String × SizeKind) → List (String × SizeKind)
  | [] => [(id, c)]
  | (k, d) :: rest =>
    match compare id k with
    | .lt => (id, c) :: (k, d) :: rest
    | .eq => (id, c) :: rest
    | .gt => (k, d) :: insertSize id c rest

/-- the program with one more size to be chosen -/
def Program.addSize (p : Program) (id : String) (c : SizeKind) : Program :=
  { p with sizes := insertSize id c p.sizes }

mutual

/-- the kernels a statement launches, in the order in which they are written; a kernel launches none -/
def Stmt.kernels : Stmt → List Kernel
  | .launch spec body _ => [⟨spec, body⟩]
  | .forLoop _ _ _ _ _ body _ => blockKernels body
  | .whileLoop _ body _ => blockKernels body
  | .scope body _ => blockKernels body
  | .ifElse _ thn els _ => blockKernels thn ++ blockKernels els
  | _ => []

/-- the kernels a list of statements launches -/
def blockKernels : List Stmt → List Kernel
  | [] => []
  | s :: rest => s.kernels ++ blockKernels rest

end

/-- the kernels a program launches, in the order in which they are written -/
def Program.kernels (p : Program) : List Kernel :=
  blockKernels p.body

end GpuHistogram
