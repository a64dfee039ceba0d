/-
The variables that the body of a kernel takes from the host code. A pass over the body collects each variable that
occurs without being bound by then, with the type it has where it occurs last; the target of an atomic operation is a
pointer. A variable counts as bound from its definition on, and the local memory of the kernel from the start.
-/
import GpuHistogram.Bindings
import GpuHistogram.Code.Children

namespace GpuHistogram

/-- what a pass over a body has met: the variables bound, and those used without being bound -/
structure Occurrences where
  bound : List Name := []
  free : Bindings Ty := ∅
  deriving Inhabited

namespace Occurrences

/-- an occurrence of a variable -/
def use (u : Occurrences) (n : Name) (ty : Ty) : Occurrences :=
  if n ∈ u.bound then u else { u with free := u.free.set n ty }

/-- a definition of a variable -/
def bind (u : Occurrences) (n : Name) : Occurrences :=
  { u with bound := n :: u.bound }

/-- the occurrences in an expression -/
def expr (u : Occurrences) : Expr → Occurrences
  | .var n ty _ => u.use n ty
  | .unary _ e _ _ => u.expr e
  | .binary _ l r _ _ => (u.expr l).expr r
  | .select c t e _ _ => ((u.expr c).expr t).expr e
  | .access t i _ _ => (u.expr t).expr i
  | .convert e _ => u.expr e
  | .bitCast e _ => u.expr e
  | _ => u

mutual

/-- the occurrences and definitions in a statement -/
def stmt (u : Occurrences) : Stmt → Occurrences
  | .define _ n e _ => (u.expr e).bind n
  | .forLoop _ n init cond incr body _ => ((((u.expr init).bind n).expr cond).expr incr).stmts body
  | .atomic _ space s target idx value old _ =>
    let u := ((u.use target (.pointer s space)).expr idx).expr value
    match old with
    | some n => u.bind n
    | none => u
  | .compareSwap old space s target idx cmp new _ =>
    ((((u.use target (.pointer s space)).expr idx).expr cmp).expr new).bind old
  | .ifElse c thn els _ => ((u.expr c).stmts thn).stmts els
  | .whileLoop c body _ => (u.expr c).stmts body
  | .scope body _ => u.stmts body
  | s => Id.run (s.foldExprs (fun u e => pure (u.expr e)) u)

/-- the occurrences and definitions in statements, from the first to the last -/
def stmts (u : Occurrences) : List Stmt → Occurrences
  | [] => u
  | s :: rest => (u.stmt s).stmts rest

end

attribute [grind =] expr stmt stmts

/-- before a body with the given local memory -/
def start (blocks : List LocalBlock) : Occurrences :=
  blocks.foldl (fun u b => u.bind b.name) {}

end Occurrences

/-- the variables a body uses but does not bind, in their order -/
def freeVariables (body : List Stmt) (blocks : List LocalBlock) : List (Name × Ty) :=
  ((Occurrences.start blocks).stmts body).free.sorted

/-- a kernel that captures what its body uses -/
def Kernel.make (name : Name) (body : List Stmt) (blocks : List LocalBlock) (groups groupSize : List Expr) (o : Origin) :
    Kernel where
  name := name
  captures := freeVariables body blocks
  blocks := blocks
  groups := groups
  groupSize := groupSize
  origin := o
  body := body

end GpuHistogram
