/-
From kernels to the language of device compilers. Memory spaces become qualifiers, what a thread asks about its place
becomes a call, and mathematical functions, casts of bits and atomic operations become calls of helpers, which are recorded
on the way; what was recorded stays when the lowering fails.

A kernel on a grid of three axes is launched in CUDA with its axes exchanged, since the second and third axis are short
there: it takes the physical place of each axis in three more parameters. Local memory whose size the host decides is a
parameter in OpenCL; in CUDA it is a part of one block of bytes, at an offset that is a parameter.
-/
import GpuHistogram.Code.Basic
import GpuHistogram.Source.Basic
import GpuHistogram.Source.Features

namespace GpuHistogram

/-- why a kernel has no text -/
inductive LoweringError where
  | unknownSpace (qualifier : String)
  | ownAtomic
  | nonScalar (f : Source.MathFunction)
  | notFloat (f : Source.MathFunction) (s : Scalar)
  | castChangesSize (source target : Scalar)
  | size (id : String)
  | capability (c : Capability)
  | hostStatement
  deriving DecidableEq

namespace LoweringError

/-- the text of a cause -/
def message : LoweringError → String
  | unknownSpace q => s!"Unknown memory space qualifier {q}"
  | ownAtomic => "Atomic operations on private memory are not supported"
  | nonScalar f => s!"Intrinsic {f.text} applied to a non-scalar value"
  | notFloat f s => s!"Intrinsic {f.text} requires a floating-point argument, found {s.text}"
  | castChangesSize source target => s!"Bit cast from {source.text} to {target.text} changes the size of the value"
  | size id => s!"Found size parameter {id} in device code"
  | capability c => s!"Found query of device capability {c.title} in device code"
  | hostStatement => "Found host-level statement in kernel code"

/-- how a cause is reported -/
def report (u : Located LoweringError) : Diagnostic :=
  ⟨.internal, u.origin.annotate u.cause.message⟩

end LoweringError

/-- a computation that records what is used of the prelude, also when it fails -/
abbrev Lowering := EStateM (Located LoweringError) Source.Features

namespace Lowering

/-- there is no text for something -/
def refuse {α : Type} (o : Origin) (cause : LoweringError) : Lowering α :=
  throw ⟨cause, o⟩

/-- the result of a look-up, if there is one -/
def ofExcept {α : Type} (o : Origin) : Except LoweringError α → Lowering α
  | .ok a => return a
  | .error cause => refuse o cause

/-- a type is used -/
def useType (s : Scalar) : Lowering Unit :=
  modify (·.useType s)

/-- a scalar type, which is used -/
def scalarTy (s : Scalar) : Lowering Source.Ty := do
  useType s
  return .scalar s

/-- a helper is used -/
def useHelper (h : Source.Helper) : Lowering Unit :=
  modify (·.useHelper h)

end Lowering

open Lowering (useType scalarTy useHelper refuse ofExcept)

/-- whether kernels on so many axes have their axes exchanged -/
def Target.permutes (t : Target) (dims : Nat) : Bool :=
  t = .cuda && dims = 3

/-- the parameters for the physical place of each axis -/
def axisParams : List Name :=
  [.plain "block_dim0", .plain "block_dim1", .plain "block_dim2"]

/-- what a kernel is lowered for -/
structure LoweringContext where
  target : Target
  /-- whether the axes of the grid are exchanged -/
  permuted : Bool
  deriving DecidableEq, Inhabited

/-- the qualifier of a memory space -/
def Space.qualifier (t : Target) : Space → Except LoweringError Source.Qualifier
  | .device => .ok (match t with
    | .openCL => .global
    | .cuda => .unqualified)
  | .shared => .ok (match t with
    | .openCL => .group
    | .cuda => .unqualified)
  | .own => .ok .unqualified
  | .other q => .error (.unknownSpace q)

/-- the memory space of an atomic operation -/
def Space.atomicSpace : Space → Except LoweringError Source.AtomicSpace
  | .device => .ok .global
  | .shared => .ok .group
  | .own => .error .ownAtomic
  | .other q => .error (.unknownSpace q)

/-- lower a type -/
def Ty.toSource (t : Target) (o : Origin) : Ty → Lowering Source.Ty
  | .scalar s => scalarTy s
  | .pointer s space => do
    useType s
    return .pointer s (← ofExcept o (space.qualifier t))

/-- the function that answers a question about the place of a thread -/
def Place.function : Place → String
  | .localId => "get_local_id"
  | .groupId => "get_group_id"
  | .globalId => "get_global_id"
  | .localSize => "get_local_size"
  | .groupCount => "get_num_groups"

/-- whether the answer depends on how the axes of the grid are exchanged -/
def Place.dependsOnGrid : Place → Bool
  | .groupId | .globalId | .groupCount => true
  | .localId | .localSize => false

/-- the call that asks about the place of a thread -/
def Place.call (c : LoweringContext) (p : Place) (axis : Axis) : Source.Expr :=
  let d := Source.Expr.int axis.index (.scalar .i32)
  if c.permuted && p.dependsOnGrid then
    .call (p.function ++ "_fn") (axisParams.map (Source.Expr.var · .i64) ++ [d]) .i64
  else .call p.function [d] .i64

/-- the mathematical function that an operator of one operand is -/
def Unary.mathFunction? : Unary → Option Source.MathFunction
  | .abs => some .abs
  | .exp => some .exp
  | .log => some .log
  | .sqrt => some .sqrt
  | .neg | .not | .bitNeg => none

/-- the mathematical function that an operator of two operands is -/
def Binary.mathFunction? : Binary → Option Source.MathFunction
  | .max => some .max
  | .min => some .min
  | _ => none

/-- the call of a helper -/
def Source.Helper.call (h : Source.Helper) (args : List Source.Expr) (ty : Source.Ty) : Source.Expr :=
  .call h.name args ty

/-- the call of a mathematical function -/
def callMath (o : Origin) (f : Source.MathFunction) (args : List Source.Expr) (ty : Source.Ty) : Lowering Source.Expr :=
  match ty.scalar? with
  | none => refuse o (.nonScalar f)
  | some s => do
    if f.needsFloat && !s.isFloat then refuse o (.notFloat f s)
    useHelper (.math f s)
    return (Source.Helper.math f s).call args ty

/-- lower an expression -/
def Expr.toSource (c : LoweringContext) : Expr → Lowering Source.Expr
  | .var n ty o => return .var n (← ty.toSource c.target o)
  | .bool b ty o => return .bool b (← ty.toSource c.target o)
  | .int v ty o => return .int v (← ty.toSource c.target o)
  | .float b ty o => return .float b (← ty.toSource c.target o)
  | .unary op arg ty o => do
    let ty ← ty.toSource c.target o
    let a ← arg.toSource c
    match op.mathFunction? with
    | some f => callMath o f [a] ty
    | none => return .unary op a ty
  | .binary op lhs rhs ty o => do
    let ty ← ty.toSource c.target o
    let l ← lhs.toSource c
    let r ← rhs.toSource c
    match op.mathFunction? with
    | some f => callMath o f [l, r] ty
    | none => return .binary op l r ty
  | .select cond thn els ty o => do
    let ty ← ty.toSource c.target o
    let b ← cond.toSource c
    let t ← thn.toSource c
    let e ← els.toSource c
    return .ternary b t e ty
  | .access target idx ty o => do
    let ty ← ty.toSource c.target o
    let t ← target.toSource c
    let i ← idx.toSource c
    return .access t i ty
  | .convert e ty => do
    let ty ← ty.toSource c.target e.origin
    return .convert (← e.toSource c) ty
  | .bitCast e ty => do
    let ty ← ty.toSource c.target e.origin
    let source := e.ty.elem
    let target := ty.scalar?.getD source
    if source.bytes ≠ target.bytes then refuse e.origin (.castChangesSize source target)
    let a ← e.toSource c
    useHelper (.bitCast source target)
    return (Source.Helper.bitCast source target).call [a] ty
  | .place p axis _ => do
    useType .i64
    return p.call c axis
  | .size id o => do
    useType .i64
    refuse o (.size id)
  | .capability q o => do
    useType .i64
    refuse o (.capability q)

/-- the address of an element of an array -/
def addressOfElement (c : LoweringContext) (space : Space) (s : Scalar) (target : Name) (idx : Expr) (o : Origin) :
    Lowering Source.Expr := do
  let ty := Source.Ty.pointer s (← ofExcept o (space.qualifier c.target))
  let i ← idx.toSource c
  let elem := Source.Expr.access (.var target ty) i (← scalarTy s)
  return .addressOf elem ty

/-- the pointer type with another element type -/
def Source.Ty.withElem (s : Scalar) : Source.Ty → Source.Ty
  | .pointer _ q => .pointer s q
  | ty => ty

/-- an address as a pointer to elements of another type -/
def addressAs (s : Scalar) (e : Source.Expr) : Source.Expr :=
  let ty := e.ty.withElem s
  if e.ty = ty then e else .convert e ty

/-- a statement that calls a function of no arguments -/
def callStmt (id : String) : Source.Stmt :=
  .expr (.call id [] .void)

/-- the function that waits at a barrier -/
def BarrierScope.function : BarrierScope → String
  | .shared => "barrier_local"
  | .device => "barrier_global"

/-- the function that orders accesses to memory -/
def Source.AtomicSpace.fenceFunction : Source.AtomicSpace → String
  | .global => "mem_fence_global"
  | .group => "mem_fence_local"

/-- an expression whose value is bound if it has a name -/
def bindResult (ty : Source.Ty) (old : Option Name) (e : Source.Expr) : Source.Stmt :=
  match old with
  | some n => .define ty n e
  | none => .expr e

mutual

/-- lower a statement -/
def Stmt.toSource (c : LoweringContext) : Stmt → Lowering Source.Stmt
  | .define ty n e o => do
    let ty ← ty.toSource c.target o
    return .define ty n (← e.toSource c)
  | .assign dst e _ => do
    let d ← dst.toSource c
    return .assign d (← e.toSource c)
  | .forLoop ty n init cond incr body o => do
    let ty ← ty.toSource c.target o
    let init ← init.toSource c
    let cond ← cond.toSource c
    let incr ← incr.toSource c
    return .forLoop ty n init cond incr (← blockToSource c body)
  | .ifElse cond thn els _ => do
    let b ← cond.toSource c
    let t ← blockToSource c thn
    return .ifElse b t (← blockToSource c els)
  | .whileLoop cond body _ => do
    let b ← cond.toSource c
    return .whileLoop b (← blockToSource c body)
  | .scope body _ => return .scope (← blockToSource c body)
  | .barrier scope _ => return callStmt scope.function
  | .fence space o => return callStmt (← ofExcept o space.atomicSpace).fenceFunction
  | .atomic op space s target idx value old o => do
    let helper := Source.Helper.atomic (.update op) s (← ofExcept o space.atomicSpace)
    useHelper helper
    let addr ← addressOfElement c space s target idx o
    let v ← value.toSource c
    let ty ← scalarTy s
    return bindResult ty old (helper.call [addr, v] ty)
  | .compareSwap old space s target idx cmp new o => do
    let helper := Source.Helper.atomic .compareSwap s.bitPattern (← ofExcept o space.atomicSpace)
    useHelper helper
    let addr ← addressOfElement c space s target idx o
    let cmp ← cmp.toSource c
    let new ← new.toSource c
    let ty ← scalarTy s.bitPattern
    return .define ty old (helper.call [addressAs s.bitPattern addr, cmp, new] ty)
  | .alloc _ _ _ o | .free _ o | .copy _ _ _ _ _ o | .fill _ _ _ _ o | .rebind _ _ o | .table _ _ _ o
  | .launch _ _ o => refuse o .hostStatement

/-- lower statements from the first to the last -/
def blockToSource (c : LoweringContext) : List Stmt → Lowering (List Source.Stmt)
  | [] => return []
  | s :: rest => do
    let t ← s.toSource c
    return t :: (← blockToSource c rest)

end

/-- lower a captured variable to a parameter; a truth value is passed as a number -/
def paramToSource (t : Target) (o : Origin) (p : Name × Ty) : Lowering Source.Param := do
  match ← p.2.toSource t o with
  | .scalar .bool => return ⟨p.1, ← scalarTy .i8⟩
  | ty => return ⟨p.1, ty⟩

/-- the block of bytes for local memory whose size the launch decides -/
def sharedBytes : Name := .plain "shared_mem"

/-- the parameter for the place of a block in those bytes -/
def offsetName (n : Name) : Name := .plain (n.text ++ "_offset")

/-- the pointer to the place of a block in those bytes -/
def sharedPointer (b : LocalBlock) : Source.Expr :=
  let bytes := Source.Ty.pointer .u8 .unqualified
  let place := Source.Expr.access (.var sharedBytes bytes) (.var (offsetName b.name) .i64) (.scalar .u8)
  .convert (.addressOf place bytes) (.pointer b.elem .unqualified)

namespace LocalBlock

/-- whether the host decides the size of a block -/
def isComputed (b : LocalBlock) : Bool :=
  match b.size with
  | .fixed _ => false
  | .computed _ => true

/-- the parameter that a block needs -/
def param? (t : Target) (b : LocalBlock) : Option Source.Param :=
  match b.size, t with
  | .fixed _, _ => none
  | .computed _, .openCL => some ⟨b.name, .pointer b.elem .group⟩
  | .computed _, .cuda => some ⟨offsetName b.name, .i64⟩

/-- the declaration of a block -/
def declaration? (t : Target) (b : LocalBlock) : Option Source.Stmt :=
  match b.size, t with
  | .fixed n, .openCL => some (.localArray b.name b.elem n .group)
  | .fixed n, .cuda => some (.localArray b.name b.elem n .shared)
  | .computed _, .openCL => none
  | .computed _, .cuda => some (.define (.pointer b.elem .unqualified) b.name (sharedPointer b))

/-- the types that a block uses -/
def types (t : Target) (b : LocalBlock) : List Scalar :=
  if b.isComputed && t = .cuda then [b.elem, .i64] else [b.elem]

/-- the declarations of all blocks, after the bytes that some of them are placed in -/
def declarations (t : Target) (blocks : List LocalBlock) : List Source.Stmt :=
  (if t = .cuda && blocks.any isComputed then [.externShared sharedBytes] else [])
    ++ blocks.filterMap (·.declaration? t)

end LocalBlock

/-- lower a kernel -/
def Kernel.toSource (t : Target) (k : Kernel) : Lowering Source.Kernel := do
  let c : LoweringContext := ⟨t, t.permutes k.dims⟩
  if c.permuted then modify fun u => { u with permuted := true }
  let params ← k.captures.mapM (paramToSource t k.origin)
  (k.blocks.flatMap (·.types t)).forM useType
  let body ← blockToSource c k.body
  return {
    target := t
    name := k.name
    params := params ++ k.blocks.filterMap (·.param? t)
      ++ (if c.permuted then axisParams.map fun n => ⟨n, .i64⟩ else [])
    body := LocalBlock.declarations t k.blocks ++ body }

end GpuHistogram
