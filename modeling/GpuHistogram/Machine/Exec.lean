/-
Running statements. A run changes variables and memory until it is over or meets a fault; what it has changed by then
stays. Loops count their rounds and give up beyond the limit of the context, which also makes every run finite.

Threads may not launch kernels, so `exec` takes what a launch means as a parameter: for threads nothing, for the host
the run of the whole grid.
-/
import GpuHistogram.Machine.Eval

namespace GpuHistogram.Machine

-- powers of numbers are those of the core library, also beside a library with its own
attribute [local instance (2000)] instPowNat instNatPowNat Int.instNatPow

/-- a computation on the state; a fault leaves the state as it was when it happened -/
abbrev Exec := EStateM Fault State

/-- stop with a fault -/
def fail {α : Type} (cause : Cause) (o : Origin) : Exec α :=
  throw ⟨cause, o⟩

/-- read something off the state -/
@[inline] def observe {α : Type} (f : State → Except Fault α) : Exec α := fun s =>
  match f s with
  | .ok a => .ok a s
  | .error e => .error e s

/-- the value of an expression in the current state -/
def value (c : Context) (e : Expr) : Exec Value :=
  observe fun s => eval c s e

/-- the value of an expression as an index or a size -/
def number (c : Context) (e : Expr) : Exec Int :=
  return (← value c e).toInt64

/-- whether an expression is true -/
def holds (c : Context) (e : Expr) : Exec Bool :=
  return (← value c e).truth

/-- give a variable a value -/
def setVar (n : Name) (v : Value) : Exec Unit :=
  modify fun s => { s with vars := s.vars.set n v }

/-- change memory -/
@[inline] def onMemory {α : Type} (o : Origin) (change : Memory.Change α) : Exec α := fun s =>
  let m := s.memory
  let s := { s with memory := {} }
  match change m with
  | .ok a m => .ok a { s with memory := m }
  | .error e m => .error ⟨.memory e, o⟩ { s with memory := m }

/-- run `round` while `cond` holds, with so many rounds left -/
def iterate (cond : Exec Bool) (round : Exec Unit) (limit : Int) (o : Origin) : Nat → Exec Unit
  | 0 => do if ← cond then fail (.loopLimit limit) o
  | left + 1 => do
    if ← cond then
      round
      iterate cond round limit o left

/-- bind a new variable -/
def execDefine (c : Context) (ty : Ty) (n : Name) (e : Expr) (o : Origin) : Exec Unit :=
  match ty with
  | .scalar s => do
    let v ← value c e
    setVar n (v.convert s)
  | .pointer .. => fail (.pointerDefinition n) o

/-- store a value in a variable or an element -/
def execAssign (c : Context) (dst e : Expr) (o : Origin) : Exec Unit := do
  let v ← value c e
  match dst with
  | .var n ty _ => setVar n (v.convert ty.elem)
  | .access target idx _ _ =>
    let n ← observe fun _ => namedArray o target
    let i ← number c idx
    let _ ← onMemory o (Memory.write n i v)
  | _ => fail .invalidTarget o

/-- update an element in one step -/
def execAtomic (c : Context) (op : Atomic) (s : Scalar) (target : Name) (idx e : Expr) (old : Option Name) (o : Origin) :
    Exec Unit := do
  let i ← number c idx
  let v ← value c e
  let current := (← observe fun st => liftMemory o (st.memory.read target i)).convert s
  let new ← observe fun _ => liftArithmetic o (op.eval current v s)
  let _ ← onMemory o (Memory.write target i new)
  match old with
  | some n => setVar n current
  | none => return

/-- store an element if it has the expected bits, in one step -/
def execCompareSwap (c : Context) (old : Name) (s : Scalar) (target : Name) (idx cmp new : Expr) (o : Origin) :
    Exec Unit := do
  let i ← number c idx
  let expected := Value.ofBits (← value c cmp).toBits s.bitPattern
  let new := (← value c new).toBits
  let found := Value.ofBits (← observe fun st => liftMemory o (st.memory.read target i)).toBits s.bitPattern
  if found = expected then
    let _ ← onMemory o (Memory.write target i (.ofBits new s))
  setVar old found

/-- the least number of elements that no array can have -/
def unallocatable : Nat := 2 ^ (58 : Nat)

/-- a new array of zeros -/
def allocate (n : Name) (s : Scalar) (count : Nat) (o : Origin) : Exec Unit :=
  if unallocatable ≤ count then fail .outOfMemory o
  else modify fun st => { st with memory := st.memory.insert n (.zeros s count) }

/-- the number of rounds a loop may make -/
def Context.rounds (c : Context) : Nat := c.loopLimit.toNat

mutual

/-- run a statement; `launch` says what launching a kernel means -/
def exec (launch : LaunchSpec → List Stmt → Exec Unit) (c : Context) : Stmt → Exec Unit
  | .define ty n e o => execDefine c ty n e o
  | .assign dst e o => execAssign c dst e o
  | .forLoop ty n init cond incr body o => do
    let first ← value c init
    setVar n (first.convert ty.elem)
    let round : Exec Unit := do
      execAll launch c body
      let next ← value c incr
      setVar n (next.convert ty.elem)
    iterate (holds c cond) round c.loopLimit o c.rounds
  | .ifElse cond thn els _ => do
    if ← holds c cond then execAll launch c thn else execAll launch c els
  | .whileLoop cond body o => iterate (holds c cond) (execAll launch c body) c.loopLimit o c.rounds
  | .scope body _ => execAll launch c body
  | .barrier _ o => fail .misplacedBarrier o
  | .fence _ _ => return
  | .atomic op _ s target idx e old o => execAtomic c op s target idx e old o
  | .compareSwap old _ s target idx cmp new o => execCompareSwap c old s target idx cmp new o
  | .alloc n s count o =>
    if c.thread.isSome then fail .hostStatementInKernel o
    else do
      let k ← number c count
      if k < 0 then fail (.negativeAllocation n k) o else allocate n s k.toNat o
  | .free n o =>
    if c.thread.isSome then fail .hostStatementInKernel o else onMemory o (Memory.remove n)
  | .copy dst dstOffset src srcOffset count o =>
    if c.thread.isSome then fail .hostStatementInKernel o
    else do
      let i ← number c dstOffset
      let j ← number c srcOffset
      let k ← number c count
      onMemory o (Memory.copy dst i src j k)
  | .fill n offset count e o =>
    if c.thread.isSome then fail .hostStatementInKernel o
    else do
      let i ← number c offset
      let k ← number c count
      let v ← value c e
      onMemory o (Memory.fill n i k v)
  | .rebind dst src o =>
    if c.thread.isSome then fail .hostStatementInKernel o else onMemory o (Memory.rebind dst src)
  | .table n s values o =>
    if c.thread.isSome then fail .hostStatementInKernel o
    else do
      let vs ← values.mapM (value c)
      modify fun st => { st with memory := st.memory.insert n (.ofValues s vs) }
  | .launch spec body o =>
    if c.thread.isSome then fail .hostStatementInKernel o else launch spec body

/-- run statements one after the other -/
def execAll (launch : LaunchSpec → List Stmt → Exec Unit) (c : Context) : List Stmt → Exec Unit
  | [] => return
  | s :: rest => do
    exec launch c s
    execAll launch c rest

end

attribute [grind =] exec execAll

end GpuHistogram.Machine
