/-
The value of an expression. It depends on the variables and arrays in sight and, through the context, on where the code
runs: a thread knows its place in the launch, host code knows the sizes chosen for this run and the limits of the device.
Evaluation reads from left to right, stops at the first fault, and changes nothing.
-/
import GpuHistogram.Histogram.Options
import GpuHistogram.Machine.Fault

namespace GpuHistogram.Machine

/-- one number for each axis -/
structure Triple where
  x : Int
  y : Int
  z : Int
  deriving DecidableEq, Inhabited

namespace Triple

def get (t : Triple) : Axis → Int
  | .x => t.x
  | .y => t.y
  | .z => t.z

def toList (t : Triple) : List Int := [t.x, t.y, t.z]

/-- the numbers of at most three axes; an axis left out has one -/
def ofList (l : List Int) : Triple :=
  ⟨l[0]?.getD 1, l[1]?.getD 1, l[2]?.getD 1⟩

def product (t : Triple) : Int := t.x * t.y * t.z

/-- the numbers from 0 up to a bound -/
def upTo (n : Int) : List Int :=
  (List.range n.toNat).map Int.ofNat

/-- the indices below the given numbers, the first axis varying fastest -/
def indices (t : Triple) : List Triple :=
  (upTo t.z).flatMap fun z => (upTo t.y).flatMap fun y => (upTo t.x).map fun x => ⟨x, y, z⟩

end Triple

/-- the place of a thread in a launch -/
structure ThreadPlace where
  localId : Triple
  groupId : Triple
  localSize : Triple
  groupCount : Triple
  deriving DecidableEq, Inhabited

/-- what a thread learns when it asks about its place -/
def ThreadPlace.get (t : ThreadPlace) (axis : Axis) : Place → Int
  | .localId => t.localId.get axis
  | .groupId => t.groupId.get axis
  | .globalId => t.groupId.get axis * t.localSize.get axis + t.localId.get axis
  | .localSize => t.localSize.get axis
  | .groupCount => t.groupCount.get axis

/-- what stays the same while a piece of code runs -/
structure Context where
  limits : DeviceLimits
  /-- the value of each size that is chosen at run time -/
  sizes : String → Option Int
  loopLimit : Int
  /-- the thread that runs the code, none for the host -/
  thread : Option ThreadPlace := none

/-- what code sees and changes, and the kernels launched so far -/
structure State where
  vars : Bindings Value := ∅
  memory : Memory := {}
  launched : Array String := #[]
  deriving Inhabited

/-- the array an access goes to: only a variable names one -/
def namedArray (o : Origin) : Expr → Except Fault Name
  | .var n _ _ => .ok n
  | _ => .error ⟨.unnamedArray, o⟩

/-- an outcome of memory as an outcome of code -/
def liftMemory {α : Type} (o : Origin) : Except MemoryError α → Except Fault α
  | .ok a => .ok a
  | .error e => .error ⟨.memory e, o⟩

/-- an outcome of an operator as an outcome of code -/
def liftArithmetic (o : Origin) : Arithmetic → Except Fault Value
  | .ok v => .ok v
  | .error e => .error ⟨.arithmetic e, o⟩

/-- the answer to a question about the place of the thread -/
def evalPlace (c : Context) (p : Place) (axis : Axis) (o : Origin) : Except Fault Value :=
  match c.thread with
  | some t => .ok (.ofInt (t.get axis p) .i64)
  | none => .error ⟨.threadIndexOnHost, o⟩

/-- the value of a size chosen at run time -/
def evalSize (c : Context) (id : String) (o : Origin) : Except Fault Value :=
  match c.thread, c.sizes id with
  | some _, _ => .error ⟨.hostExpressionInKernel, o⟩
  | none, some v => .ok (.ofInt v .i64)
  | none, none => .error ⟨.unknownSize id, o⟩

/-- a limit of the device -/
def evalCapability (c : Context) (q : Capability) (o : Origin) : Except Fault Value :=
  match c.thread with
  | some _ => .error ⟨.hostExpressionInKernel, o⟩
  | none => .ok (.ofInt (c.limits.get q) .i64)

/-- the value with the same bits at another type of the same size -/
def castBits (v : Value) (s : Scalar) (o : Origin) : Except Fault Value :=
  if v.scalar.bytes = s.bytes then .ok (.ofBits v.toBits s) else .error ⟨.castChangesSize v s, o⟩

/-- the value of an expression -/
def eval (c : Context) (s : State) : Expr → Except Fault Value
  | .var n _ o =>
    match s.vars.get? n with
    | some v => .ok v
    | none => .error ⟨.undefinedVariable n, o⟩
  | .bool b _ _ => .ok (.bool b)
  | .int v ty _ => .ok (.ofInt v ty.elem)
  | .float b ty _ => .ok (.ofFloat (Float.ofBits b) ty.elem)
  | .unary op arg ty o => do
    let v ← eval c s arg
    liftArithmetic o (op.eval v ty.elem)
  | .binary .and lhs rhs _ _ => do
    let l ← eval c s lhs
    if l.truth then return .bool (← eval c s rhs).truth else return .bool false
  | .binary .or lhs rhs _ _ => do
    let l ← eval c s lhs
    if l.truth then return .bool true else return .bool (← eval c s rhs).truth
  | .binary op lhs rhs ty o => do
    let l ← eval c s lhs
    let r ← eval c s rhs
    liftArithmetic o (op.eval l r ty.elem)
  | .select cond thn els _ _ => do
    let b ← eval c s cond
    if b.truth then eval c s thn else eval c s els
  | .access target idx _ o => do
    let n ← namedArray o target
    let i ← eval c s idx
    liftMemory o (s.memory.read n i.toInt64)
  | .convert e ty => return (← eval c s e).convert ty.elem
  | .bitCast e ty => do
    let v ← eval c s e
    castBits v ty.elem e.origin
  | .place p axis o => evalPlace c p axis o
  | .size id o => evalSize c id o
  | .capability q o => evalCapability c q o

/-- the value of an expression as an index or a size -/
def evalInt (c : Context) (s : State) (e : Expr) : Except Fault Int :=
  return (← eval c s e).toInt64

end GpuHistogram.Machine
