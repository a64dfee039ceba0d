/-
Launching a kernel. The groups of the grid run one after the other, and within a group all threads finish the code
before a barrier before any thread goes on: the barriers at the top of the body divide it into phases. Every group has
its own local memory, new and zero, and every thread its own copy of the captured variables. When the launch is over, or
has failed, the host sees its variables, its array names and its arrays as before, except for what the threads stored.
-/
import GpuHistogram.Machine.Exec
import GpuHistogram.Scalar.Word64

namespace GpuHistogram.Machine

/-- whether a statement is a barrier -/
def isBarrier : Stmt → Bool
  | .barrier .. => true
  | _ => false

mutual

/-- whether a barrier occurs in a statement; a kernel that it launches does not count -/
def hasBarrier : Stmt → Bool
  | .barrier .. => true
  | .forLoop _ _ _ _ _ body _ => anyBarrier body
  | .ifElse _ thn els _ => anyBarrier thn || anyBarrier els
  | .whileLoop _ body _ => anyBarrier body
  | .scope body _ => anyBarrier body
  | _ => false

/-- whether a barrier occurs in one of some statements -/
def anyBarrier : List Stmt → Bool
  | [] => false
  | s :: rest => hasBarrier s || anyBarrier rest

end

attribute [grind =] hasBarrier anyBarrier

/-- the pieces of a body between its barriers -/
def phases : List Stmt → List (List Stmt)
  | [] => [[]]
  | s :: rest =>
    if isBarrier s then [] :: phases rest
    else
      match phases rest with
      | [] => [[s]]
      | p :: ps => (s :: p) :: ps

/-- the pieces of a body between its barriers, if these all stand at the top -/
def topLevelPhases (spec : LaunchSpec) (body : List Stmt) : Except Fault (List (List Stmt)) :=
  if body.any fun s => !isBarrier s && hasBarrier s then .error ⟨.nestedBarrier spec.name, spec.origin⟩
  else .ok (phases body)

/-- the shape of a grid: the groups along each axis, and the threads of a group along each axis -/
structure Shape where
  groups : Triple
  groupSize : Triple
  deriving DecidableEq, Inhabited

/-- the numbers of groups and threads, axis by axis -/
def evalAxes (c : Context) (s : State) : List Expr → List Expr → Except Fault (List Int × List Int)
  | g :: gs, t :: ts => do
    let n ← evalInt c s g
    let k ← evalInt c s t
    let (ns, ks) ← evalAxes c s gs ts
    return (n :: ns, k :: ks)
  | _, _ => return ([], [])

/-- the shape of a launch, if it has one to three axes, no negative size, and groups within the limit -/
def shape (c : Context) (s : State) (spec : LaunchSpec) : Except Fault Shape := do
  if spec.dims = 0 ∨ 3 < spec.dims ∨ spec.groupSize.length ≠ spec.dims then
    throw ⟨.launchShape spec.name spec.dims spec.groupSize.length, spec.origin⟩
  let (ns, ks) ← evalAxes c s spec.groups spec.groupSize
  let groups := Triple.ofList ns
  let size := Triple.ofList ks
  if (groups.toList ++ size.toList).any (· < 0) then
    throw ⟨.negativeLaunch spec.name groups.toList size.toList, spec.origin⟩
  let threads := Word64.wrap size.product
  if c.limits.maxGroupSize < threads then
    throw ⟨.groupTooLarge spec.name threads c.limits.maxGroupSize, spec.origin⟩
  return ⟨groups, size⟩

/-- the values of the captured variables; a captured array only has to exist -/
def capture (s : State) (spec : LaunchSpec) : List (Name × Ty) → Except Fault (Bindings Value)
  | [] => return ∅
  | (n, ty) :: rest => do
    let undefined : Fault := ⟨.undefinedCapture spec.name n, spec.origin⟩
    if ty.isPointer then
      if s.memory.contains n then capture s spec rest else throw undefined
    else
      match s.vars.get? n with
      | some v => return (← capture s spec rest).set n v
      | none => throw undefined

/-- a block of local memory whose size is known -/
structure SizedBlock where
  name : Name
  elem : Scalar
  count : Nat

/-- the local memory of a group -/
def evalBlocks (c : Context) (s : State) (spec : LaunchSpec) : Except Fault (List SizedBlock) :=
  spec.blocks.mapM fun b => do
    let n ← match b.size with
      | .fixed n => pure n
      | .computed e => evalInt c s e
    if n < 0 then throw ⟨.negativeBlock b.name n, spec.origin⟩
    return ⟨b.name, b.elem, n.toNat⟩

/-- threads launch nothing -/
def noLaunch (spec : LaunchSpec) (_ : List Stmt) : Exec Unit :=
  fail .hostStatementInKernel spec.origin

/-- run one phase of one thread on its variables -/
def runThread (c : Context) (phase : List Stmt) (vars : Bindings Value) : Exec (Bindings Value) := do
  modify fun s => { s with vars := vars }
  execAll noLaunch c phase
  return (← get).vars

/-- a thread of a group and its variables -/
structure Thread where
  id : Triple
  vars : Bindings Value

/-- run one phase of all threads, one after the other -/
def runPhase (place : Triple → Context) (phase : List Stmt) : List Thread → Exec (List Thread)
  | [] => return []
  | t :: rest => do
    let vars ← runThread (place t.id) phase t.vars
    return ⟨t.id, vars⟩ :: (← runPhase place phase rest)

/-- run the phases, each by all threads -/
def runPhases (place : Triple → Context) (threads : List Thread) : List (List Stmt) → Exec Unit
  | [] => return
  | p :: rest => do runPhases place (← runPhase place p threads) rest

/-- new local memory, under the names of its blocks -/
def allocateBlocks (o : Origin) : List SizedBlock → Exec Unit
  | [] => return
  | b :: rest => do
    allocate b.name b.elem b.count o
    allocateBlocks o rest

/-- drop all buffers but the first ones, and let names refer to what they did -/
def restore (m : Memory) (count : Nat) (names : Bindings Nat) : Memory :=
  ⟨m.buffers.shrink count, names⟩

/-- run code with variables and array names of its own; afterwards those of before are back, and new buffers are gone -/
def isolated (run : Exec Unit) : Exec Unit := fun s =>
  let vars := s.vars
  let names := s.memory.names
  let count := s.memory.buffers.size
  match run s with
  | .ok _ s => .ok () { s with vars := vars, memory := restore s.memory count names }
  | .error e s => .error e { s with vars := vars, memory := restore s.memory count names }

/-- all that a launch needs to know before the first thread runs -/
structure Prepared where
  shape : Shape
  phases : List (List Stmt)
  captured : Bindings Value
  blocks : List SizedBlock

/-- check a launch against the state of the host -/
def prepare (c : Context) (s : State) (spec : LaunchSpec) (body : List Stmt) : Except Fault Prepared := do
  let shape ← shape c s spec
  let phases ← topLevelPhases spec body
  let captured ← capture s spec spec.captures
  let blocks ← evalBlocks c s spec
  return ⟨shape, phases, captured, blocks⟩

/-- run one group -/
def runGroup (c : Context) (p : Prepared) (o : Origin) (group : Triple) : Exec Unit := do
  allocateBlocks o p.blocks
  let place (id : Triple) : Context := { c with thread := some ⟨id, group, p.shape.groupSize, p.shape.groups⟩ }
  runPhases place (p.shape.groupSize.indices.map fun id => ⟨id, p.captured⟩) p.phases

/-- run the groups, one after the other -/
def runGroups (c : Context) (p : Prepared) (o : Origin) : List Triple → Exec Unit
  | [] => return
  | g :: rest => do
    isolated (runGroup c p o g)
    runGroups c p o rest

/-- launch a kernel from the host -/
def launch (c : Context) (spec : LaunchSpec) (body : List Stmt) : Exec Unit := do
  let p ← observe fun s => prepare c s spec body
  modify fun s => { s with launched := s.launched.push spec.name.text }
  runGroups c p spec.origin p.shape.groups.indices

/-- run host code -/
def runHost (c : Context) (body : List Stmt) : Exec Unit :=
  execAll (launch c) c body

end GpuHistogram.Machine

namespace GpuHistogram

-- powers of numbers are those of the core library, also beside a library with its own
attribute [local instance (2000)] instPowNat instNatPowNat Int.instNatPow

/-- the most rounds of a loop, unless another limit is set -/
def defaultLoopLimit : Int := 2 ^ (24 : Nat)

/-- a host with its device: limits, sizes chosen, and the variables and arrays that programs have left -/
structure Machine where
  limits : DeviceLimits := {}
  sizes : List (String × Int) := []
  loopLimit : Int := defaultLoopLimit
  state : Machine.State := {}
  deriving Inhabited

namespace Machine

/-- choose a size -/
def chooseSize (m : Machine) (id : String) (v : Int) : Machine :=
  { m with sizes := (id, v) :: m.sizes }

/-- bind an array -/
def setArray (m : Machine) (n : Name) (elem : Scalar) (values : List Value) : Machine :=
  { m with state.memory := m.state.memory.insert n (.ofValues elem values) }

/-- bind a variable -/
def setScalar (m : Machine) (n : Name) (v : Value) : Machine :=
  { m with state.vars := m.state.vars.set n v }

/-- the elements of an array -/
def arrayValues (m : Machine) (n : Name) : Except Fault (List Value) :=
  liftMemory .unknown (m.state.memory.values n)

/-- the names of the kernels launched so far -/
def launched (m : Machine) : List String := m.state.launched.toList

/-- the value of a size: the one chosen, else for a size of the program the default of its class -/
def resolveSize (m : Machine) (p : Program) (id : String) : Option Int :=
  (m.sizes.lookup id).orElse fun _ => (p.sizes.lookup id).map m.limits.default

/-- what host code of a program runs in -/
def context (m : Machine) (p : Program) : Context :=
  { limits := m.limits, sizes := m.resolveSize p, loopLimit := m.loopLimit }

/-- run a program; a run that the machine gave up on leaves no record of its launches -/
def run (m : Machine) (p : Program) : Except Fault Unit × Machine :=
  let before := m.state.launched
  match (runHost (m.context p) p.body).run m.state with
  | .ok _ s => (.ok (), { m with state := s })
  | .error f s => (.error f, { m with state := if f.cause.isCrash then { s with launched := before } else s })

end Machine

end GpuHistogram
