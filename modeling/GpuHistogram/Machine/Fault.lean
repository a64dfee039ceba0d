/-
What can go wrong while a program runs, with the text it is reported by. Everything is a runtime error of the program but
`outOfMemory`, which ends the run of the machine itself: no array can have that many elements.
-/
import GpuHistogram.Code.Basic
import GpuHistogram.Machine.Memory
import GpuHistogram.Scalar.Arithmetic
import GpuHistogram.Text.Brackets

namespace GpuHistogram.Machine

/-- why a run stopped -/
inductive Cause where
  | arithmetic (e : ArithmeticError)
  | memory (e : MemoryError)
  | undefinedVariable (n : Name)
  | unnamedArray
  | threadIndexOnHost
  | hostExpressionInKernel
  | hostStatementInKernel
  | unknownSize (id : String)
  | castChangesSize (v : Value) (s : Scalar)
  | pointerDefinition (n : Name)
  | invalidTarget
  | loopLimit (limit : Int)
  | misplacedBarrier
  | nestedBarrier (kernel : Name)
  | negativeAllocation (n : Name) (count : Int)
  | launchShape (kernel : Name) (groups groupSize : Nat)
  | negativeLaunch (kernel : Name) (groups groupSize : List Int)
  | groupTooLarge (kernel : Name) (threads limit : Int)
  | undefinedCapture (kernel n : Name)
  | negativeBlock (n : Name) (count : Int)
  | outOfMemory

/-- why a run stopped, and at which code -/
abbrev Fault := Located Cause

/-- the text of a cause -/
def Cause.message : Cause → String
  | .arithmetic e => e.message
  | .memory e => e.message
  | .undefinedVariable n => s!"Reference to undefined variable {n}"
  | .unnamedArray => "Array accesses must refer to a named array"
  | .threadIndexOnHost => "Thread index used in host code"
  | .hostExpressionInKernel => "Found host-level expression in kernel code"
  | .hostStatementInKernel => "Found host-level statement in kernel code"
  | .unknownSize id => s!"Reference to unregistered size parameter {id}"
  | .castChangesSize v s => s!"Bit cast of {v.text} to {s.text} changes the size of the value"
  | .pointerDefinition n => s!"Definition of pointer variable {n} is not supported"
  | .invalidTarget => "Invalid target of assignment"
  | .loopLimit limit => s!"Loop exceeded the limit of {limit} iterations"
  | .misplacedBarrier => "Barrier outside the top level of a kernel"
  | .nestedBarrier kernel =>
    s!"Kernel {kernel} contains a barrier nested in control flow, which is not supported by the interpreter"
  | .negativeAllocation n count => s!"Allocation of {n} with negative size {count}"
  | .launchShape kernel groups groupSize =>
    s!"Kernel {kernel} has an invalid launch shape of {groups} by {groupSize} dimensions"
  | .negativeLaunch kernel groups groupSize =>
    s!"Kernel {kernel} launched with negative size {bracketed groups} by {bracketed groupSize}"
  | .groupTooLarge kernel threads limit =>
    s!"Kernel {kernel} launched with {threads} threads per group, exceeding the maximum of {limit}"
  | .undefinedCapture kernel n => s!"Kernel {kernel} refers to undefined {n}"
  | .negativeBlock n count => s!"Local memory {n} has negative size {count}"
  | .outOfMemory => "Out of memory"

/-- whether the machine itself gave up -/
def Cause.isCrash : Cause → Bool
  | .outOfMemory => true
  | _ => false

/-- how a fault is reported -/
def report (f : Fault) : Diagnostic :=
  ⟨.runtime, f.origin.annotate f.cause.message⟩

end GpuHistogram.Machine
