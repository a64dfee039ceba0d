/-
The kernels of a program as the text of a target, with what the host has to know to launch them. Every kernel
is printed with identifiers of its own; only the names of kernels are shared, and no kernel is named like another one or
like a function of the language or the prelude.
-/
import GpuHistogram.Source.Axes
import GpuHistogram.Source.Lowering
import GpuHistogram.Source.Prelude

namespace GpuHistogram

/-- why a kernel cannot be launched on some numbers of groups -/
inductive LaunchError where
  | dims (kernel : String) (dims given : Nat)
  | grid (kernel : String) (grid : List Int)
  deriving DecidableEq

namespace LaunchError

/-- the text of an error -/
def message : LaunchError → String
  | dims kernel n given => s!"Kernel {kernel} has {n} grid dimensions but was given {given} group counts"
  | grid kernel groups =>
    s!"Kernel {kernel} cannot be launched on a grid of {bracketed groups} groups, as CUDA allows at most "
      ++ s!"{Axes.cudaLimit} groups in the secondary dimensions"

/-- how an error is reported -/
def report (e : LaunchError) : Diagnostic :=
  ⟨.runtime, e.message⟩

end LaunchError

/-- what the host has to know about a kernel of that text -/
structure Launch where
  name : String
  target : Target
  dims : Nat
  /-- whether the axes are exchanged, and their physical places are arguments -/
  permuted : Bool
  deriving DecidableEq, Inhabited

namespace Launch

/-- the axis of the grid for every axis of the kernel -/
def permutation (l : Launch) (groups : List Int) : Except LaunchError (List Nat) :=
  if groups.length ≠ l.dims then .error (.dims l.name l.dims groups.length)
  else if l.permuted then .ok (Axes.permutation groups)
  else .ok (List.range l.dims)

/-- the arguments for the physical places of the axes -/
def axisArguments (l : Launch) (groups : List Int) : Except LaunchError (List Nat) := do
  let perm ← l.permutation groups
  return if l.permuted then perm else []

/-- the groups along each axis of the grid -/
def grid (l : Launch) (groups : List Int) : Except LaunchError (List Int) := do
  let grid := Axes.physical groups (← l.permutation groups)
  if l.target = .cuda ∧ !Axes.fitsCuda grid then throw (.grid l.name grid)
  return grid

end Launch

/-- the text of a program for a target -/
structure DeviceCode where
  source : String
  prelude : String
  kernelNames : List String
  launches : List Launch
  usedTypes : List Scalar
  sizes : List (String × SizeKind)
  deriving Inhabited

namespace Source

/-- the functions that are there whatever is used -/
def fixedNames : List String :=
  [ "get_local_id", "get_local_size", "get_group_id", "get_num_groups", "get_global_id", "get_group_id_fn",
    "get_num_groups_fn", "get_global_id_fn", "physical_dim", "barrier_local", "barrier_global", "mem_fence_global",
    "mem_fence_local", "dummy_kernel" ]

/-- the names that no identifier of a kernel may have -/
def Features.reserved (u : Features) : List String :=
  fixedNames ++ u.helpers.map Helper.name

/-- print a kernel: first its name, then all of it -/
def Kernel.printNamed (k : Kernel) : Printer (String × String) := do
  let n ← Printer.name k.name
  return (n, ← k.print)

/-- the name and the text of each kernel, where some names are taken -/
def printDistinct (reserved : List String) : List Kernel → List (String × String)
  | [] => []
  | k :: rest =>
    let named := (k.printNamed.run (Identifiers.reserveAll {} reserved)).1
    named :: printDistinct (reserved ++ [named.1]) rest

end Source

/-- lower kernels one after the other -/
def lowerAll (t : Target) (kernels : List Kernel) : Lowering (List Source.Kernel) :=
  kernels.mapM (·.toSource t)

namespace Program

/-- put the text together from lowered kernels and what they use -/
def assemble (p : Program) (t : Target) (kernels : List Source.Kernel) (u : Source.Features) : DeviceCode :=
  let printed := Source.printDistinct u.reserved kernels
  let names := printed.map (·.1)
  { source := "\n\n".intercalate (printed.map (·.2))
    prelude := u.prelude t
    kernelNames := names
    launches := (names.zip p.kernels).map fun (n, k) => ⟨n, t, k.dims, t.permutes k.dims⟩
    usedTypes := u.types
    sizes := p.sizes }

/-- the device code of a program -/
def deviceCode (p : Program) (t : Target) : Except (Located LoweringError) DeviceCode :=
  match (lowerAll t p.kernels).run {} with
  | .ok kernels u => .ok (p.assemble t kernels u)
  | .error e _ => .error e

end Program

namespace DeviceCode

/-- the text that the device compiler is given -/
def text (t : DeviceCode) : String :=
  t.prelude ++ "\n\n" ++ t.source

/-- the launch of a kernel of a given name -/
def launch? (t : DeviceCode) (name : String) : Option Launch :=
  t.launches.find? (·.name = name)

end DeviceCode

end GpuHistogram
