/-
The prelude: what stands in front of the kernels in the text of a program. It names the extensions that the program
needs, defines the element types, the functions that threads synchronize by and, in CUDA, those by which a thread asks
about its place, and then the helpers in use.

A prelude is a list of sections; `Section.functions` says which functions it defines.
-/
import GpuHistogram.Source.Features
import GpuHistogram.Source.Print

namespace GpuHistogram

namespace Source

/-- how the body of a function is laid out: behind its head, or one line for each statement -/
inductive FunctionBody where
  | line (s : String)
  | block (lines : List String)
  deriving DecidableEq, Inhabited

/-- a function of the prelude -/
structure Function where
  /-- what stands in front of the type of the result -/
  mark : String
  result : String
  name : String
  params : List String
  body : FunctionBody
  deriving DecidableEq, Inhabited

/-- the text of a function -/
def Function.text (f : Function) : String :=
  let params := ", ".intercalate f.params
  let head := s!"{f.mark} {f.result} {f.name}({params}) \x7b"
  match f.body with
  | .line s => s!"{head} {s} \x7d"
  | .block lines => "\n".intercalate ([head] ++ lines.map ("  " ++ ·) ++ ["\x7d"])

/-- a part of the prelude: other lines, or functions -/
inductive Section where
  | lines (l : List String)
  | functions (l : List Function)
  deriving DecidableEq, Inhabited

namespace Section

/-- the text of a section -/
def text : Section → String
  | lines l => "\n".intercalate l
  | functions l => "\n".intercalate (l.map Function.text)

/-- the functions that a section defines -/
def defined : Section → List Function
  | lines _ => []
  | functions l => l

end Section

end Source

open Source

namespace Target

/-- what the functions of the prelude are marked with -/
def functionMark : Target → String
  | openCL => "static inline"
  | cuda => "__device__ inline"

/-- the types that a target has under other names, as a type and its name here -/
def typeNames : Target → List (String × String)
  | openCL =>
    [("char", "int8_t"), ("short", "int16_t"), ("int", "int32_t"), ("long", "int64_t"), ("uchar", "uint8_t"),
      ("ushort", "uint16_t"), ("uint", "uint32_t"), ("ulong", "uint64_t")]
  | cuda =>
    [("signed char", "int8_t"), ("short", "int16_t"), ("int", "int32_t"), ("long long", "int64_t"),
      ("unsigned char", "uint8_t"), ("unsigned short", "uint16_t"), ("unsigned int", "uint32_t"),
      ("unsigned long long", "uint64_t")]

/-- the lines that define a constant unless there is one -/
def constantLines (name value : String) : List String :=
  ["#ifndef " ++ name, s!"#define {name} {value}", "#endif"]

/-- the constants that a target lacks -/
def constants : Target → List String
  | openCL => []
  | cuda => constantLines "INFINITY" "__int_as_float(0x7f800000)" ++ constantLines "NAN" "__int_as_float(0x7fffffff)"

/-- the section that defines the element types -/
def types (t : Target) : Section :=
  .lines (t.typeNames.map (fun (type, name) => s!"typedef {type} {name};") ++ t.constants)

/-- a function of no arguments and no result -/
def procedure (t : Target) (name body : String) : Function :=
  ⟨t.functionMark, "void", name, [], .line body⟩

/-- the section of the functions that threads synchronize by -/
def synchronization (t : Target) : Section :=
  .functions <| match t with
    | openCL =>
      [ t.procedure "barrier_local" "barrier(CLK_LOCAL_MEM_FENCE);",
        t.procedure "barrier_global" "barrier(CLK_GLOBAL_MEM_FENCE | CLK_LOCAL_MEM_FENCE);",
        t.procedure "mem_fence_global" "mem_fence(CLK_GLOBAL_MEM_FENCE);",
        t.procedure "mem_fence_local" "mem_fence(CLK_LOCAL_MEM_FENCE);" ]
    | cuda =>
      [ t.procedure "barrier_local" "__syncthreads();",
        t.procedure "barrier_global" "__threadfence(); __syncthreads();",
        t.procedure "mem_fence_global" "__threadfence();",
        t.procedure "mem_fence_local" "__threadfence_block();" ]

/-- a function of an axis -/
def axisFunction (name : String) (params : List String) (result value : String) : Function :=
  ⟨cuda.functionMark, result, name, params ++ ["int d"], .block [s!"return {value};"]⟩

/-- the entry of a built-in variable of CUDA for an axis -/
def axisEntry (source : String) : String :=
  s!"d == 0 ? {source}.x : d == 1 ? {source}.y : {source}.z"

/-- the section of the functions by which a thread asks about its place -/
def placeFunctions : Section :=
  .functions
    [ axisFunction "get_local_id" [] "int64_t" (axisEntry "threadIdx"),
      axisFunction "get_local_size" [] "int64_t" (axisEntry "blockDim"),
      axisFunction "get_group_id" [] "int64_t" (axisEntry "blockIdx"),
      axisFunction "get_num_groups" [] "int64_t" (axisEntry "gridDim"),
      axisFunction "get_global_id" [] "int64_t" "get_group_id(d) * get_local_size(d) + get_local_id(d)" ]

/-- the parameters for the physical place of each axis -/
def axisArguments : List String :=
  ["int64_t bd0", "int64_t bd1", "int64_t bd2"]

/-- the section of the functions by which a thread asks about its place on a grid with exchanged axes -/
def permutedPlaceFunctions : Section :=
  .functions
    [ axisFunction "physical_dim" axisArguments "int" "(int)(d == 0 ? bd0 : d == 1 ? bd1 : bd2)",
      axisFunction "get_group_id_fn" axisArguments "int64_t" "get_group_id(physical_dim(bd0, bd1, bd2, d))",
      axisFunction "get_num_groups_fn" axisArguments "int64_t" "get_num_groups(physical_dim(bd0, bd1, bd2, d))",
      axisFunction "get_global_id_fn" axisArguments "int64_t"
        "get_group_id_fn(bd0, bd1, bd2, d) * get_local_size(d) + get_local_id(d)" ]

/-- the section of a kernel that does nothing, for compilers that refuse a program without kernels -/
def dummyKernel : Section :=
  .functions
    [ ⟨openCL.kernelMark, "void", "dummy_kernel", ["__global unsigned char *dummy", "int n"],
        .block ["const int thread_gid = get_global_id(0);", "if (thread_gid >= n) return;"]⟩ ]

end Target

namespace Source

namespace AtomicStep

/-- what an operation does, as the name of a function of OpenCL says it -/
def openCLText : AtomicStep → String
  | update .add => "add"
  | update .smin | update .umin => "min"
  | update .smax | update .umax => "max"
  | update .and => "and"
  | update .or => "or"
  | update .xor => "xor"
  | update .xchg => "xchg"
  | compareSwap => "cmpxchg"

/-- the function of OpenCL for elements of a type -/
def openCLFunction (k : AtomicStep) (s : Scalar) : String :=
  (if s.bytes = 8 then "atom_" else "atomic_") ++ k.openCLText

/-- the function of CUDA -/
def cudaFunction : AtomicStep → String
  | update .add => "atomicAdd"
  | update .smin | update .umin => "atomicMin"
  | update .smax | update .umax => "atomicMax"
  | update .and => "atomicAnd"
  | update .or => "atomicOr"
  | update .xor => "atomicXor"
  | update .xchg => "atomicExch"
  | compareSwap => "atomicCAS"

/-- whether the operation is a signed minimum or maximum -/
def isSignedExtremum : AtomicStep → Bool
  | update .smin | update .smax => true
  | _ => false

/-- the type that the function of CUDA works on; on signed words of 64 bits there are minimum and maximum only -/
def cudaTy (k : AtomicStep) (s : Scalar) : String :=
  if s.bytes = 4 then (if s.isSigned then "int" else "unsigned int")
  else if s.bytes = 8 && s.isSigned && k.isSignedExtremum then "long long"
  else "unsigned long long"

/-- the parameters of the operation after the address -/
def operands : AtomicStep → List String
  | update _ => ["val"]
  | compareSwap => ["cmp", "val"]

/-- whether OpenCL counts the operation among the extended ones -/
def isExtended : AtomicStep → Bool
  | update .add | update .xchg | compareSwap => false
  | _ => true

end AtomicStep

/-- the address space in front of a pointer of OpenCL -/
def AtomicSpace.openCLText : AtomicSpace → String
  | global => "__global"
  | group => "__local"

namespace MathFunction

/-- the function of a target on floating-point numbers -/
def floatFunction (t : Target) (base : String) (s : Scalar) : String :=
  if t = .cuda ∧ s = .f32 then base ++ "f" else base

/-- the number of arguments as the names of the parameters -/
def arguments : MathFunction → List String
  | max | min => ["x", "y"]
  | abs | exp | log | sqrt => ["x"]

/-- the value of the function on its parameters -/
def value (t : Target) (f : MathFunction) (s : Scalar) : String :=
  match f with
  | abs =>
    if s.isFloat then floatFunction t "fabs" s ++ "(x)" else if s.isSigned then "x < 0 ? -x : x" else "x"
  | exp => floatFunction t "exp" s ++ "(x)"
  | log => floatFunction t "log" s ++ "(x)"
  | sqrt => floatFunction t "sqrt" s ++ "(x)"
  | max => if s.isFloat then floatFunction t "fmax" s ++ "(x, y)" else "x > y ? x : y"
  | min => if s.isFloat then floatFunction t "fmin" s ++ "(x, y)" else "x < y ? x : y"

end MathFunction

/-- how OpenCL calls an element type -/
def openCLTy : Scalar → String
  | .bool => "bool"
  | .i8 => "char"
  | .i16 => "short"
  | .i32 => "int"
  | .i64 => "long"
  | .u8 => "uchar"
  | .u16 => "ushort"
  | .u32 => "uint"
  | .u64 => "ulong"
  | .f32 => "float"
  | .f64 => "double"

namespace Helper

/-- the definition of an atomic operation -/
def atomicFunction (t : Target) (k : AtomicStep) (s : Scalar) (space : AtomicSpace) : Function :=
  let ty := s.cText
  let params := k.operands.map (ty ++ " " ++ ·)
  let name := (Helper.atomic k s space).name
  match t with
  | .openCL =>
    let args := ", ".intercalate ("p" :: k.operands)
    ⟨t.functionMark, ty, name, s!"volatile {space.openCLText} {ty}* p" :: params,
      .block [s!"return {k.openCLFunction s}({args});"]⟩
  | .cuda =>
    let args := ", ".intercalate (s!"({k.cudaTy s}*)p" :: k.operands.map (s!"({k.cudaTy s})" ++ ·))
    ⟨t.functionMark, ty, name, s!"{ty}* p" :: params, .block [s!"return ({ty}){k.cudaFunction}({args});"]⟩

/-- the definition of a mathematical function -/
def mathFunction (t : Target) (f : MathFunction) (s : Scalar) : Function :=
  ⟨t.functionMark, s.cText, (Helper.math f s).name, f.arguments.map (s.cText ++ " " ++ ·),
    .line s!"return {f.value t s};"⟩

/-- the definition of a cast of bits -/
def bitCastFunction (t : Target) (source target : Scalar) : Function :=
  let body := match t with
    | .openCL => FunctionBody.line s!"return as_{openCLTy target}(x);"
    | .cuda => FunctionBody.block
      [s!"union \x7b {source.cText} a; {target.cText} b; \x7d u;", "u.a = x;", "return u.b;"]
  ⟨t.functionMark, target.cText, (Helper.bitCast source target).name, [s!"{source.cText} x"], body⟩

/-- the definition of a helper -/
def function (t : Target) : Helper → Function
  | math f s => mathFunction t f s
  | bitCast source target => bitCastFunction t source target
  | atomic k s space => atomicFunction t k s space

/-- whether a helper is an atomic operation on words of 64 bits -/
def isWideAtomic : Helper → Bool
  | atomic _ s _ => s.bytes = 8
  | _ => false

/-- whether a helper is an extended atomic operation on words of 64 bits -/
def isExtendedWideAtomic : Helper → Bool
  | atomic k s _ => s.bytes = 8 && k.isExtended
  | _ => false

end Helper

namespace Features

/-- the line that enables an extension of OpenCL -/
def enable (extension : String) : Section :=
  .lines [s!"#pragma OPENCL EXTENSION {extension} : enable"]

/-- the extensions of OpenCL in use -/
def extensions (u : Features) : List Section :=
  (if u.types.contains .f64 then [enable "cl_khr_fp64"] else [])
    ++ (if u.helpers.any (·.isWideAtomic) then [enable "cl_khr_int64_base_atomics"] else [])
    ++ (if u.helpers.any (·.isExtendedWideAtomic) then [enable "cl_khr_int64_extended_atomics"] else [])

/-- what stands in front of the helpers -/
def opening (t : Target) (u : Features) : List Section :=
  match t with
  | .openCL => u.extensions ++ [t.types, t.synchronization]
  | .cuda =>
    [t.types, t.synchronization, Target.placeFunctions]
      ++ (if u.permuted then [Target.permutedPlaceFunctions] else [])

/-- what stands behind the helpers -/
def closing : Target → List Section
  | .openCL => [Target.dummyKernel]
  | .cuda => []

/-- the sections of the prelude -/
def sections (t : Target) (u : Features) : List Section :=
  u.opening t ++ u.helpers.map (fun h => .functions [h.function t]) ++ closing t

/-- the text of the prelude -/
def prelude (t : Target) (u : Features) : String :=
  "\n\n".intercalate ((u.sections t).map Section.text)

end Features

end Source

end GpuHistogram
