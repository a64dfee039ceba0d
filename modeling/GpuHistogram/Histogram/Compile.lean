/-
Compiling a histogram. The host code first computes the sizes that are not known in advance. Where the placement can be
decided in advance only that one is compiled; otherwise both are, and the host decides when it runs. A histogram without
buckets compiles to no launches.
-/
import GpuHistogram.Histogram.InGlobalMemory
import GpuHistogram.Histogram.InLocalMemory
import GpuHistogram.Histogram.Placement

namespace GpuHistogram

namespace Histogram

/-- the name of the size that stands for the number of threads of a group -/
def groupSizeId (h : Histogram) : String := h.name ++ "_group_size"

/-- the name of the size that stands for the number of groups -/
def groupCountId (h : Histogram) : String := h.name ++ "_num_groups"

/-- the sizes that are left to be chosen when the program is run -/
def openSizes (h : Histogram) (o : Options) : List (String × SizeKind) :=
  (if o.groupSize.isNone then [(h.groupSizeId, .groupSize)] else [])
    ++ (if o.groupCount.isNone then [(h.groupCountId, .groupCount)] else [])

/-- a size that may be fixed -/
def fixedOrOpen (fixed : Option Int) (id : String) : Expr :=
  match fixed with
  | some n => .i64 n
  | none => .size id .unknown

/-- compute the sizes of a histogram and name its arrays of copies -/
def plan (h : Histogram) (o : Options) : Emit Plan := do
  let groupSize ← Emit.bindSize "group_size" (fixedOrOpen o.groupSize h.groupSizeId)
  let groupCount ← Emit.bindSize "num_groups" (fixedOrOpen o.groupCount h.groupCountId)
  let threads ← Emit.bindSize "total_threads" (groupSize * groupCount)
  let segmentDims ← h.segmentDims.mapM fun (n, size) => return (n, ← Emit.bindSize "segment_dim" size)
  let segments ← Emit.bindSize "segments" (.product (segmentDims.map (·.2)))
  let elements ← match h.elementDim? with
    | some (_, size) => Emit.bindSize "segment_size" size
    | none => pure 0
  let widths ← h.operators.mapM fun op => Emit.bindSize "width" op.width
  let bucketSizes ← h.operators.mapM fun op => Emit.bindSize "vector_size" op.bucketSize
  let sized := h.operators.zip (h.contributions.zip (widths.zip bucketSizes))
  let parts ← sized.mapM fun (op, c, width, bucketSize) =>
    return Part.mk op c width bucketSize (← (Subhistograms.create op segments width bucketSize : Gen _))
  return {
    hist := h
    lockCount := o.lockCount
    groupSize := groupSize
    groupCount := groupCount
    threads := threads
    segmentDims := segmentDims
    segments := segments
    elements := elements
    parts := parts }

end Histogram

namespace Plan

/-- the bytes of the locks in local memory: one for each thread of a group, if some operator needs locks -/
def lockBytes (p : Plan) : Expr :=
  if p.operators.any Operator.needsLock then LockTable.bytes p.groupSize else 0

/-- what the decision rests on, if all of it is known in advance -/
def costs? (p : Plan) (o : Options) (histBytes : Expr) : Option Placement.Costs := do
  let h ← histBytes.constant?
  let d ← o.device
  let g ← p.groupSize.constant?
  let l ← p.lockBytes.constant?
  return ⟨h, g, d.localMemoryPerThread, d.maxLocalMemory, l⟩

/-- the code for one placement -/
def placementCode (p : Plan) : Placement → Emit Unit
  | .skip => return
  | .localMemory copies => p.localCode (.i64 copies)
  | .globalMemory => p.globalCode

/-- the bytes of local memory of a thread and of a group, asked for if they are not known -/
def memoryLimits (o : Options) : Expr × Expr :=
  match o.device with
  | some d => (.i64 d.localMemoryPerThread, .i64 d.maxLocalMemory)
  | none => (.capability .localMemoryPerThread .unknown, .capability .maxLocalMemory .unknown)

/-- the code that decides when it runs -/
def deferredCode (p : Plan) (o : Options) (histBytes : Expr) : Emit Unit := do
  let branch ← Emit.collect do
    let threadBytes ← Emit.bindSize "thread_bytes" (memoryLimits o).1
    let maxLocalMemory ← Emit.bindSize "max_local_memory" (memoryLimits o).2
    let useLocal := Placement.localFits histBytes p.groupSize threadBytes maxLocalMemory p.lockBytes
    let inLocal ← Emit.collect (p.localCode (Placement.localCopies p.groupSize threadBytes histBytes))
    let inGlobal ← Emit.collect p.globalCode
    Emit.stmt (.ifElse useLocal inLocal inGlobal .unknown)
  Emit.stmt (.ifThen (histBytes.ne 0) branch)

/-- the code for the placement decided on, or for the decision -/
def code (p : Plan) (o : Options) (histBytes : Expr) : Emit Unit :=
  match p.costs? o histBytes, histBytes.constant? with
  | some c, _ =>
    match Placement.choose? c with
    | some s => p.placementCode s
    | none => failure
  | none, some 0 => return
  | none, _ => p.deferredCode o histBytes

end Plan

namespace Histogram

/-- the host code of a histogram, before it is folded -/
def hostCode (h : Histogram) (o : Options) : Gen (List Stmt) :=
  Emit.collect do
    let p ← h.plan o
    let histBytes ← Emit.bindSize "hist_bytes" (Plan.histBytes p.parts)
    p.code o histBytes

/-- the stages of a compilation -/
def stages (h : Histogram) : StageRecord :=
  ["validate", "plan memory usage", "host program"].foldl StageRecord.finish { label := h.name }

/-- compile a histogram whose counts fit together -/
def generate (h : Histogram) (o : Options) : Gen Program :=
  return { body := foldBlock (← h.hostCode o), sizes := h.openSizes o }

/-- compile a histogram -/
def compile (h : Histogram) (o : Options) : Except (Located Malformed) (Gen Program) := do
  h.validate
  return h.generate o

end Histogram

end GpuHistogram
