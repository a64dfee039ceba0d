/-
Accumulating in global memory. Every operator has a number of copies per segment, the more the fewer buckets there are
for the threads of a launch. Neighbouring threads share a copy, and every thread handles a contiguous chunk of the
elements of all segments.
-/
import GpuHistogram.Histogram.Merge
import GpuHistogram.Histogram.Update

namespace GpuHistogram

/-- how one operator is accumulated in global memory -/
structure GlobalPart where
  method : UpdateMethod
  /-- the number of copies per segment -/
  count : Expr
  /-- the number of threads that share a copy -/
  threadsPerCopy : Expr
  /-- the variable for the copy of a thread -/
  copy : Name

/-- the variables of the kernel -/
structure GlobalNames where
  thread : Name
  k : Name
  flat : Name
  segment : Name

def GlobalNames.create : Fresh GlobalNames :=
  return ⟨← fresh "gtid", ← fresh "k", ← fresh "flat", ← fresh "seg_flat"⟩

namespace Plan

/-- the number of copies of an operator: enough that no more threads share one than it has buckets -/
def copyCount (p : Plan) (part : Part) : Expr :=
  .ceilDiv p.threads (.max 1 (part.width * p.segments))

/-- the number of elements of all segments -/
def totalElements (p : Plan) : Expr :=
  p.segments * p.elements

/-- the place of the current tuple of a bucket -/
def globalAddress (ns : GlobalNames) (part : Part) (g : GlobalPart) (bucket : Expr) : Expr :=
  flatIndex [(.ofName ns.segment, 1), (.ofName g.copy, g.count), (bucket, part.width), (part.op.bucketIndex, part.bucketSize)]

/-- the update of one operator -/
def globalUpdate (ns : GlobalNames) (part : Part) (g : GlobalPart) (bucket : Expr) : Gen Stmt :=
  part.op.updateCode g.method .device part.subs.subs (globalAddress ns part g bucket) part.contribution.values

/-- the body of the kernel, given the code for one element -/
def globalBody (p : Plan) (ns : GlobalNames) (parts : List GlobalPart) (chunk : Expr) (element : List Stmt) : List Stmt :=
  let thread := Expr.ofName ns.thread
  let flat := Expr.ofName ns.flat
  [.bind ns.thread (.atPlace .globalId .x)]
    ++ parts.map (fun g => .bind g.copy (thread / g.threadsPerCopy))
    ++ [ .count ns.k 0 chunk
          [ .bind ns.flat (thread * chunk + .ofName ns.k),
            .ifThen (flat.lt p.totalElements) (.bind ns.segment (flat / p.elements) :: element) ] ]

/-- make the table of locks, all of them free -/
def allocateLocks (t : LockTable) : List Stmt :=
  [ .alloc t.name .i32 t.count .unknown,
    .fill t.name 0 t.count (.literal unlocked .i32) .unknown ]

/-- the host code that accumulates in global memory -/
def globalCode (p : Plan) : Emit Unit := do
  let (table, methods) ← (chooseMethods p.operators (LockTable.create (.i64 p.lockCount) .device) : Gen _)
  let counts ← p.parts.mapM fun part => Emit.bindSize "num_subhistos" (p.copyCount part)
  let shares ← counts.mapM fun c => Emit.bindSize "threads_per_subhisto" (p.threads.ceilDiv c)
  allocate (p.parts.zip counts)
  if let some t := table then Emit.stmts (allocateLocks t)
  let chunk ← Emit.bindSize "chunk" (p.totalElements.ceilDiv p.threads)
  let ns ← (GlobalNames.create : Gen GlobalNames)
  let copies ← counts.mapM fun _ => (fresh "subhisto_id" : Gen Name)
  let parts := (methods.zip (counts.zip (shares.zip copies))).map fun (m, c, s, n) => GlobalPart.mk m c s n
  let segment := Expr.ofName ns.segment
  let element ← p.element segment (Expr.ofName ns.flat % p.elements) (p.parts.zip parts) (globalUpdate ns)
  let body := p.globalBody ns parts chunk element
  let k ← (p.kernel "_global" "global memory histogram" body [] p.groupCount : Gen Kernel)
  Emit.stmt (k.toStmt .unknown)
  p.finish (p.parts.zip counts)
  if let some t := table then Emit.stmt (.free t.name .unknown)

end Plan

end GpuHistogram
