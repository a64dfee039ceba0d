/-
Accumulating in local memory. Consecutive groups work on the same segment. Every group keeps some copies of the histogram
in its local memory, and its threads are spread over them. The first copy starts out as the copy of the group in global
memory, the others neutral; when all elements of the segment are in, the copies are combined into the first, and that is
written back as the copy of the group.

The grid has one axis only, since the others are short on some devices.
-/
import GpuHistogram.Histogram.Merge
import GpuHistogram.Histogram.Update

namespace GpuHistogram

/-- a size in local memory: a number if it is known in advance -/
def BlockSize.ofExpr (e : Expr) : BlockSize :=
  match e.constant? with
  | some n => .fixed n
  | none => .computed e

/-- the variables of a loop over the elements of a histogram by all threads of a group -/
structure ChunkNames where
  c : Name
  j : Name

def ChunkNames.create : Fresh ChunkNames :=
  return ⟨← fresh "c", ← fresh "j"⟩

/-- statements for every `j` below a size, in rounds of one `j` for each thread of the group -/
def groupLoop (ns : ChunkNames) (thread : Name) (size : Expr) (body : List Stmt) : Stmt :=
  .count ns.c 0 (size.ceilDiv .localSize)
    [ .bind ns.j (.ofName ns.c * .localSize + .ofName thread),
      .ifThen ((Expr.ofName ns.j).lt size) body ]

/-- how one operator is accumulated in local memory -/
structure LocalPart where
  method : UpdateMethod
  /-- the blocks of local memory, one for each destination -/
  blocks : List Name

/-- the variables at the start of the kernel -/
structure LocalNames where
  thread : Name
  group : Name
  segment : Name
  slot : Name

def LocalNames.create : Fresh LocalNames :=
  return ⟨← fresh "ltid", ← fresh "gid", ← fresh "seg_flat", ← fresh "slot"⟩

/-- the variables of the loop over the elements of a segment -/
structure SweepNames where
  thread : Name
  k : Name
  e : Name
  chunk : Name

def SweepNames.create : Fresh SweepNames :=
  return ⟨← fresh "stid", ← fresh "k", ← fresh "e", ← fresh "chunk"⟩

/-- the number of local copies, and the number of groups that work on one segment -/
structure LocalShape where
  copies : Expr
  groupsPerSegment : Expr

namespace Part

/-- the blocks of local memory with their element types -/
def localArrays (part : Part) (blocks : List Name) : List (Name × Scalar) :=
  (part.subs.dests.zip blocks).map fun (d, n) => (n, d.elem)

/-- an element of each block -/
def localElements (part : Part) (blocks : List Name) (idx : Expr) : List Expr :=
  (part.localArrays blocks).map fun (n, s) => .element n s .shared idx

/-- the declarations of the blocks -/
def localBlocks (part : Part) (shape : LocalShape) (blocks : List Name) : List LocalBlock :=
  let size := BlockSize.ofExpr (shape.copies * part.subs.size)
  (part.localArrays blocks).map fun (n, s) => ⟨n, s, size⟩

/-- the place of element `j` in the copy of the group in global memory -/
def publishedIndex (part : Part) (ns : LocalNames) (shape : LocalShape) (j : Expr) : Expr :=
  flatIndex [(.ofName ns.segment, 1), (.ofName ns.group, shape.groupsPerSegment), (j, part.subs.size)]

/-- element `j` of the copy of the group in each array in global memory -/
def published (part : Part) (ns : LocalNames) (shape : LocalShape) (j : Expr) : List Expr :=
  part.subs.subAccesses (part.publishedIndex ns shape j)

/-- assignments pair by pair -/
def stores (dsts es : List Expr) : List Stmt :=
  (dsts.zip es).map fun (d, e) => .store d e

/-- the first value of element `j` of the local copies -/
def initElement (part : Part) (ns : LocalNames) (shape : LocalShape) (blocks : List Name) (j : Expr) : List Stmt :=
  let dsts := part.localElements blocks j
  [.ifElse (j.lt part.subs.size) (stores dsts (part.published ns shape j)) (stores dsts part.subs.neutral) .unknown]

/-- write element `j` of the first copy back -/
def publishElement (part : Part) (ns : LocalNames) (shape : LocalShape) (blocks : List Name) (j : Expr) : List Stmt :=
  stores (part.published ns shape j) (part.localElements blocks j)

/-- combine element `j` of all copies into the first -/
def compactElement (part : Part) (shape : LocalShape) (blocks : List Name) (s : Name) (accs : List Name) (j : Expr) :
    List Stmt :=
  let vars := (accs.zip part.subs.dests).map fun (acc, d) => Expr.scalarVar acc d.elem
  let dsts := part.localElements blocks j
  let args := vars ++ part.localElements blocks (.ofName s * part.subs.size + j)
  (accs.zip dsts).map (fun (acc, e) => .bind acc e)
    ++ [.count s 1 shape.copies [part.op.combiner.apply args accs]]
    ++ stores dsts vars

/-- the place of the current tuple of a bucket in the copy of a thread -/
def localAddress (part : Part) (ns : LocalNames) (bucket : Expr) : Expr :=
  flatIndex [(.ofName ns.slot, 1), (bucket, part.width), (part.op.bucketIndex, part.bucketSize)]

/-- the update of one operator -/
def localUpdate (ns : LocalNames) (part : Part) (l : LocalPart) (bucket : Expr) : Gen Stmt :=
  part.op.updateCode l.method .shared l.blocks (part.localAddress ns bucket) part.contribution.values

end Part

namespace Plan

/-- the code that gives all local copies their first values -/
def initCopies (ns : LocalNames) (shape : LocalShape) : List (Part × LocalPart) → Fresh (List Stmt)
  | [] => return []
  | (part, l) :: rest => do
    let c ← ChunkNames.create
    let s := groupLoop c ns.thread (shape.copies * part.subs.size) (part.initElement ns shape l.blocks (.ofName c.j))
    return s :: (← initCopies ns shape rest)

/-- the code that frees all locks -/
def initLocks (ns : LocalNames) : Option LockTable → Fresh (List Stmt)
  | none => return []
  | some t => do
    let c ← ChunkNames.create
    let lock := Expr.element t.name .i32 .shared (.ofName c.j)
    return [groupLoop c ns.thread .localSize [.store lock (.literal unlocked .i32)]]

/-- the code that combines the local copies of each operator into the first -/
def compactCopies (ns : LocalNames) (shape : LocalShape) : List (Part × LocalPart) → Fresh (List Stmt)
  | [] => return []
  | (part, l) :: rest => do
    let c ← ChunkNames.create
    let s ← fresh "s"
    let accs ← l.blocks.mapM fun n => fresh (n.text ++ "_acc")
    let stmt := groupLoop c ns.thread part.subs.size (part.compactElement shape l.blocks s accs (.ofName c.j))
    return stmt :: (← compactCopies ns shape rest)

/-- the code that writes the first copies back -/
def publishCopies (ns : LocalNames) (shape : LocalShape) : List (Part × LocalPart) → Fresh (List Stmt)
  | [] => return []
  | (part, l) :: rest => do
    let c ← ChunkNames.create
    let stmt := groupLoop c ns.thread part.subs.size (part.publishElement ns shape l.blocks (.ofName c.j))
    return stmt :: (← publishCopies ns shape rest)

/-- the definitions at the start of the kernel -/
def localStart (ns : LocalNames) (shape : LocalShape) : List Stmt :=
  [ .bind ns.thread (.atPlace .localId .x),
    .bind ns.group (.atPlace .groupId .x % shape.groupsPerSegment),
    .bind ns.segment (.atPlace .groupId .x / shape.groupsPerSegment),
    .bind ns.slot (.ofName ns.thread % shape.copies) ]

/-- the loop of a thread over its chunk of the elements of the segment, given the code for one element -/
def sweep (p : Plan) (ns : LocalNames) (shape : LocalShape) (sw : SweepNames) (element : List Stmt) : List Stmt :=
  let threads := shape.groupsPerSegment * .localSize
  [ .bind sw.thread (.ofName ns.group * .localSize + .ofName ns.thread),
    .bind sw.chunk (p.elements.ceilDiv threads),
    .count sw.k 0 (.ofName sw.chunk)
      [ .bind sw.e (.ofName sw.thread * .ofName sw.chunk + .ofName sw.k),
        .ifThen ((Expr.ofName sw.e).lt p.elements) element ] ]

/-- the body of the kernel -/
def localBody (p : Plan) (shape : LocalShape) (table : Option LockTable) (parts : List (Part × LocalPart)) :
    Gen (List Stmt) := do
  let ns ← (LocalNames.create : Gen LocalNames)
  let init ← (initCopies ns shape parts : Gen _)
  let locks ← (initLocks ns table : Gen _)
  let sw ← (SweepNames.create : Gen SweepNames)
  let element ← p.element (.ofName ns.segment) (.ofName sw.e) parts (Part.localUpdate ns)
  let compact ← (compactCopies ns shape parts : Gen _)
  let publish ← (publishCopies ns shape parts : Gen _)
  return localStart ns shape ++ init ++ locks ++ [.barrier .shared .unknown]
    ++ p.sweep ns shape sw element ++ [.barrier .shared .unknown]
    ++ compact ++ [.barrier .device .unknown]
    ++ publish

/-- the local memory of the kernel -/
def localMemory (p : Plan) (shape : LocalShape) (table : Option LockTable) (parts : List (Part × LocalPart)) :
    List LocalBlock :=
  parts.flatMap (fun (part, l) => part.localBlocks shape l.blocks)
    ++ match table with
      | some t => [⟨t.name, .i32, .ofExpr p.groupSize⟩]
      | none => []

/-- the host code that accumulates in local memory, with so many copies for each group -/
def localCode (p : Plan) (copies : Expr) : Emit Unit := do
  let (table, methods) ← (chooseMethods p.operators (LockTable.create .localSize .shared) : Gen _)
  let copies ← Emit.bindSize "local_subhistos" copies
  let groupsPerSegment ← Emit.bindSize "groups_per_segment" (.max 1 (p.groupCount.ceilDiv p.segments))
  let shape : LocalShape := ⟨copies, groupsPerSegment⟩
  let counted := p.parts.map fun part => (part, groupsPerSegment)
  allocate counted
  let blocks ← p.parts.mapM fun part => part.subs.dests.mapM fun d => (fresh (d.name.text ++ "_local") : Gen Name)
  let parts := p.parts.zip ((methods.zip blocks).map fun (m, b) => LocalPart.mk m b)
  let body ← p.localBody shape table parts
  let groups := groupsPerSegment * p.segments
  let k ← (p.kernel "_local" "local memory histogram" body (p.localMemory shape table parts) groups : Gen Kernel)
  Emit.stmt (k.toStmt .unknown)
  p.finish counted

end Plan

end GpuHistogram
