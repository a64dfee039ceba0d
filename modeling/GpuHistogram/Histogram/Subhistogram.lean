/-
The copies of a histogram that threads accumulate into. For every destination there is an array that holds, for every
segment, a number of copies of the histogram one after the other. With one copy per segment that array is the destination
itself; otherwise it is new, its first copy starts out as the destination and the others neutral, and in the end the
copies are combined into the destination.
-/
import GpuHistogram.Histogram.Index

namespace GpuHistogram

/-- the arrays of copies of one operator -/
structure Subhistograms where
  dests : List Destination
  /-- one array for each destination -/
  subs : List Name
  neutral : List Expr
  /-- the number of segments -/
  segments : Expr
  /-- the number of elements of one histogram -/
  size : Expr
  deriving Inhabited

namespace Subhistograms

/-- the arrays of copies with the element types of their destinations -/
def arrays (h : Subhistograms) : List (Name × Scalar) :=
  (h.subs.zip h.dests).map fun (n, d) => (n, d.elem)

/-- an element of an array in global memory -/
def access (a : Name × Scalar) (idx : Expr) : Expr :=
  .element a.1 a.2 .device idx

/-- an element of each array of copies -/
def subAccesses (h : Subhistograms) (idx : Expr) : List Expr :=
  h.arrays.map (access · idx)

/-- an element of each destination -/
def destAccesses (h : Subhistograms) (idx : Expr) : List Expr :=
  h.dests.map fun d => access (d.name, d.elem) idx

/-- let the arrays of copies be the destinations -/
def aliases (h : Subhistograms) : List Stmt :=
  (h.subs.zip h.dests).map fun (sub, d) => .rebind sub d.name .unknown

/-- make one array of copies: all neutral, and then for every segment the first one from the destination -/
def allocation (h : Subhistograms) (count : Expr) (seg : Name) (sub : Name) (d : Destination) (neutral : Expr) : List Stmt :=
  let total := h.segments * count * h.size
  let copy := Stmt.copy sub (.ofName seg * count * h.size) d.name (.ofName seg * h.size) h.size .unknown
  [ .alloc sub d.elem total .unknown,
    .fill sub 0 total neutral .unknown,
    .count seg 0 h.segments [copy] ]

/-- make the arrays of so many copies per segment -/
def allocate (h : Subhistograms) (count : Expr) (seg : Name) : Stmt :=
  let arrays := (h.subs.zip h.dests).zip h.neutral
  .ifElse (count.eq 1) h.aliases (arrays.flatMap fun ((sub, d), ne) => h.allocation count seg sub d ne) .unknown

/-- make the arrays of copies, with a fresh loop variable -/
def emitAllocate (h : Subhistograms) (count : Expr) : Fresh Stmt :=
  return h.allocate count (← fresh "seg")

/-- free the arrays of copies unless they are the destinations -/
def release (h : Subhistograms) (count : Expr) : Stmt :=
  .ifThen (count.ne 1) (h.subs.map fun n => .free n .unknown)

/-- the arrays of copies of an operator whose histogram has `width` buckets of `bucketSize` tuples -/
def create (op : Operator) (segments width bucketSize : Expr) : Fresh Subhistograms := do
  let subs ← op.dests.mapM fun d => fresh (d.name.text ++ "_sub")
  return ⟨op.dests, subs, op.neutral, segments, width * bucketSize⟩

end Subhistograms

/-- the bytes of one histogram of an operator -/
def Operator.histBytes (op : Operator) (width bucketSize : Expr) : Expr :=
  width * bucketSize * .i64 op.tupleBytes

end GpuHistogram
