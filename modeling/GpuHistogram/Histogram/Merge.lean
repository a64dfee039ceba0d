/-
Combining the copies of a histogram into the destinations. A kernel runs one thread for every element of every segment;
the thread combines that element of all copies of the segment from the first to the last. With one copy per segment the
copy is the destination, and nothing is launched.
-/
import GpuHistogram.Code.Captures
import GpuHistogram.Histogram.Plan

namespace GpuHistogram

/-- the variables of a merge; one accumulator for each destination -/
structure MergeNames where
  thread : Name
  segment : Name
  j : Name
  s : Name
  accs : List Name

def MergeNames.create (dests : List Destination) : Fresh MergeNames :=
  return ⟨← fresh "gtid", ← fresh "seg", ← fresh "j", ← fresh "s", ← dests.mapM fun d => fresh (d.name.text ++ "_acc")⟩

namespace Subhistograms

/-- the place of element `j` of copy `k` of a segment -/
def subIndex (h : Subhistograms) (count segment k j : Expr) : Expr :=
  (segment * count + k) * h.size + j

/-- the place of element `j` of a segment in the destination -/
def destIndex (h : Subhistograms) (segment j : Expr) : Expr :=
  segment * h.size + j

/-- the accumulators with the element types of the destinations -/
def accumulators (h : Subhistograms) (ns : MergeNames) : List Expr :=
  (ns.accs.zip h.dests).map fun (acc, d) => .scalarVar acc d.elem

/-- what one thread does for its element -/
def mergeElement (h : Subhistograms) (f : Combiner) (ns : MergeNames) (count : Expr) : List Stmt :=
  let thread := Expr.ofName ns.thread
  let segment := Expr.ofName ns.segment
  let j := Expr.ofName ns.j
  let args := h.accumulators ns ++ h.subAccesses (h.subIndex count segment (.ofName ns.s) j)
  [.bind ns.segment (thread / h.size), .bind ns.j (thread % h.size)]
    ++ (ns.accs.zip (h.subAccesses (h.subIndex count segment 0 j))).map (fun (acc, e) => .bind acc e)
    ++ [.count ns.s 1 count [f.apply args ns.accs]]
    ++ ((h.destAccesses (h.destIndex segment j)).zip (h.accumulators ns)).map (fun (dst, acc) => .store dst acc)

/-- the body of the kernel: threads beyond the last element do nothing -/
def mergeBody (h : Subhistograms) (f : Combiner) (ns : MergeNames) (count : Expr) : List Stmt :=
  [ .bind ns.thread (.atPlace .globalId .x),
    .ifThen ((Expr.ofName ns.thread).lt (h.segments * h.size)) (h.mergeElement f ns count) ]

end Subhistograms

namespace Plan

/-- combine the copies of one operator into its destinations -/
def merge (p : Plan) (part : Part) (count : Expr) : Fresh Stmt := do
  let ns ← MergeNames.create part.subs.dests
  let body := part.subs.mergeBody part.op.combiner ns count
  let groups := Expr.ceilDiv (part.subs.segments * part.subs.size) p.groupSize
  let k ← p.kernel "_fold" "subhistogram fold" body [] groups
  return .ifThen (count.ne 1) [k.toStmt .unknown]

/-- combine the copies of operators into their destinations and free them -/
def finish (p : Plan) : List (Part × Expr) → Emit Unit
  | [] => return
  | (part, count) :: rest => do
    Emit.stmt (← (p.merge part count : Gen Stmt))
    Emit.stmt (part.subs.release count)
    finish p rest

/-- make the copies of operators -/
def allocate : List (Part × Expr) → Emit Unit
  | [] => return
  | (part, count) :: rest => do
    Emit.stmt (← (part.subs.emitAllocate count : Gen Stmt))
    allocate rest

end Plan

end GpuHistogram
