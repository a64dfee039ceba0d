/-
What the kernels of one histogram have in common: its sizes, each a literal or a variable of the host code, and for every
operator its sizes, its contribution and its arrays of copies. `Plan.element` is the code that handles one element of the
iteration space.
-/
import GpuHistogram.Code.Captures
import GpuHistogram.Histogram.Emit
import GpuHistogram.Histogram.Options
import GpuHistogram.Histogram.Subhistogram

namespace GpuHistogram

/-- one operator in a plan -/
structure Part where
  op : Operator
  contribution : Contribution
  width : Expr
  bucketSize : Expr
  subs : Subhistograms
  deriving Inhabited

/-- the sizes and operators of a histogram -/
structure Plan where
  hist : Histogram
  /-- the number of locks in global memory -/
  lockCount : Int
  groupSize : Expr
  groupCount : Expr
  /-- the number of threads of a launch -/
  threads : Expr
  segmentDims : List (Name × Expr)
  segments : Expr
  /-- the number of elements of a segment -/
  elements : Expr
  parts : List Part
  deriving Inhabited

namespace Plan

/-- the bytes of one histogram of all operators -/
def histBytes (parts : List Part) : Expr :=
  .sum (parts.map fun p => p.op.histBytes p.width p.bucketSize)

/-- the operators of a plan -/
def operators (p : Plan) : List Operator :=
  p.parts.map (·.op)

/-- the variable for the index of an element in its segment -/
def elementName (p : Plan) : Fresh Name :=
  match p.hist.elementDim? with
  | some (n, _) => return n
  | none => fresh "elem"

/-- store the map results of an element -/
def mapStores (p : Plan) (flat : Expr) : List Stmt :=
  p.hist.maps.map fun m => .store (.element m.dest.name m.dest.elem .device flat) m.value

/-- the code for the bucket of one operator: nothing happens if it is out of range -/
def bucketUpdate (part : Part) (bucket : Name) (update : Stmt) : List Stmt :=
  let b := Expr.ofName bucket
  [ .bind bucket (part.contribution.bucket.castIfNeeded .i64),
    .ifThen ((b.ge 0).and (b.lt part.width)) (part.op.bucketLoops [update]) ]

/-- the code for the buckets of all operators; `update` makes the code that combines values into a given bucket -/
def bucketUpdates {α : Type} (update : Part → α → Expr → Gen Stmt) : List (Part × α) → Gen (List Stmt)
  | [] => return []
  | (part, a) :: rest => do
    let bucket ← (fresh "bucket" : Gen Name)
    let s ← update part a (.ofName bucket)
    return bucketUpdate part bucket s ++ (← bucketUpdates update rest)

/-- the code for one element, given the number of its segment and its index in the segment: the indices, the body, the
map results, and then the updates of each operator -/
def element {α : Type} (p : Plan) (segment index : Expr) (parts : List (Part × α))
    (update : Part → α → Expr → Gen Stmt) : Gen (List Stmt) := do
  let n ← (p.elementName : Gen Name)
  let updates ← bucketUpdates update parts
  return defineIndices segment p.segmentDims
    ++ [.bind n index]
    ++ p.hist.body
    ++ p.mapStores (segment * p.elements + .ofName n)
    ++ updates

/-- a kernel of the histogram over a grid of one axis -/
def kernel (p : Plan) (name stage : String) (body : List Stmt) (blocks : List LocalBlock) (groups : Expr) : Fresh Kernel :=
  return .make (← fresh (p.hist.name ++ name)) body blocks [groups] [p.groupSize] (p.hist.origin.within stage)

end Plan

end GpuHistogram
