/-
Flat indices. The indices of a space of several dimensions are numbered in the order in which the last varies fastest:
`flatIndex` computes the number of given indices, `defineIndices` the indices of a given number. The vector loops of an operator
run through the indices of one bucket.
-/
import GpuHistogram.Histogram.Basic

namespace GpuHistogram

/-- the number of the indices given with the sizes of their dimensions; the first size does not matter -/
def flatIndex : List (Expr × Expr) → Expr
  | [] => 0
  | (idx, _) :: rest => rest.foldl (fun acc (idx, size) => acc * size + idx) idx

/-- the definitions of the indices after the first -/
def defineIndicesRest (flat : Expr) : List (Name × Expr) → List Stmt
  | [] => []
  | (n, size) :: rest => .bind n (flat / .product (rest.map (·.2)) % size) :: defineIndicesRest flat rest

/-- the definitions of the indices with a given number -/
def defineIndices (flat : Expr) : List (Name × Expr) → List Stmt
  | [] => []
  | (n, _) :: rest => .bind n (flat / .product (rest.map (·.2))) :: defineIndicesRest flat rest

namespace Operator

/-- the indices over a bucket with their sizes -/
def bucketDims (op : Operator) : List (Name × Expr) :=
  op.bucketIndices.zip op.shape

/-- statements for every index over a bucket -/
def bucketLoops (op : Operator) (body : List Stmt) : List Stmt :=
  op.bucketDims.foldr (fun (n, size) body => [.count n 0 size body]) body

/-- the number of the current index over a bucket -/
def bucketIndex (op : Operator) : Expr :=
  flatIndex (op.bucketDims.map fun (n, size) => (.ofName n, size))

end Operator

/-- combine the arguments into the given variables; the parameters live in a block of their own, so that a combiner can
be used more than once -/
def Combiner.apply (f : Combiner) (args : List Expr) (outs : List Name) : Stmt :=
  let params := (f.params.zip args).map fun ((n, s), arg) => Stmt.bind n (arg.castIfNeeded s)
  let results := ((f.results.zip outs).zip f.params).map fun ((e, out), (_, s)) => Stmt.store (.scalarVar out s) e
  .block (params ++ f.body ++ results)

end GpuHistogram
