/-
Histograms over an iteration space. The last dimension of the space runs over the elements; the dimensions before it are
segments, each with a histogram of its own. For every element each operator yields a bucket and a tuple of values, which
are combined into the bucket of the destinations; a bucket out of range drops the element. Apart from that, map results
write one value for every element.

A bucket holds a vector of tuples: `shape` gives its dimensions, and `bucketIndices` are the indices over it that the values
may use.
-/
import GpuHistogram.Code.Build

namespace GpuHistogram

/-- an existing array that results go to -/
structure Destination where
  name : Name
  elem : Scalar
  deriving DecidableEq, Inhabited

/-- how two tuples are combined: the first half of the parameters is the tuple held, the second half the new one -/
structure Combiner where
  params : List (Name × Scalar)
  body : List Stmt
  results : List Expr
  deriving Inhabited

/-- one way of collecting values in buckets -/
structure Operator where
  /-- the number of buckets -/
  width : Expr
  shape : List Expr
  bucketIndices : List Name
  combiner : Combiner
  /-- the tuple that changes nothing when it is combined -/
  neutral : List Expr
  dests : List Destination
  deriving Inhabited

namespace Operator

def scalars (op : Operator) : List Scalar :=
  op.dests.map (·.elem)

/-- the bytes of one tuple -/
def tupleBytes (op : Operator) : Nat :=
  op.dests.foldl (fun n d => n + d.elem.bytes) 0

/-- the number of tuples in a bucket -/
def bucketSize (op : Operator) : Expr :=
  .product op.shape

end Operator

/-- where an element goes and what it brings: one value for each destination of the operator -/
structure Contribution where
  bucket : Expr
  values : List Expr
  deriving Inhabited

/-- a value written for every element -/
structure MapOutput where
  dest : Destination
  value : Expr
  deriving Inhabited

/-- a histogram -/
structure Histogram where
  name : String
  /-- the indices of the space with their sizes, the elements last -/
  space : List (Name × Expr)
  operators : List Operator
  /-- what runs for every element first -/
  body : List Stmt
  /-- one contribution for each operator -/
  contributions : List Contribution
  maps : List MapOutput
  origin : Origin
  deriving Inhabited

namespace Histogram

/-- the dimensions of the segments -/
def segmentDims (h : Histogram) : List (Name × Expr) :=
  h.space.dropLast

/-- the dimension of the elements -/
def elementDim? (h : Histogram) : Option (Name × Expr) :=
  h.space.getLast?

end Histogram

/-- why a histogram cannot be compiled -/
inductive Malformed where
  | emptySpace (name : String)
  | contributions (name : String) (operators contributions : Nat)
  | neutral (op neutral dests : Nat)
  | combiner (op dests params results : Nat)
  | values (op dests values : Nat)
  | shape (op rank indices : Nat)
  deriving DecidableEq

namespace Malformed

/-- the text of a defect -/
def message : Malformed → String
  | emptySpace name => s!"Histogram {name} has an empty iteration space"
  | contributions name n k => s!"Histogram {name} has {n} operators but its body produces {k} results"
  | neutral op n k => s!"Operator {op} has {n} neutral elements but {k} destinations"
  | combiner op k params results =>
    s!"Operator {op} combines {k} values but its function has {params} parameters and {results} results"
  | values op k n => s!"Operator {op} has {k} destinations but the body produces {n} values"
  | shape op rank indices => s!"Operator {op} has a shape of rank {rank} but {indices} vector indices"

/-- how a defect is reported -/
def report (m : Located Malformed) : Diagnostic :=
  ⟨.internal, m.origin.annotate m.cause.message⟩

end Malformed

/-- the first defect of the operator at an index, given the number of values it receives -/
def Operator.defect? (op : Operator) (idx values : Nat) : Option Malformed :=
  let k := op.dests.length
  if op.neutral.length ≠ k then some (.neutral idx op.neutral.length k)
  else if op.combiner.params.length ≠ 2 * k ∨ op.combiner.results.length ≠ k then
    some (.combiner idx k op.combiner.params.length op.combiner.results.length)
  else if values ≠ k then some (.values idx k values)
  else if op.bucketIndices.length ≠ op.shape.length then some (.shape idx op.shape.length op.bucketIndices.length)
  else none

/-- the first defect among operators from an index on -/
def operatorDefect? (idx : Nat) : List (Operator × Contribution) → Option Malformed
  | [] => none
  | (op, c) :: rest =>
    match op.defect? idx c.values.length with
    | some m => some m
    | none => operatorDefect? (idx + 1) rest

namespace Histogram

/-- the first defect of a histogram -/
def defect? (h : Histogram) : Option Malformed :=
  if h.space.isEmpty then some (.emptySpace h.name)
  else if h.contributions.length ≠ h.operators.length then
    some (.contributions h.name h.operators.length h.contributions.length)
  else operatorDefect? 0 (h.operators.zip h.contributions)

/-- whether the counts of a histogram fit together -/
def validate (h : Histogram) : Except (Located Malformed) Unit :=
  match h.defect? with
  | some m => .error ⟨m, h.origin⟩
  | none => .ok ()

theorem validate_eq_ok_iff (h : Histogram) : h.validate = .ok () ↔ h.defect? = none := by
  unfold validate
  cases h.defect? <;> simp

end Histogram

end GpuHistogram
