/-
What kernels use of the prelude. A helper is a function of the prelude made for one element type: a mathematical function,
a cast of bits, or an atomic operation in one address space. Only the helpers in use are defined, since a device may
refuse a program for a mention of something it lacks.

`Features` are sets; they are kept as lists in the order in which the prelude defines things, so that equal sets are equal
lists.
-/
import GpuHistogram.Scalar.Basic
import GpuHistogram.Scalar.Operator

namespace GpuHistogram

namespace Source

/-- mathematical functions -/
inductive MathFunction where
  | abs
  | exp
  | log
  | sqrt
  | max
  | min
  deriving DecidableEq, Inhabited

namespace MathFunction

/-- all mathematical functions in their order -/
def all : List MathFunction := [abs, exp, log, sqrt, max, min]

def rank : MathFunction → Nat
  | abs => 0
  | exp => 1
  | log => 2
  | sqrt => 3
  | max => 4
  | min => 5

def text : MathFunction → String
  | abs => "abs"
  | exp => "exp"
  | log => "log"
  | sqrt => "sqrt"
  | max => "max"
  | min => "min"

/-- whether the function exists for floating-point numbers only -/
def needsFloat : MathFunction → Bool
  | exp | log | sqrt => true
  | _ => false

end MathFunction

/-- what happens to an element in one step: an operation, or a comparison and a swap -/
inductive AtomicStep where
  | update (op : Atomic)
  | compareSwap
  deriving DecidableEq, Inhabited

namespace AtomicStep

def rank : AtomicStep → Nat
  | update op => op.rank
  | compareSwap => 9

def text : AtomicStep → String
  | update op => op.text
  | compareSwap => "cas"

end AtomicStep

/-- the address spaces of atomic operations -/
inductive AtomicSpace where
  | global
  | group
  deriving DecidableEq, Inhabited

namespace AtomicSpace

def rank : AtomicSpace → Nat
  | global => 0
  | group => 1

def text : AtomicSpace → String
  | global => "global"
  | group => "local"

end AtomicSpace

/-- a function of the prelude made for one element type -/
inductive Helper where
  | math (f : MathFunction) (s : Scalar)
  | bitCast (source target : Scalar)
  | atomic (kind : AtomicStep) (s : Scalar) (space : AtomicSpace)
  deriving DecidableEq, Inhabited

namespace Helper

/-- the name that a helper is called by -/
def name : Helper → String
  | math f s => s!"{f.text}_{s.text}"
  | bitCast source target => s!"bitcast_{source.text}_{target.text}"
  | atomic kind s space => s!"atomic_{kind.text}_{s.text}_{space.text}"

/-- the place of a helper in the prelude: mathematical functions, casts, atomic operations -/
def rank : Helper → Nat
  | math f s => f.rank * 11 + s.rank
  | bitCast source target => 100 + source.rank * 11 + target.rank
  | atomic kind s space => 300 + (kind.rank * 11 + s.rank) * 2 + space.rank

end Helper

/-- add an element to a list that is ordered by rank, unless there is one of its rank -/
def insertRanked {α : Type} (rank : α → Nat) (a : α) : List α → List α
  | [] => [a]
  | b :: rest =>
    if rank a < rank b then a :: b :: rest
    else if rank a = rank b then b :: rest
    else b :: insertRanked rank a rest

/-- what is used of the prelude -/
structure Features where
  types : List Scalar := []
  helpers : List Helper := []
  /-- whether a kernel runs on a grid whose axes are exchanged -/
  permuted : Bool := false
  deriving DecidableEq, Inhabited

namespace Features

/-- the features after one more type is used -/
def useType (u : Features) (s : Scalar) : Features :=
  { u with types := insertRanked Scalar.rank s u.types }

/-- the features after one more helper is used -/
def useHelper (u : Features) (h : Helper) : Features :=
  { u with helpers := insertRanked Helper.rank h u.helpers }

end Features

theorem mem_insertRanked {α : Type} {rank : α → Nat} (inj : ∀ a b, rank a = rank b → a = b) (a x : α) (l : List α) :
    x ∈ insertRanked rank a l ↔ x = a ∨ x ∈ l := by
  induction l with
  | nil => simp [insertRanked]
  | cons b l ih =>
    unfold insertRanked
    split
    · simp
    · split
      · next h =>
        rw [inj a b h]
        simp
      · simp only [List.mem_cons, ih]
        exact or_left_comm

end Source

end GpuHistogram
