/-
Where a histogram is accumulated. In local memory, every group keeps as many copies as the local memory that its threads
may use pays for, if that many copies and the locks fit; otherwise the copies are kept in global memory. A histogram
without buckets needs no code.

The decision is made here on numbers (`choose?`), for sizes known in advance, and as an expression for the host
(`localFits`). Quotients are `none` where the division of 64-bit words has no result.
-/
import GpuHistogram.Code.Build
import GpuHistogram.Scalar.Word64

namespace GpuHistogram

/-- where a histogram is accumulated -/
inductive Placement where
  | skip
  | localMemory (copies : Int)
  | globalMemory
  deriving DecidableEq, Inhabited

namespace Placement

/-- the quotient of words rounded up; none for a division by zero and for the one quotient that is no word -/
def divUp? (n d : Int) : Option Int :=
  if d = 0 ∨ (n = Word64.least ∧ d = -1) then none
  else
    let q := n.tdiv d
    some (if n.tmod d ≠ 0 ∧ (n < 0 ↔ d < 0) then q + 1 else q)

/-- the threads it takes to hold one histogram when each has so many bytes -/
def cooperation? (histBytes threadBytes : Int) : Option Int :=
  divUp? histBytes threadBytes

/-- the histograms that the local memory of a group pays for -/
def localCopies? (groupSize threadBytes histBytes : Int) : Option Int :=
  divUp? (Word64.saturate (groupSize * threadBytes)) histBytes

/-- what the decision rests on, in bytes but for the size of a group -/
structure Costs where
  histBytes : Int
  groupSize : Int
  threadBytes : Int
  maxLocalMemory : Int
  lockBytes : Int
  deriving DecidableEq, Inhabited

/-- the bytes of so many histograms and the locks, if they are a word -/
def Costs.required? (c : Costs) (copies : Int) : Option Int := do
  let bytes ← Word64.checked? (c.histBytes * copies)
  Word64.checked? (bytes + c.lockBytes)

/-- the decision -/
def choose? (c : Costs) : Option Placement :=
  if c.histBytes = 0 then some skip
  else if c.threadBytes ≤ 0 ∨ c.groupSize ≤ 0 then some globalMemory
  else do
    let threads ← cooperation? c.histBytes c.threadBytes
    let copies ← localCopies? c.groupSize c.threadBytes c.histBytes
    match c.required? copies with
    | some bytes => return if bytes ≤ c.maxLocalMemory ∧ threads ≤ c.groupSize then localMemory copies else globalMemory
    | none => return globalMemory

/-- the histograms that the local memory of a group pays for, as an expression -/
def localCopies (groupSize threadBytes histBytes : Expr) : Expr :=
  .ceilDiv (groupSize * threadBytes) histBytes

/-- whether to accumulate in local memory, for a histogram with buckets, as an expression -/
def localFits (histBytes groupSize threadBytes maxLocalMemory lockBytes : Expr) : Expr :=
  let copies := localCopies groupSize threadBytes histBytes
  let threads := Expr.ceilDiv histBytes threadBytes
  let fits := (lockBytes + histBytes * copies).le maxLocalMemory
  let positive := (threadBytes.gt 0).and (groupSize.gt 0)
  positive.and (fits.and (threads.le groupSize))

theorem divUp?_of_pos {n d : Int} (h : 0 < d) : ∃ q, divUp? n d = some q := by
  unfold divUp?
  rw [if_neg (by omega)]
  exact ⟨_, rfl⟩

end Placement

end GpuHistogram
