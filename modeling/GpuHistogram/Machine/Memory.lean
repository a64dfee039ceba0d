/-
The arrays of a running program. Memory is a table of buffers, and names refer to buffers by their place in it: two names
of one place are aliases, and what is stored through one is seen through the other. A buffer keeps its element type and
its length for good, and what is stored is cast to the element type.

Reading never changes memory. A change either happens as a whole or fails and leaves memory as it was; the changes are
`Memory.Change`s, which also give back the memory when they fail.
-/
import GpuHistogram.Bindings
import GpuHistogram.Scalar.Value

namespace GpuHistogram

/-- the elements of an array, all of one type -/
structure Buffer where
  elem : Scalar
  cells : Array Value
  deriving Inhabited

namespace Buffer

/-- a buffer of zeros -/
def zeros (elem : Scalar) (count : Nat) : Buffer :=
  ⟨elem, Array.replicate count (.zero elem)⟩

/-- a buffer of values cast to its element type -/
def ofValues (elem : Scalar) (values : List Value) : Buffer :=
  ⟨elem, (values.map (·.convert elem)).toArray⟩

/-- store values one after the other, cast to the element type -/
def store (b : Buffer) (start : Nat) : List Value → Buffer
  | [] => b
  | v :: rest => store ⟨b.elem, b.cells.setIfInBounds start (v.convert b.elem)⟩ (start + 1) rest

theorem elem_store (b : Buffer) (start : Nat) (l : List Value) : (b.store start l).elem = b.elem := by
  induction l generalizing b start with
  | nil => rfl
  | cons v l ih => exact ih _ _

theorem size_store (b : Buffer) (start : Nat) (l : List Value) : (b.store start l).cells.size = b.cells.size := by
  induction l generalizing b start with
  | nil => rfl
  | cons v l ih => simp [store, ih]

end Buffer

/-- the buffers of a program, and the buffer that each array name refers to -/
structure Memory where
  buffers : Array Buffer := #[]
  names : Bindings Nat := ∅
  deriving Inhabited

/-- why memory could not be read or changed -/
inductive MemoryError where
  | unknown (n : Name)
  | freeUnknown (n : Name)
  | badIndex (n : Name) (length : Nat) (idx : Int)
  | badRange (n : Name) (length : Nat) (offset count : Int)
  deriving DecidableEq

/-- the text of a memory error -/
def MemoryError.message : MemoryError → String
  | .unknown n => s!"Reference to unknown array {n}"
  | .freeUnknown n => s!"Cannot free unknown array {n}"
  | .badIndex n length idx => s!"Index {idx} out of bounds of array {n} of length {length}"
  | .badRange n length offset count =>
    s!"Range of {count} elements at offset {offset} out of bounds of array {n} of length {length}"

namespace Memory

/-- a change of memory with a result, which gives the memory back also when it fails -/
abbrev Change := EStateM MemoryError Memory

/-- an array whose name has just been looked up: its place and its buffer -/
structure Found where
  place : Nat
  buffer : Buffer

/-- the buffer of an array -/
def lookup (m : Memory) (n : Name) : Except MemoryError Found :=
  match m.names.get? n with
  | some place =>
    match m.buffers[place]? with
    | some b => .ok ⟨place, b⟩
    | none => .error (.unknown n)
  | none => .error (.unknown n)

def contains (m : Memory) (n : Name) : Bool :=
  m.names.contains n

/-- an index within the length of an array -/
def checkIndex (n : Name) (length : Nat) (idx : Int) : Except MemoryError Nat :=
  if 0 ≤ idx ∧ idx < length then .ok idx.toNat else .error (.badIndex n length idx)

/-- a range within the length of an array, as its offset and its count -/
def checkRange (n : Name) (length : Nat) (offset count : Int) : Except MemoryError (Nat × Nat) :=
  if 0 ≤ count ∧ 0 ≤ offset ∧ offset + count ≤ length then .ok (offset.toNat, count.toNat)
  else .error (.badRange n length offset count)

/-- the place of an array and an index within it -/
def locate (m : Memory) (n : Name) (idx : Int) : Except MemoryError (Nat × Nat) := do
  let f ← m.lookup n
  return (f.place, ← checkIndex n f.buffer.cells.size idx)

/-- the place of an array and a range within it -/
def locateRange (m : Memory) (n : Name) (offset count : Int) : Except MemoryError (Nat × Nat × Nat) := do
  let f ← m.lookup n
  return (f.place, ← checkRange n f.buffer.cells.size offset count)

/-- the element at an index of the buffer at a place -/
def cell (m : Memory) (place k : Nat) : Value :=
  ((m.buffers[place]?.bind fun b => b.cells[k]?)).getD default

/-- the element at an index of an array -/
def read (m : Memory) (n : Name) (idx : Int) : Except MemoryError Value := do
  let (place, k) ← m.locate n idx
  return m.cell place k

/-- the element type of an array -/
def elem (m : Memory) (n : Name) : Except MemoryError Scalar :=
  return (← m.lookup n).buffer.elem

/-- all elements of an array -/
def values (m : Memory) (n : Name) : Except MemoryError (List Value) :=
  return (← m.lookup n).buffer.cells.toList

/-- store values in the buffer at a place -/
def store (m : Memory) (place start : Nat) (l : List Value) : Memory :=
  { m with buffers := m.buffers.modify place (·.store start l) }

/-- let a name refer to a new buffer -/
def insert (m : Memory) (n : Name) (b : Buffer) : Memory :=
  { buffers := m.buffers.push b, names := m.names.set n m.buffers.size }

/-- change memory by a check that may fail and an update that may not -/
@[inline] def change {α β : Type} (check : Memory → Except MemoryError α) (update : α → Memory → β × Memory) : Change β :=
  fun m =>
    match check m with
    | .ok a =>
      let r := update a m
      .ok r.1 r.2
    | .error e => .error e m

/-- let a name refer to the buffer of another -/
def rebind (dst src : Name) : Change Unit :=
  change (fun m => return (← m.lookup src).place) fun place m => ((), { m with names := m.names.set dst place })

/-- let a name refer to nothing -/
def remove (n : Name) : Change Unit :=
  change (fun m => if m.contains n then .ok () else .error (.freeUnknown n)) fun _ m =>
    ((), { m with names := m.names.erase n })

/-- store a value at an index of an array; the result is the value stored before -/
def write (n : Name) (idx : Int) (v : Value) : Change Value :=
  change (fun m => m.locate n idx) fun (place, k) m =>
    let old := m.cell place k
    (old, m.store place k [v])

/-- store one value at all indices of a range -/
def fill (n : Name) (offset count : Int) (v : Value) : Change Unit :=
  change (fun m => m.locateRange n offset count) fun (place, start, k) m =>
    ((), m.store place start (List.replicate k v))

/-- the elements of a range of an array -/
def readRange (m : Memory) (n : Name) (offset count : Int) : Except MemoryError (List Value) := do
  let f ← m.lookup n
  let (start, k) ← checkRange n f.buffer.cells.size offset count
  return (f.buffer.cells.extract start (start + k)).toList

/-- store the elements of one range in another; they are all read before the first is stored -/
def copy (dst : Name) (dstOffset : Int) (src : Name) (srcOffset count : Int) : Change Unit :=
  change (fun m => do
      let values ← m.readRange src srcOffset count
      let (place, start, _) ← m.locateRange dst dstOffset count
      return (values, place, start))
    fun (values, place, start) m => ((), m.store place start values)

theorem run_change_error {α β : Type} {check : Memory → Except MemoryError α} {update : α → Memory → β × Memory}
    {m m' : Memory} {e : MemoryError} (h : (change check update).run m = .error e m') : m' = m := by
  simp only [change, EStateM.run] at h
  split at h
  · cases h
  · cases h
    rfl

theorem checkIndex_eq_ok {n : Name} {length k : Nat} {idx : Int} (h : checkIndex n length idx = .ok k) :
    k < length ∧ (k : Int) = idx := by
  unfold checkIndex at h
  split at h
  · cases h
    omega
  · cases h

end Memory

end GpuHistogram
