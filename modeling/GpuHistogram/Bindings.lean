/-
Finite maps from names. `set` replaces the binding of a name or adds one at the end, so a name is bound at most once
and the order of the bindings is the order in which the names were first bound.

The view is `get?`: `get?_set` and `get?_erase` say what the operations do to it.
-/
import GpuHistogram.Name

namespace GpuHistogram

/-- the bound names with their values, in the order of their first binding -/
structure Bindings (β : Type) where
  entries : List (Name × β) := []
  deriving Inhabited

namespace Bindings

variable {β : Type}

/-- the map that binds nothing -/
def empty : Bindings β := ⟨[]⟩

instance : EmptyCollection (Bindings β) := ⟨empty⟩

/-- the first value paired with a name -/
def find? (n : Name) : List (Name × β) → Option β
  | [] => none
  | (m, v) :: rest => if m = n then some v else find? n rest

/-- the value of a name -/
def get? (b : Bindings β) (n : Name) : Option β :=
  find? n b.entries

/-- whether a name is bound -/
def contains (b : Bindings β) (n : Name) : Bool :=
  (b.get? n).isSome

/-- replace the first pair of a name, or add one at the end -/
def put (n : Name) (v : β) : List (Name × β) → List (Name × β)
  | [] => [(n, v)]
  | (m, w) :: rest => if m = n then (n, v) :: rest else (m, w) :: put n v rest

/-- bind a name -/
def set (b : Bindings β) (n : Name) (v : β) : Bindings β :=
  ⟨put n v b.entries⟩

/-- unbind a name -/
def erase (b : Bindings β) (n : Name) : Bindings β :=
  ⟨b.entries.filter fun e => e.1 ≠ n⟩

/-- the bindings in the order of the names -/
def sorted (b : Bindings β) : List (Name × β) :=
  b.entries.mergeSort fun x y => x.1.compare y.1 ≠ .gt

theorem find?_put (n m : Name) (v : β) (l : List (Name × β)) :
    find? m (put n v l) = if n = m then some v else find? m l := by
  induction l with
  | nil => by_cases h : n = m <;> simp [put, find?, h]
  | cons e l ih =>
    obtain ⟨k, w⟩ := e
    by_cases hk : k = n
    · subst hk
      by_cases h : k = m <;> simp [put, find?, h]
    · by_cases h : k = m
      · subst h
        have hn : ¬ n = k := fun h => hk h.symm
        simp [put, find?, hk, hn]
      · simp [put, find?, hk, h, ih]

@[simp] theorem get?_set (b : Bindings β) (n m : Name) (v : β) :
    (b.set n v).get? m = if n = m then some v else b.get? m :=
  find?_put n m v b.entries

@[simp] theorem get?_empty (n : Name) : (empty : Bindings β).get? n = none := rfl

theorem find?_filter_ne (n m : Name) (l : List (Name × β)) :
    find? m (l.filter fun e => e.1 ≠ n) = if n = m then none else find? m l := by
  induction l with
  | nil => simp [find?]
  | cons e l ih =>
    obtain ⟨k, w⟩ := e
    by_cases hk : k = n
    · subst hk
      by_cases h : k = m <;> simp_all [List.filter, find?]
    · by_cases h : k = m
      · subst h
        have hn : ¬ n = k := fun h => hk h.symm
        simp [List.filter, find?, hk, hn]
      · simp_all [List.filter, find?]

@[simp] theorem get?_erase (b : Bindings β) (n m : Name) :
    (b.erase n).get? m = if n = m then none else b.get? m :=
  find?_filter_ne n m b.entries

end Bindings

end GpuHistogram
