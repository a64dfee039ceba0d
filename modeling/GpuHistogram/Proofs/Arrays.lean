/-
Arrays as they are read and stored by name. `m.Has n p b` says that the array `n` is the buffer `b` at place `p`. From
it follows what reading and storing does (`read_run`, `write_run`), and `Memory.Keeps` says what a change leaves alone:
all names, the element type and length of every buffer, and every buffer but those of the arrays named.
-/
import GpuHistogram.Machine.Memory
import Mathlib.Data.List.Basic
import Mathlib.Tactic.Common

namespace GpuHistogram

namespace Buffer

/-- the buffer with one element replaced by a value cast to its type -/
def put (b : Buffer) (k : ℕ) (v : Value) : Buffer :=
  ⟨b.elem, b.cells.setIfInBounds k (v.convert b.elem)⟩

@[simp] theorem elem_put (b : Buffer) (k : ℕ) (v : Value) : (b.put k v).elem = b.elem := rfl

@[simp] theorem size_put (b : Buffer) (k : ℕ) (v : Value) : (b.put k v).cells.size = b.cells.size := by
  simp [put]

theorem store_singleton (b : Buffer) (k : ℕ) (v : Value) : b.store k [v] = b.put k v := rfl

theorem getElem?_put (b : Buffer) (k j : ℕ) (v : Value) (hk : k < b.cells.size) :
    (b.put k v).cells[j]? = if j = k then some (v.convert b.elem) else b.cells[j]? := by
  simp only [put, Array.getElem?_setIfInBounds, hk, if_true, eq_comm]

end Buffer

namespace Memory

variable {m m' m'' : Memory} {n : Name} {p : ℕ} {b : Buffer}

theorem change_run {α β : Type} {check : Memory → Except MemoryError α} {update : α → Memory → β × Memory} {a : α}
    (h : check m = .ok a) : change check update m = .ok (update a m).1 (update a m).2 := by
  unfold change
  simp only [h]

theorem change_eq_ok {α β : Type} {check : Memory → Except MemoryError α} {update : α → Memory → β × Memory} {r : β}
    (h : change check update m = .ok r m') : ∃ a, check m = .ok a ∧ update a m = (r, m') := by
  unfold change at h
  cases ha : check m with
  | ok a =>
    simp only [ha, EStateM.Result.ok.injEq] at h
    exact ⟨a, rfl, Prod.ext h.1 h.2⟩
  | error e => simp only [ha, reduceCtorEq] at h

/-- the array of a name is the buffer at a place -/
structure Has (m : Memory) (n : Name) (p : ℕ) (b : Buffer) : Prop where
  name : m.names.get? n = some p
  buffer : m.buffers[p]? = some b

theorem Has.lookup_eq (h : m.Has n p b) : m.lookup n = .ok ⟨p, b⟩ := by
  simp only [lookup, h.name, h.buffer]

theorem Has.of_lookup {f : Found} (h : m.lookup n = .ok f) : m.Has n f.place f.buffer := by
  unfold lookup at h
  split at h
  · rename_i p hp
    split at h
    · rename_i b hb
      cases h
      exact ⟨hp, hb⟩
    · cases h
  · cases h

theorem Has.unique {p' : ℕ} {b' : Buffer} (h : m.Has n p b) (h' : m.Has n p' b') : p = p' ∧ b = b' := by
  obtain rfl : p = p' := Option.some.inj (h.name.symm.trans h'.name)
  exact ⟨rfl, Option.some.inj (h.buffer.symm.trans h'.buffer)⟩

theorem Has.contains (h : m.Has n p b) : m.contains n = true := by
  unfold Memory.contains Bindings.contains
  rw [h.name]
  rfl

theorem Has.locate {k : ℕ} (h : m.Has n p b) (hk : k < b.cells.size) : m.locate n k = .ok (p, k) := by
  unfold Memory.locate
  rw [h.lookup_eq]
  change (Except.bind (checkIndex n b.cells.size k) fun j => .ok (p, j)) = _
  rw [checkIndex, if_pos (by omega)]
  rfl

theorem Has.cell_eq (h : m.Has n p b) {k : ℕ} (hk : k < b.cells.size) : m.cell p k = b.cells[k] := by
  simp [cell, h.buffer, hk]

/-- reading an element within the length -/
theorem Has.read_run {k : ℕ} (h : m.Has n p b) (hk : k < b.cells.size) : m.read n k = .ok b.cells[k] := by
  unfold Memory.read
  rw [h.locate hk]
  change Except.ok (m.cell p k) = _
  rw [h.cell_eq hk]

theorem getElem?_store (m : Memory) (p q start : ℕ) (l : List Value) :
    (m.store p start l).buffers[q]? = if p = q then (m.buffers[q]?).map (·.store start l) else m.buffers[q]? := by
  simp only [store, Array.getElem?_modify]

@[simp] theorem names_store (m : Memory) (p start : ℕ) (l : List Value) : (m.store p start l).names = m.names := rfl

@[simp] theorem size_store (m : Memory) (p start : ℕ) (l : List Value) :
    (m.store p start l).buffers.size = m.buffers.size := by
  simp [store]

theorem Has.store {q start : ℕ} {l : List Value} (h : m.Has n p b) :
    (m.store q start l).Has n p (if q = p then b.store start l else b) := by
  refine ⟨h.name, ?_⟩
  rw [getElem?_store, h.buffer]
  split <;> rfl

/-- the memory after an element is stored -/
def put (m : Memory) (p k : ℕ) (v : Value) : Memory := m.store p k [v]

/-- storing an element within the length -/
theorem Has.write_run {k : ℕ} {v : Value} (h : m.Has n p b) (hk : k < b.cells.size) :
    Memory.write n k v m = .ok b.cells[k] (m.put p k v) := by
  unfold Memory.write
  rw [change_run (h.locate hk)]
  change EStateM.Result.ok (m.cell p k) (m.store p k [v]) = _
  rw [h.cell_eq hk]
  rfl

theorem Has.of_locate {k : Int} {a : ℕ × ℕ} (h : m.locate n k = .ok a) :
    ∃ b, m.Has n a.1 b ∧ a.2 < b.cells.size ∧ (a.2 : Int) = k := by
  unfold Memory.locate at h
  cases hf : m.lookup n with
  | error e => rw [hf] at h; cases h
  | ok f =>
    rw [hf] at h
    change (Except.bind (checkIndex n f.buffer.cells.size k) fun j => .ok (f.place, j)) = _ at h
    cases hj : checkIndex n f.buffer.cells.size k with
    | error e => rw [hj] at h; cases h
    | ok j =>
      rw [hj] at h
      cases h
      exact ⟨f.buffer, .of_lookup hf, checkIndex_eq_ok hj⟩

theorem Has.put_self {k : ℕ} {v : Value} (h : m.Has n p b) : (m.put p k v).Has n p (b.put k v) := by
  have : (m.store p k [v]).Has n p _ := h.store
  rwa [if_pos rfl] at this

theorem Has.put_other {q k : ℕ} {v : Value} (h : m.Has n p b) (hq : q ≠ p) : (m.put q k v).Has n p b := by
  have : (m.store q k [v]).Has n p _ := h.store
  rwa [if_neg hq] at this

theorem write_eq_ok {k : Int} {v old : Value} (h : Memory.write n k v m = .ok old m') :
    ∃ p j, m.names.get? n = some p ∧ m' = m.put p j v := by
  obtain ⟨a, ha, hu⟩ := change_eq_ok h
  obtain ⟨b, hb, -⟩ := Has.of_locate ha
  exact ⟨a.1, a.2, hb.name, (congrArg Prod.snd hu).symm⟩

/-- what a change leaves alone that stores to no other arrays than the named ones -/
structure Keeps (W : List Name) (m m' : Memory) : Prop where
  names : m'.names = m.names
  size : m'.buffers.size = m.buffers.size
  shape : ∀ {p : ℕ} {b : Buffer}, m.buffers[p]? = some b →
    ∃ b' : Buffer, m'.buffers[p]? = some b' ∧ b'.elem = b.elem ∧ b'.cells.size = b.cells.size
  rest : ∀ {p : ℕ}, (∀ n ∈ W, m.names.get? n ≠ some p) → m'.buffers[p]? = m.buffers[p]?

theorem Keeps.refl (W : List Name) (m : Memory) : Keeps W m m :=
  ⟨rfl, rfl, fun {_ b} h => ⟨b, h, rfl, rfl⟩, fun _ => rfl⟩

theorem Keeps.trans {W : List Name} (h : Keeps W m m') (h' : Keeps W m' m'') : Keeps W m m'' where
  names := h'.names.trans h.names
  size := h'.size.trans h.size
  shape := fun hb => by
    obtain ⟨b', hb', he, hs⟩ := h.shape hb
    obtain ⟨b'', hb'', he', hs'⟩ := h'.shape hb'
    exact ⟨b'', hb'', he'.trans he, hs'.trans hs⟩
  rest := fun hp => by
    rw [h'.rest (by rw [h.names]; exact hp), h.rest hp]

theorem Keeps.contains_eq {W : List Name} (h : Keeps W m m') (n : Name) : m'.contains n = m.contains n := by
  unfold Memory.contains
  rw [h.names]

theorem Keeps.mono {W W' : List Name} (h : Keeps W m m') (hW : W ⊆ W') : Keeps W' m m' :=
  ⟨h.names, h.size, h.shape, fun hp => h.rest fun n hn => hp n (hW hn)⟩

theorem Keeps.write {k : Int} {v old : Value} {W : List Name} (h : Memory.write n k v m = .ok old m') (hn : n ∈ W) :
    Keeps W m m' := by
  obtain ⟨p, j, hp, rfl⟩ := write_eq_ok h
  refine ⟨rfl, size_store _ _ _ _, fun {q b} hb => ?_, fun {q} hq => ?_⟩
  · simp only [put, getElem?_store, hb]
    split
    · exact ⟨_, rfl, Buffer.elem_put b j v, Buffer.size_put b j v⟩
    · exact ⟨b, rfl, rfl, rfl⟩
  · simp only [put, getElem?_store]
    rw [if_neg]
    rintro rfl
    exact hq n hn hp

/-- the name refers to no buffer that one of the arrays `W` refers to -/
def Apart (m : Memory) (W : List Name) (n : Name) : Prop :=
  ∀ w ∈ W, ∀ p, m.names.get? n = some p → m.names.get? w ≠ some p

theorem Apart.keeps {W W' : List Name} (h : m.Apart W n) (hk : Keeps W' m m') : m'.Apart W n := by
  unfold Apart
  rw [hk.names]
  exact h

theorem Apart.mono {W W' : List Name} (h : m.Apart W n) (hW : W' ⊆ W) : m.Apart W' n :=
  fun w hw => h w (hW hw)

/-- an array that is stored to under none of the names stays as it is -/
theorem Keeps.has {W : List Name} (h : Keeps W m m') (hb : m.Has n p b) (hW : m.Apart W n) : m'.Has n p b :=
  ⟨by rw [h.names, hb.name], by rw [h.rest fun w hw => hW w hw p hb.name, hb.buffer]⟩

theorem Apart.read_eq {W : List Name} (h : m.Apart W n) (hk : Keeps W m m') (i : Int) : m'.read n i = m.read n i := by
  have hl : m'.lookup n = m.lookup n := by
    unfold lookup
    rw [hk.names]
    cases hp : m.names.get? n with
    | none => rfl
    | some p => simp only [hk.rest fun w hw => h w hw p hp]
  unfold Memory.read Memory.locate
  rw [hl]
  cases hf : m.lookup n with
  | error e => rfl
  | ok a =>
    have hp := (Has.of_lookup hf).name
    have hcell : ∀ k, m'.cell a.place k = m.cell a.place k := by
      intro k
      unfold cell
      rw [hk.rest fun w hw => h w hw a.place hp]
    change (Except.bind (Except.bind (checkIndex n a.buffer.cells.size i) fun k => .ok (a.place, k))
      fun r => .ok (m'.cell r.1 r.2)) = Except.bind (Except.bind (checkIndex n a.buffer.cells.size i)
      fun k => .ok (a.place, k)) fun r => .ok (m.cell r.1 r.2)
    cases checkIndex n a.buffer.cells.size i with
    | error e => rfl
    | ok k => exact congrArg Except.ok (hcell k)

/-! ## The content of an array -/

/-- the array has so many elements of a type, the ones that `g` gives -/
def Column (m : Memory) (n : Name) (sc : Scalar) (len : ℕ) (g : ℕ → Value) : Prop :=
  ∃ p b, m.Has n p b ∧ b.elem = sc ∧ b.cells.size = len ∧ ∀ k < len, b.cells[k]? = some (g k)

variable {sc : Scalar} {len : ℕ} {g : ℕ → Value}

theorem Column.read_run (h : m.Column n sc len g) {k : ℕ} (hk : k < len) : m.read n k = .ok (g k) := by
  obtain ⟨p, b, hb, -, hs, hg⟩ := h
  have hlt : k < b.cells.size := by omega
  have hcell := hg k hk
  rw [Array.getElem?_eq_getElem hlt, Option.some.injEq] at hcell
  rw [hb.read_run hlt, hcell]

theorem Column.congr {g' : ℕ → Value} (h : m.Column n sc len g) (hg : ∀ k < len, g k = g' k) :
    m.Column n sc len g' := by
  obtain ⟨p, b, hb, he, hs, hcells⟩ := h
  exact ⟨p, b, hb, he, hs, fun k hk => by rw [hcells k hk, hg k hk]⟩

theorem Column.length_unique {sc' : Scalar} {len' : ℕ} {g' : ℕ → Value} (h : m.Column n sc len g)
    (h' : m.Column n sc' len' g') : len = len' := by
  obtain ⟨p, b, hb, -, hs, -⟩ := h
  obtain ⟨p', b', hb', -, hs', -⟩ := h'
  rw [← hs, ← hs', (hb.unique hb').2]

theorem Column.unique {sc' : Scalar} {len' : ℕ} {g' : ℕ → Value} (h : m.Column n sc len g)
    (h' : m.Column n sc' len' g') {k : ℕ} (hk : k < len) : g k = g' k := by
  have hread := h'.read_run (h.length_unique h' ▸ hk)
  rw [h.read_run hk, Except.ok.injEq] at hread
  exact hread

theorem Column.keeps {W : List Name} (h : m.Column n sc len g) (hk : Keeps W m m') (hW : m.Apart W n) :
    m'.Column n sc len g := by
  obtain ⟨p, b, hb, he, hs, hg⟩ := h
  exact ⟨p, b, hk.has hb hW, he, hs, hg⟩

/-- an array has the content of its buffer -/
theorem Has.column (h : m.Has n p b) : m.Column n b.elem b.cells.size fun k => b.cells[k]?.getD default :=
  ⟨p, b, h, rfl, rfl, fun k hk => by simp [hk]⟩

/-- what is known of an array is known of its aliases -/
theorem Column.alias {w : Name} (h : m.Column n sc len g) (hn : m.names.get? w = m.names.get? n) :
    m.Column w sc len g := by
  obtain ⟨p, b, hb, he, hs, hg⟩ := h
  exact ⟨p, b, ⟨hn.trans hb.name, hb.buffer⟩, he, hs, hg⟩

/-- reading at an index gives the same from two arrays of one length that have the same content there -/
theorem Column.read_congr {g' : ℕ → Value} {i : Int} (h : m.Column n sc len g) (h' : m'.Column n sc len g')
    (hg : ∀ k < len, (k : Int) = i → g k = g' k) : m.read n i = m'.read n i := by
  by_cases hi : 0 ≤ i ∧ i < len
  · obtain ⟨k, rfl⟩ := Int.eq_ofNat_of_zero_le hi.1
    have hk : k < len := by omega
    rw [h.read_run hk, h'.read_run hk, hg k hk rfl]
  · have hfails {m : Memory} {g : ℕ → Value} (h : m.Column n sc len g) : m.read n i = .error (.badIndex n len i) := by
      obtain ⟨p, b, hb, -, hs, -⟩ := h
      unfold Memory.read Memory.locate
      rw [hb.lookup_eq]
      change Except.bind (Except.bind (checkIndex n b.cells.size i) fun k => .ok (p, k)) _ = _
      rw [checkIndex, hs, if_neg hi]
      rfl
    rw [hfails h, hfails h']

/-- storing an element changes the content at its index -/
theorem Column.write (h : m.Column n sc len g) {k : ℕ} (hk : k < len) (v : Value) :
    ∃ m', Memory.write n k v m = .ok (g k) m' ∧ m'.Column n sc len (Function.update g k (v.convert sc)) := by
  obtain ⟨p, b, hb, he, hs, hg⟩ := h
  have hlt : k < b.cells.size := by omega
  have hcell := hg k hk
  rw [Array.getElem?_eq_getElem hlt, Option.some.injEq] at hcell
  refine ⟨m.put p k v, hcell ▸ hb.write_run hlt, p, b.put k v, hb.put_self, he, by simp [hs], fun j hj => ?_⟩
  rw [Buffer.getElem?_put b k j v hlt, he]
  by_cases hjk : j = k
  · subst hjk
    simp
  · rw [if_neg hjk, hg j hj, Function.update_of_ne hjk]

end Memory

end GpuHistogram
