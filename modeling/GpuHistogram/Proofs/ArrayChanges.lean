/-
What a change of memory does as a whole. `ArrayOp` is any one operation on the arrays, `reached history` the memory after
any operations, failed ones included, and `m.array? n` the content that a name refers to. `ArrayOp.Possible` says when an
operation can be carried out and `ArrayOp.Effect` what it does then:

- `Stores`: a write, fill or copy keeps all names, replaces exactly the cells addressed, the same under every alias of the
  array, and leaves every other array alone;
- `Rebinds`: making, aliasing or freeing an array changes what one name refers to, and nothing else.

`ArrayOp.run_framed`: in any memory that can be reached an operation has its effect if it is possible, and otherwise fails and
leaves the memory as it was. The reason that the memory must be one that can be reached is `Rooted`: every name refers to
a buffer that is there.
-/
import GpuHistogram.Proofs.Buffers

namespace GpuHistogram.Memory

variable {m m' : Memory} {n x y : Name} {p : ℕ} {b : Buffer}

/-! ## Names and what they refer to -/

/-- the array that a name refers to -/
def array? (m : Memory) (n : Name) : Option Buffer :=
  (m.names.get? n).bind fun p => m.buffers[p]?

/-- two names refer to one array -/
def Alias (m : Memory) (x y : Name) : Prop :=
  ∃ p, m.names.get? x = some p ∧ m.names.get? y = some p

/-- every name refers to a buffer that is there -/
def Rooted (m : Memory) : Prop :=
  ∀ n p, m.names.get? n = some p → p < m.buffers.size

theorem array?_eq_some : m.array? n = some b ↔ ∃ p, m.Has n p b := by
  unfold array?
  rw [Option.bind_eq_some_iff]
  exact ⟨fun ⟨p, hp, hb⟩ => ⟨p, hp, hb⟩, fun ⟨p, h⟩ => ⟨p, h.name, h.buffer⟩⟩

theorem Has.array? (h : m.Has n p b) : m.array? n = some b := array?_eq_some.2 ⟨p, h⟩

/-- an array that shares no buffer with one that is stored to has the content of before -/
theorem Keeps.array?_eq {W : List Name} (h : Keeps W m m') (hW : m.Apart W n) : m'.array? n = m.array? n := by
  unfold array?
  rw [h.names]
  cases hp : m.names.get? n with
  | none => rfl
  | some p => exact h.rest fun w hw => hW w hw p hp

theorem Rooted.has (h : m.Rooted) (hp : m.names.get? n = some p) : ∃ b, m.Has n p b :=
  have hlt : p < m.buffers.size := h n p hp
  ⟨m.buffers[p], hp, Array.getElem?_eq_getElem hlt⟩

theorem Rooted.contains_iff (h : m.Rooted) : m.contains n = true ↔ ∃ b, m.array? n = some b := by
  rw [contains, Bindings.contains, Option.isSome_iff_exists]
  refine ⟨fun ⟨p, hp⟩ => ?_, fun ⟨b, hb⟩ => ?_⟩
  · obtain ⟨b, hb⟩ := h.has hp
    exact ⟨b, hb.array?⟩
  · obtain ⟨p, hb⟩ := array?_eq_some.1 hb
    exact ⟨p, hb.name⟩

/-- an array that is not there cannot be looked up -/
theorem lookup_eq_error (h : m.array? n = none) : m.lookup n = .error (.unknown n) := by
  cases hf : m.lookup n with
  | ok f => exact absurd ((Has.of_lookup hf).array?.symm.trans h) (by simp)
  | error e =>
    unfold lookup at hf
    split at hf
    · split at hf <;> cases hf
      rfl
    · cases hf
      rfl

/-! ## Operations -/

/-- an operation on the arrays -/
inductive ArrayOp where
  | insert (n : Name) (b : Buffer)
  | rebind (dst src : Name)
  | remove (n : Name)
  | write (n : Name) (idx : Int) (v : Value)
  | fill (n : Name) (offset count : Int) (v : Value)
  | copy (dst : Name) (dstOffset : Int) (src : Name) (srcOffset count : Int)

/-- the operation as a change of memory -/
def ArrayOp.run : ArrayOp → Change Unit
  | insert n b => fun m => .ok () (m.insert n b)
  | rebind dst src => Memory.rebind dst src
  | remove n => Memory.remove n
  | write n idx v => do
    let _ ← Memory.write n idx v
    return
  | fill n offset count v => Memory.fill n offset count v
  | copy dst dstOffset src srcOffset count => Memory.copy dst dstOffset src srcOffset count

/-- the memory after an operation, whether it fails or not -/
def after (m : Memory) (op : ArrayOp) : Memory :=
  match op.run m with
  | .ok _ m' => m'
  | .error _ m' => m'

/-- the memory after some operations, from the first to the last -/
def reached (history : List ArrayOp) : Memory :=
  history.foldl after {}

/-- the range lies within the array -/
def InRange (m : Memory) (n : Name) (offset count : Int) : Prop :=
  ∃ b, m.array? n = some b ∧ 0 ≤ offset ∧ 0 ≤ count ∧ offset + count ≤ b.cells.size

/-- when an operation can be carried out -/
def ArrayOp.Possible (m : Memory) : ArrayOp → Prop
  | insert _ _ => True
  | rebind _ src => ∃ b, m.array? src = some b
  | remove n => ∃ b, m.array? n = some b
  | write n idx _ => m.InRange n idx 1
  | fill n offset count _ => m.InRange n offset count
  | copy dst dstOffset src srcOffset count => m.InRange src srcOffset count ∧ m.InRange dst dstOffset count

/-- the cells of one array from a place on become the given values, cast to its element type; this is seen under every
name of the array, and all else is as it was -/
structure Stores (m m' : Memory) (n : Name) (start : ℕ) (values : List Value) : Prop where
  names : m'.names = m.names
  stored : ∀ x b, m.Alias x n → m.array? x = some b → ∃ b', m'.array? x = some b' ∧ b'.elem = b.elem ∧
    ∀ j, b'.cells[j]? =
      if start ≤ j ∧ j < start + values.length then (values[j - start]?).map (·.convert b.elem) else b.cells[j]?
  kept : ∀ x, ¬ m.Alias x n → m'.array? x = m.array? x

/-- no name but one refers to something else, and no other two names are aliases that were not, or are not that were -/
structure Rebinds (m m' : Memory) (n : Name) : Prop where
  kept : ∀ x ≠ n, m'.array? x = m.array? x
  aliases : ∀ x ≠ n, ∀ y ≠ n, (m'.Alias x y ↔ m.Alias x y)

/-- what an operation does that is carried out -/
def ArrayOp.Effect (m m' : Memory) : ArrayOp → Prop
  | insert n b => Rebinds m m' n ∧ m'.array? n = some b ∧ ∀ x ≠ n, ¬ m'.Alias x n
  | rebind dst src => Rebinds m m' dst ∧ m'.array? dst = m.array? src ∧ ∀ x ≠ dst, (m'.Alias x dst ↔ m.Alias x src)
  | remove n => Rebinds m m' n ∧ m'.array? n = none
  | write n idx v => Stores m m' n idx.toNat [v]
  | fill n offset count v => Stores m m' n offset.toNat (List.replicate count.toNat v)
  | copy dst dstOffset src srcOffset count =>
    ∃ b, m.array? src = some b ∧
      Stores m m' dst dstOffset.toNat ((b.cells.toList.drop srcOffset.toNat).take count.toNat)

/-! ## Storing -/

theorem checkRange_eq (n : Name) (length : ℕ) (offset count : Int) :
    checkRange n length offset count =
      if 0 ≤ offset ∧ 0 ≤ count ∧ offset + count ≤ length then .ok (offset.toNat, count.toNat)
      else .error (.badRange n length offset count) := by
  unfold checkRange
  simp only [and_left_comm]

/-- a range within an array is found, another is not -/
theorem locateRange_eq (m : Memory) (n : Name) (offset count : Int) :
    (m.InRange n offset count ∧ ∃ p b, m.Has n p b ∧ m.locateRange n offset count = .ok (p, offset.toNat, count.toNat)) ∨
      (¬ m.InRange n offset count ∧ ∃ e, m.locateRange n offset count = .error e) := by
  unfold locateRange
  cases hb : m.array? n with
  | none =>
    refine .inr ⟨fun ⟨b, hb', _⟩ => absurd (hb.symm.trans hb') (by simp), .unknown n, ?_⟩
    rw [lookup_eq_error hb]
    rfl
  | some b =>
    obtain ⟨p, hp⟩ := array?_eq_some.1 hb
    rw [hp.lookup_eq]
    change (_ ∧ ∃ p' b', _ ∧ (Except.bind (checkRange n b.cells.size offset count) fun r => .ok (p, r)) = _) ∨
      (_ ∧ ∃ e, (Except.bind (checkRange n b.cells.size offset count) fun r => .ok (p, r)) = _)
    rw [checkRange_eq]
    by_cases h : 0 ≤ offset ∧ 0 ≤ count ∧ offset + count ≤ b.cells.size
    · rw [if_pos h]
      exact .inl ⟨⟨b, hb, h⟩, p, b, hp, rfl⟩
    · rw [if_neg h]
      refine .inr ⟨fun ⟨b', hb', h'⟩ => h ?_, _, rfl⟩
      obtain rfl := Option.some.inj (hb.symm.trans hb')
      exact h'

/-- an index is a range of one -/
theorem locate_eq (m : Memory) (n : Name) (idx : Int) :
    (m.InRange n idx 1 ∧ ∃ p b, m.Has n p b ∧ m.locate n idx = .ok (p, idx.toNat)) ∨
      (¬ m.InRange n idx 1 ∧ ∃ e, m.locate n idx = .error e) := by
  cases ha : m.locate n idx with
  | error e =>
    refine .inr ⟨fun ⟨b, hb, h0, _, hlt⟩ => ?_, e, rfl⟩
    obtain ⟨p, hp⟩ := array?_eq_some.1 hb
    have hrun := hp.locate (k := idx.toNat) (by omega)
    rw [Int.toNat_of_nonneg h0, ha] at hrun
    cases hrun
  | ok a =>
    obtain ⟨b, hb, hlt, hk⟩ := Has.of_locate ha
    have hidx : a.2 = idx.toNat := by omega
    exact .inl ⟨⟨b, hb.array?, by omega⟩, a.1, b, hb, hidx ▸ rfl⟩

/-- reading a range gives the cells of the array in it -/
theorem readRange_eq (m : Memory) (n : Name) (offset count : Int) :
    (m.InRange n offset count ∧ ∃ b, m.array? n = some b ∧
        m.readRange n offset count = .ok ((b.cells.toList.drop offset.toNat).take count.toNat)) ∨
      (¬ m.InRange n offset count ∧ ∃ e, m.readRange n offset count = .error e) := by
  unfold readRange
  cases hb : m.array? n with
  | none =>
    refine .inr ⟨fun ⟨b, hb', _⟩ => absurd (hb.symm.trans hb') (by simp), .unknown n, ?_⟩
    rw [lookup_eq_error hb]
    rfl
  | some b =>
    obtain ⟨p, hp⟩ := array?_eq_some.1 hb
    rw [hp.lookup_eq]
    change (_ ∧ ∃ b', _ ∧ (Except.bind (checkRange n b.cells.size offset count) fun r =>
        .ok (b.cells.extract r.1 (r.1 + r.2)).toList) = _) ∨
      (_ ∧ ∃ e, (Except.bind (checkRange n b.cells.size offset count) fun r =>
        .ok (b.cells.extract r.1 (r.1 + r.2)).toList) = _)
    rw [checkRange_eq]
    by_cases h : 0 ≤ offset ∧ 0 ≤ count ∧ offset + count ≤ b.cells.size
    · rw [if_pos h]
      refine .inl ⟨⟨b, hb, h⟩, b, rfl, ?_⟩
      simp [Except.bind, List.extract_eq_take_drop]
    · rw [if_neg h]
      refine .inr ⟨fun ⟨b', hb', h'⟩ => h ?_, _, rfl⟩
      obtain rfl := Option.some.inj (hb.symm.trans hb')
      exact h'

/-- storing values in the buffer of an array, within its length -/
theorem Has.stores {start : ℕ} {l : List Value} (h : m.Has n p b) (hl : start + l.length ≤ b.cells.size) :
    Stores m (m.store p start l) n start l where
  names := rfl
  stored := fun x b' ⟨q, hx, hn⟩ hb' => by
    obtain rfl : p = q := Option.some.inj (h.name.symm.trans hn)
    have hx' : m.Has x p b := ⟨hx, h.buffer⟩
    obtain rfl := Option.some.inj (hx'.array?.symm.trans hb')
    have hstored : (m.store p start l).Has x p (if p = p then b.store start l else b) := hx'.store
    rw [if_pos rfl] at hstored
    exact ⟨_, hstored.array?, b.elem_store start l, Buffer.getElem?_store b start l hl⟩
  kept := fun x hx => by
    unfold Memory.array?
    rw [names_store]
    cases hq : m.names.get? x with
    | none => rfl
    | some q =>
      have hne : p ≠ q := by
        rintro rfl
        exact hx ⟨p, hq, h.name⟩
      rw [Option.bind_some, Option.bind_some, getElem?_store, if_neg hne]

/-! ## Naming -/

theorem rebinds_of_names (hn : ∀ x ≠ n, m'.names.get? x = m.names.get? x)
    (hb : ∀ x ≠ n, ∀ p, m.names.get? x = some p → m'.buffers[p]? = m.buffers[p]?) : Rebinds m m' n where
  kept := fun x hx => by
    unfold array?
    rw [hn x hx]
    cases hp : m.names.get? x with
    | none => rfl
    | some p => exact hb x hx p hp
  aliases := fun x hx y hy => by rw [Alias, Alias, hn x hx, hn y hy]

theorem insert_effect (h : m.Rooted) (n : Name) (b : Buffer) : ArrayOp.Effect m (m.insert n b) (.insert n b) := by
  have hget (x : Name) : (m.insert n b).names.get? x = if n = x then some m.buffers.size else m.names.get? x :=
    Bindings.get?_set ..
  refine ⟨rebinds_of_names (fun x hx => by rw [hget, if_neg hx.symm]) fun x _ p hp => ?_, Has.array? (p := m.buffers.size)
    ⟨by rw [hget, if_pos rfl], by simp [Memory.insert]⟩, fun x hx ⟨p, hp, hp'⟩ => ?_⟩
  · rw [Memory.insert, Array.getElem?_push, if_neg (h x p hp).ne]
  · rw [hget, if_neg hx.symm] at hp
    rw [hget, if_pos rfl] at hp'
    obtain rfl := Option.some.inj hp'
    exact absurd (h x _ hp) (Nat.lt_irrefl _)

theorem rebind_effect {dst src : Name} (h : m.Has src p b) :
    ArrayOp.Effect m { m with names := m.names.set dst p } (.rebind dst src) := by
  have hget (x : Name) : (m.names.set dst p).get? x = if dst = x then some p else m.names.get? x := Bindings.get?_set ..
  refine ⟨rebinds_of_names (fun x hx => by rw [hget, if_neg hx.symm]) fun _ _ _ _ => rfl, ?_, fun x hx => ?_⟩
  · rw [h.array?]
    exact Has.array? ⟨by rw [hget, if_pos rfl], h.buffer⟩
  · simp only [Alias, hget, if_neg hx.symm, if_true, h.name]

theorem remove_effect (m : Memory) (n : Name) : ArrayOp.Effect m { m with names := m.names.erase n } (.remove n) := by
  have hget (x : Name) : (m.names.erase n).get? x = if n = x then none else m.names.get? x := Bindings.get?_erase ..
  refine ⟨rebinds_of_names (fun x hx => by rw [hget, if_neg hx.symm]) fun _ _ _ _ => rfl, ?_⟩
  rw [array?, hget, if_pos rfl]
  rfl

theorem Rooted.store (h : m.Rooted) (p start : ℕ) (l : List Value) : (m.store p start l).Rooted := fun n q hq => by
  rw [size_store]
  exact h n q hq

theorem Rooted.insert (h : m.Rooted) (n : Name) (b : Buffer) : (m.insert n b).Rooted := fun x q hq => by
  simp only [Memory.insert, Bindings.get?_set] at hq
  simp only [Memory.insert, Array.size_push]
  split_ifs at hq
  · exact Option.some.inj hq ▸ Nat.lt_succ_self _
  · exact (h x q hq).trans (Nat.lt_succ_self _)

theorem Rooted.rebind (h : m.Rooted) (hp : p < m.buffers.size) (n : Name) :
    Rooted { m with names := m.names.set n p } := fun x q hq => by
  simp only [Bindings.get?_set] at hq
  split_ifs at hq
  · exact Option.some.inj hq ▸ hp
  · exact h x q hq

theorem Rooted.remove (h : m.Rooted) (n : Name) : Rooted { m with names := m.names.erase n } := fun x q hq => by
  simp only [Bindings.get?_erase] at hq
  split_ifs at hq
  exact h x q hq

/-! ## One operation, and any number of them -/

/-- the operation either has its effect, and then every name still refers to a buffer, or it fails and changes nothing -/
def ArrayOp.Decided (m : Memory) (op : ArrayOp) : Prop :=
  (op.Possible m ∧ ∃ m', op.run m = .ok () m' ∧ op.Effect m m' ∧ m'.Rooted) ∨
    (¬ op.Possible m ∧ ∃ e, op.run m = .error e m)

theorem insert_decided (h : m.Rooted) (n : Name) (b : Buffer) : ArrayOp.Decided m (.insert n b) :=
  .inl ⟨trivial, _, rfl, insert_effect h n b, h.insert n b⟩

theorem rebind_decided (h : m.Rooted) (dst src : Name) : ArrayOp.Decided m (.rebind dst src) := by
  cases hb : m.array? src with
  | some b =>
    obtain ⟨p, hp⟩ := array?_eq_some.1 hb
    refine .inl ⟨⟨b, hb⟩, _, ?_, rebind_effect hp, h.rebind hp.lt dst⟩
    simp only [ArrayOp.run, Memory.rebind, change, hp.lookup_eq]
    rfl
  | none =>
    have hunbound : ¬∃ b, m.array? src = some b := by simp [hb]
    refine .inr ⟨hunbound, .unknown src, ?_⟩
    simp only [ArrayOp.run, Memory.rebind, change, lookup_eq_error hb]
    rfl

theorem remove_decided (h : m.Rooted) (n : Name) : ArrayOp.Decided m (.remove n) := by
  by_cases hn : m.contains n = true
  · refine .inl ⟨h.contains_iff.1 hn, _, ?_, remove_effect m n, h.remove n⟩
    simp only [ArrayOp.run, Memory.remove, change, if_pos hn]
  · refine .inr ⟨fun hp => hn (h.contains_iff.2 hp), .freeUnknown n, ?_⟩
    simp only [ArrayOp.run, Memory.remove, change, if_neg hn]

theorem write_decided (h : m.Rooted) (n : Name) (idx : Int) (v : Value) : ArrayOp.Decided m (.write n idx v) := by
  rcases m.locate_eq n idx with ⟨hin, p, b, hp, hrun⟩ | ⟨hout, e, hrun⟩
  · refine .inl ⟨hin, m.store p idx.toNat [v], ?_, hp.stores ?_, h.store _ _ _⟩
    · simp only [ArrayOp.run, Memory.write, bind, EStateM.bind, change, hrun]
      rfl
    · obtain ⟨b', hb', h0, -, hlt⟩ := hin
      obtain rfl := Option.some.inj (hp.array?.symm.trans hb')
      simp only [List.length_singleton]
      omega
  · refine .inr ⟨hout, e, ?_⟩
    simp only [ArrayOp.run, Memory.write, bind, EStateM.bind, change, hrun]

theorem fill_decided (h : m.Rooted) (n : Name) (offset count : Int) (v : Value) :
    ArrayOp.Decided m (.fill n offset count v) := by
  rcases m.locateRange_eq n offset count with ⟨hin, p, b, hp, hrun⟩ | ⟨hout, e, hrun⟩
  · refine .inl ⟨hin, m.store p offset.toNat (List.replicate count.toNat v), ?_, hp.stores ?_, h.store _ _ _⟩
    · simp only [ArrayOp.run, Memory.fill, change, hrun]
    · obtain ⟨b', hb', h0, hc, hle⟩ := hin
      obtain rfl := Option.some.inj (hp.array?.symm.trans hb')
      simp only [List.length_replicate]
      omega
  · refine .inr ⟨hout, e, ?_⟩
    simp only [ArrayOp.run, Memory.fill, change, hrun]

theorem copy_decided (h : m.Rooted) (dst src : Name) (dstOffset srcOffset count : Int) :
    ArrayOp.Decided m (.copy dst dstOffset src srcOffset count) := by
  rcases m.readRange_eq src srcOffset count with ⟨hsrc, b, hb, hread⟩ | ⟨hout, e, hread⟩
  · rcases m.locateRange_eq dst dstOffset count with ⟨hdst, p, b', hp, hrun⟩ | ⟨hout, e, hrun⟩
    · refine .inl ⟨⟨hsrc, hdst⟩, m.store p dstOffset.toNat ((b.cells.toList.drop srcOffset.toNat).take count.toNat), ?_,
        ⟨b, hb, hp.stores ?_⟩, h.store _ _ _⟩
      · simp only [ArrayOp.run, Memory.copy, change, hread, hrun]
        rfl
      · obtain ⟨b'', hb'', h0, hc, hle⟩ := hdst
        obtain rfl := Option.some.inj (hp.array?.symm.trans hb'')
        simp only [List.length_take, List.length_drop]
        omega
    · refine .inr ⟨fun hp => hout hp.2, e, ?_⟩
      simp only [ArrayOp.run, Memory.copy, change, hread, hrun]
      rfl
  · refine .inr ⟨fun hp => hout hp.1, e, ?_⟩
    simp only [ArrayOp.run, Memory.copy, change, hread]
    rfl

/-- an operation on memory whose names refer to buffers is decided -/
theorem Rooted.decided (h : m.Rooted) : ∀ op : ArrayOp, op.Decided m
  | .insert n b => insert_decided h n b
  | .rebind dst src => rebind_decided h dst src
  | .remove n => remove_decided h n
  | .write n idx v => write_decided h n idx v
  | .fill n offset count v => fill_decided h n offset count v
  | .copy dst i src j count => copy_decided h dst src i j count

theorem Rooted.after (h : m.Rooted) (op : ArrayOp) : (m.after op).Rooted := by
  unfold Memory.after
  rcases h.decided op with ⟨-, m', hrun, -, hroot⟩ | ⟨-, e, hrun⟩
  · rw [hrun]
    exact hroot
  · rw [hrun]
    exact h

theorem rooted_reached (history : List ArrayOp) : (reached history).Rooted := by
  unfold reached
  have hstart : Rooted {} := fun _ _ h => nomatch h
  generalize ({} : Memory) = m at hstart
  induction history generalizing m with
  | nil => exact hstart
  | cons op history ih => exact ih _ (hstart.after op)

/-- **Operations on arrays are atomic and framed.** After any operations, failed ones included, a further one has its
effect and no other if it is possible, and if not it fails and leaves names, aliases and contents as they were. -/
theorem ArrayOp.run_framed (history : List ArrayOp) (op : ArrayOp) :
    (op.Possible (reached history) ∧ ∃ m', op.run (reached history) = .ok () m' ∧ op.Effect (reached history) m') ∨
      (¬ op.Possible (reached history) ∧ ∃ e, op.run (reached history) = .error e (reached history)) :=
  ((rooted_reached history).decided op).imp_left fun ⟨hp, m', hrun, heff, _⟩ => ⟨hp, m', hrun, heff⟩

end GpuHistogram.Memory
