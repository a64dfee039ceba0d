/-
Arrays that the host makes, fills and gives back. `Memory.Extends` says that some names have new buffers and all else is
as it was; `Memory.Frames W W'` says what any step of the host leaves alone: an array that shares no buffer with those it
works on.

`Runs.alloc`, `Runs.fill`, `Runs.copy`, `Runs.rebind`, `Runs.free` are the rules for the statements.
-/
import GpuHistogram.Proofs.Generate
import GpuHistogram.Proofs.Tuples

namespace GpuHistogram

/-! ## Ranges of a buffer -/

/-- storing a range replaces the elements of the range -/
theorem Buffer.getElem?_store (b : Buffer) (start : ℕ) (l : List Value) (h : start + l.length ≤ b.cells.size) (j : ℕ) :
    (b.store start l).cells[j]? =
      if start ≤ j ∧ j < start + l.length then (l[j - start]?).map (·.convert b.elem) else b.cells[j]? := by
  induction l generalizing b start with
  | nil =>
    rw [if_neg (by simp)]
    rfl
  | cons v l ih =>
    rw [List.length_cons] at h ⊢
    change ((b.put start v).store (start + 1) l).cells[j]? = _
    rw [ih (b.put start v) (start + 1) (by rw [size_put]; omega), elem_put, Buffer.getElem?_put b start j v (by omega)]
    by_cases hj : j = start
    · subst hj
      rw [if_neg (by omega), if_pos rfl, if_pos (by omega), Nat.sub_self]
      rfl
    · rw [if_neg hj]
      by_cases hr : start + 1 ≤ j ∧ j < start + 1 + l.length
      · rw [if_pos hr, if_pos (by omega), show j - start = (j - (start + 1)) + 1 by omega, List.getElem?_cons_succ]
      · rw [if_neg hr, if_neg (by omega)]

namespace Memory

variable {m m' m'' : Memory} {n x : Name} {p : ℕ} {b : Buffer} {sc : Scalar} {len : ℕ} {g : ℕ → Value} {W W' : List Name}

/-! ## What is left alone -/

theorem Apart.of_names (h : m.Apart W n) (hn : m'.names.get? n = m.names.get? n)
    (hW : ∀ w ∈ W, m'.names.get? w = m.names.get? w) : m'.Apart W n := by
  intro w hw q hq hq'
  exact h w hw q (hn ▸ hq) (hW w hw ▸ hq')

theorem Apart.symm (h : ∀ w ∈ W, m.Apart W' w) (hn : n ∈ W') : m.Apart W n :=
  fun w hw q hq hq' => h w hw n hn q hq' hq

/-- an array that is none of `W'` and shares no buffer with one of `W` keeps its buffer, and then shares none with one of
`W'` -/
def Frames (W W' : List Name) (m m' : Memory) : Prop :=
  ∀ n p b, n ∉ W' → m.Apart W n → m.Has n p b → m'.Has n p b ∧ m'.Apart W' n

theorem Frames.refl (W : List Name) (m : Memory) : Frames W W m m := fun _ _ _ _ hW hb => ⟨hb, hW⟩

theorem Frames.trans {W'' : List Name} (h : Frames W W' m m') (h' : Frames W' W'' m' m'') (hW : W' ⊆ W'') :
    Frames W W'' m m'' := fun n p b hn hap hb =>
  have h1 := h n p b (fun hm => hn (hW hm)) hap hb
  h' n p b hn h1.2 h1.1

theorem Frames.weaken {V V' : List Name} (h : Frames W W' m m') (hV : W ⊆ V) (hW : V' ⊆ W') (hW' : W' ⊆ V') :
    Frames V V' m m' := fun n p b hn hap hb =>
  have h1 := h n p b (fun hm => hn (hW' hm)) (hap.mono hV) hb
  ⟨h1.1, h1.2.mono hW⟩

theorem Keeps.frames (h : Keeps W m m') : Frames W W m m' := fun _ _ _ _ hap hb => ⟨h.has hb hap, hap.keeps h⟩

theorem Column.frames (h : m.Column n sc len g) (hf : Frames W W' m m') (hn : n ∉ W') (hap : m.Apart W n) :
    m'.Column n sc len g := by
  obtain ⟨p, b, hb, he, hs, hg⟩ := h
  exact ⟨p, b, (hf n p b hn hap hb).1, he, hs, hg⟩

theorem Column.name_eq (h : m.Column n sc len g) (hf : Frames W W' m m') (hn : n ∉ W') (hap : m.Apart W n) :
    m'.names.get? n = m.names.get? n := by
  obtain ⟨p, b, hb, -⟩ := h
  rw [(hf n p b hn hap hb).1.name, hb.name]

theorem Column.apart (h : m.Column n sc len g) (hf : Frames W W' m m') (hn : n ∉ W') (hap : m.Apart W n) :
    m'.Apart W' n := by
  obtain ⟨p, b, hb, -⟩ := h
  exact (hf n p b hn hap hb).2

/-! ## New arrays -/

/-- the names of `ns` refer to new buffers, each to its own, and all else is as it was -/
structure Extends (ns : List Name) (m m' : Memory) : Prop where
  size : m.buffers.size ≤ m'.buffers.size
  old : ∀ q < m.buffers.size, m'.buffers[q]? = m.buffers[q]?
  names : ∀ n ∉ ns, m'.names.get? n = m.names.get? n
  new : ∀ n ∈ ns, ∃ q, m'.names.get? n = some q ∧ m.buffers.size ≤ q ∧ q < m'.buffers.size
  unaliased : m'.Unaliased ns

theorem Extends.refl (m : Memory) : Extends [] m m :=
  ⟨Nat.le_refl _, fun _ _ => rfl, fun _ _ => rfl, (fun _ hn => absurd hn List.not_mem_nil), List.Pairwise.nil⟩

theorem Has.lt (h : m.Has n p b) : p < m.buffers.size := (Array.getElem?_eq_some_iff.1 h.buffer).1

theorem Extends.has {ns : List Name} (h : Extends ns m m') (hb : m.Has n p b) (hn : n ∉ ns) : m'.Has n p b :=
  ⟨by rw [h.names n hn, hb.name], by rw [h.old p hb.lt, hb.buffer]⟩

theorem Extends.column {ns : List Name} (h : Extends ns m m') (hc : m.Column n sc len g) (hn : n ∉ ns) :
    m'.Column n sc len g := by
  obtain ⟨p, b, hb, hrest⟩ := hc
  exact ⟨p, b, h.has hb hn, hrest⟩

/-- an old array shares no buffer with a new one -/
theorem Extends.apart {ns : List Name} (h : Extends ns m m') (hb : m.Has n p b) (hn : n ∉ ns) : m'.Apart ns n := by
  intro w hw q hq hq'
  obtain ⟨q', hq'', hle, -⟩ := h.new w hw
  rw [(h.has hb hn).name, Option.some.injEq] at hq
  rw [hq'', Option.some.injEq] at hq'
  have := hb.lt
  omega

theorem Extends.frames {ns : List Name} (h : Extends ns m m') : Frames W (ns ++ W) m m' := by
  intro n p b hn hap hb
  have hns : n ∉ ns := fun hm => hn (List.mem_append_left _ hm)
  refine ⟨h.has hb hns, fun w hw q hq hq' => ?_⟩
  by_cases hw' : w ∈ ns
  · exact h.apart hb hns w hw' q hq hq'
  · rw [h.names n hns] at hq
    rw [h.names w hw'] at hq'
    exact hap w ((List.mem_append.1 hw).resolve_left hw') q hq hq'

/-- a new array whose content is stored afterwards -/
theorem Extends.insert (hk : Keeps [n] (m.insert n b) m') : Extends [n] m m' := by
  have hsize : (m.insert n b).buffers.size = m.buffers.size + 1 := by simp [Memory.insert]
  have hname : (m.insert n b).names.get? n = some m.buffers.size := by simp [Memory.insert]
  refine ⟨by rw [hk.size, hsize]; exact Nat.le_succ _, fun q hq => ?_, fun x hx => ?_, fun x hx => ?_, by simp [Unaliased]⟩
  · rw [hk.rest, Memory.insert, Array.getElem?_push, if_neg (by omega)]
    intro x hx
    rw [List.mem_singleton.1 hx, hname]
    simp only [ne_eq, Option.some.injEq]
    omega
  · rw [hk.names]
    simp [Memory.insert, Ne.symm (List.mem_singleton.not.1 hx)]
  · rw [List.mem_singleton.1 hx]
    exact ⟨m.buffers.size, by rw [hk.names, hname], Nat.le_refl _, by rw [hk.size, hsize]; exact Nat.lt_succ_self _⟩

theorem Extends.append {ns ns' : List Name} (h : Extends ns m m') (h' : Extends ns' m' m'') (hd : ∀ n ∈ ns, n ∉ ns') :
    Extends (ns ++ ns') m m'' := by
  refine ⟨h.size.trans h'.size, fun q hq => by rw [h'.old q (hq.trans_le h.size), h.old q hq], fun x hx => ?_,
    fun x hx => ?_, List.pairwise_append.2 ⟨?_, h'.unaliased, fun x hx y hy q hq hq' => ?_⟩⟩
  · simp only [List.mem_append, not_or] at hx
    rw [h'.names x hx.2, h.names x hx.1]
  · rcases List.mem_append.1 hx with hx | hx
    · obtain ⟨q, hq, hle, hlt⟩ := h.new x hx
      exact ⟨q, by rw [h'.names x (hd x hx), hq], hle, hlt.trans_le h'.size⟩
    · obtain ⟨q, hq, hle, hlt⟩ := h'.new x hx
      exact ⟨q, hq, h.size.trans hle, hlt⟩
  · refine h.unaliased.imp_of_mem fun {x y} hx hy hxy q hq hq' => ?_
    rw [h'.names x (hd x hx)] at hq
    rw [h'.names y (hd y hy)] at hq'
    exact hxy q hq hq'
  · obtain ⟨q₁, hq₁, -, hlt⟩ := h.new x hx
    obtain ⟨q₂, hq₂, hle, -⟩ := h'.new y hy
    rw [h'.names x (hd x hx), hq₁, Option.some.injEq] at hq
    rw [hq₂, Option.some.injEq] at hq'
    omega

/-- new arrays under names that are bound anew afterwards -/
theorem Extends.absorb {ns ns' : List Name} (h : Extends ns m m') (h' : Extends ns' m' m'') (hns : ns ⊆ ns') :
    Extends ns' m m'' where
  size := Nat.le_trans h.size h'.size
  old := fun q hq => (h'.old q (Nat.lt_of_lt_of_le hq h.size)).trans (h.old q hq)
  names := fun n hn => (h'.names n hn).trans (h.names n fun hm => hn (hns hm))
  new := fun n hn => by
    obtain ⟨q, hq, hle, hlt⟩ := h'.new n hn
    exact ⟨q, hq, Nat.le_trans h.size hle, hlt⟩
  unaliased := h'.unaliased

/-- an array with the same buffer is read as before -/
theorem Has.read_eq (h : m.Has n p b) (h' : m'.Has n p b) (i : Int) : m'.read n i = m.read n i := by
  unfold Memory.read Memory.locate
  rw [h.lookup_eq, h'.lookup_eq]
  have hcell (j : ℕ) : m'.cell p j = m.cell p j := by
    unfold cell
    rw [h.buffer, h'.buffer]
  change (Except.bind (Except.bind (checkIndex n b.cells.size i) fun k => .ok (p, k)) fun r => .ok (m'.cell r.1 r.2)) =
    Except.bind (Except.bind (checkIndex n b.cells.size i) fun k => .ok (p, k)) fun r => .ok (m.cell r.1 r.2)
  cases checkIndex n b.cells.size i with
  | error e => rfl
  | ok k => exact congrArg Except.ok (hcell k)

theorem Column.insert (m : Memory) (n : Name) (sc : Scalar) (len : ℕ) :
    (m.insert n (.zeros sc len)).Column n sc len fun _ => .zero sc := by
  refine ⟨m.buffers.size, .zeros sc len, ⟨by simp [Memory.insert], by simp [Memory.insert]⟩, rfl, by simp [Buffer.zeros],
    fun k hk => by simp [Buffer.zeros, hk]⟩

/-! ## Ranges of arrays -/

theorem checkRange_run {i k len : ℕ} (h : i + k ≤ len) : checkRange n len (i : Int) (k : Int) = .ok (i, k) := by
  unfold checkRange
  rw [if_pos (by omega)]
  rfl

theorem Has.store_keeps {start : ℕ} {l : List Value} (h : m.Has n p b) : Keeps [n] m (m.store p start l) := by
  refine ⟨rfl, size_store _ _ _ _, fun {q b'} hb' => ?_, fun {q} hq => ?_⟩
  · rw [getElem?_store, hb']
    split
    · exact ⟨_, rfl, Buffer.elem_store _ _ _, Buffer.size_store _ _ _⟩
    · exact ⟨b', rfl, rfl, rfl⟩
  · rw [getElem?_store, if_neg]
    rintro rfl
    exact hq n (List.mem_singleton_self n) h.name

theorem Column.store_range (h : m.Column n sc len g) (g' : ℕ → Value) {i : ℕ} {l : List Value} (hlen : i + l.length ≤ len)
    (hg : ∀ a, i ≤ a → a < i + l.length → (l[a - i]?).map (·.convert sc) = some (g' a))
    (hg' : ∀ a, ¬ (i ≤ a ∧ a < i + l.length) → g' a = g a) :
    ∃ q, m.names.get? n = some q ∧ (m.store q i l).Column n sc len g' ∧ Keeps [n] m (m.store q i l) := by
  obtain ⟨p, b, hb, rfl, rfl, hcells⟩ := h
  have hstore : (m.store p i l).Has n p _ := hb.store
  rw [if_pos rfl] at hstore
  refine ⟨p, hb.name, ⟨p, _, hstore, Buffer.elem_store _ _ _, Buffer.size_store _ _ _, fun a ha => ?_⟩, hb.store_keeps⟩
  rw [Buffer.getElem?_store b i l hlen]
  split_ifs with hr
  · exact hg a hr.1 hr.2
  · rw [hcells a ha, hg' a hr]

/-- all elements of an array become one value -/
theorem Column.fill (h : m.Column n sc len g) (v : Value) :
    ∃ m', Memory.fill n 0 len v m = .ok () m' ∧ m'.Column n sc len (fun _ => v.convert sc) ∧ Keeps [n] m m' := by
  obtain ⟨q, hq, hcol, hk⟩ := h.store_range (fun a => if a < len then v.convert sc else g a) (i := 0)
    (l := List.replicate len v) (by simp)
    (fun a _ ha => by simp_all) (fun a ha => if_neg (by simpa using ha))
  obtain ⟨p, b, hb, -, hs, -⟩ := h
  obtain rfl : p = q := Option.some.inj (hb.name.symm.trans hq)
  refine ⟨_, ?_, hcol.congr fun a ha => if_pos ha, hk⟩
  unfold Memory.fill
  have hloc : m.locateRange n (0 : ℕ) (len : Int) = .ok (p, 0, len) := by
    unfold locateRange
    rw [hb.lookup_eq]
    change (Except.bind (checkRange n b.cells.size (0 : ℕ) len) fun r => .ok (p, r)) = _
    rw [checkRange_run (by omega)]
    rfl
  rw [change_run hloc]

/-- a range of one array is copied to another -/
theorem Column.copy {y : Name} {sc' : Scalar} {len' i j k : ℕ} {g' : ℕ → Value} (h : m.Column n sc len g)
    (h' : m.Column y sc' len' g') (hi : i + k ≤ len) (hj : j + k ≤ len') :
    ∃ m', Memory.copy n i y j k m = .ok () m' ∧
      m'.Column n sc len (fun a => if i ≤ a ∧ a < i + k then (g' (j + (a - i))).convert sc else g a) ∧ Keeps [n] m m' := by
  obtain ⟨p', b', hb', -, hs', hg'⟩ := h'
  have hlen : (b'.cells.extract j (j + k)).toList.length = k := by simp; omega
  obtain ⟨q, hq, hcol, hk⟩ := h.store_range
    (fun a => if i ≤ a ∧ a < i + k then (g' (j + (a - i))).convert sc else g a) (i := i)
    (l := (b'.cells.extract j (j + k)).toList) (by rw [hlen]; exact hi)
    (fun a h1 h2 => by
      rw [hlen] at h2
      have hread : (b'.cells.extract j (j + k)).toList[a - i]? = some (g' (j + (a - i))) := by
        have hcell := hg' (j + (a - i)) (by omega)
        rw [Array.getElem?_eq_getElem (by omega)] at hcell
        rw [Array.getElem?_toList, Array.getElem?_extract_of_lt (by omega), hcell]
      rw [hread, if_pos ⟨h1, h2⟩]
      rfl)
    (fun a ha => by rw [hlen] at ha; exact if_neg ha)
  obtain ⟨p, b, hb, -, hs, -⟩ := h
  obtain rfl : p = q := Option.some.inj (hb.name.symm.trans hq)
  refine ⟨_, ?_, hcol, hk⟩
  unfold Memory.copy
  have hread : m.readRange y (j : Int) (k : Int) = .ok (b'.cells.extract j (j + k)).toList := by
    unfold readRange
    rw [hb'.lookup_eq]
    change (Except.bind (checkRange y b'.cells.size j k) fun r => .ok (b'.cells.extract r.1 (r.1 + r.2)).toList) = _
    rw [checkRange_run (by omega)]
    rfl
  have hloc : m.locateRange n (i : Int) (k : Int) = .ok (p, i, k) := by
    unfold locateRange
    rw [hb.lookup_eq]
    change (Except.bind (checkRange n b.cells.size i k) fun r => .ok (p, r)) = _
    rw [checkRange_run (by omega)]
    rfl
  simp only [change, hread, hloc]
  rfl

end Memory

/-! ## Statements of the host -/

namespace Machine.Runs

variable {f : Form} {L : LaunchSpec → List Stmt → Exec Unit} {c : Context} {s : State} {l : List Stmt} {Q : State → Prop}

theorem alloc {n : Name} {sc : Scalar} {count : Expr} {o : Origin} {k : ℕ} (hc : c.thread = none)
    (hcount : Computes f c s count k) (hk : k < unallocatable)
    (h : Runs f L c l { s with memory := s.memory.insert n (.zeros sc k) } Q) :
    Runs f L c (.alloc n sc count o :: l) s Q := by
  refine cons ⟨_, ?_, h⟩
  rw [f.block_alloc, execAll_singleton, exec, if_neg (by simp [hc])]
  refine bind_eq_ok.2 ⟨(k : Int), s, ?_, ?_⟩
  · rw [number_run hcount.evals, Value.toInt64_word hcount.fits]
  · rw [if_neg (by omega), allocate, Int.toNat_natCast, if_neg (by omega)]
    rfl

/-- only arrays that are small enough are made -/
theorem lt_of_alloc {n : Name} {sc : Scalar} {count : Expr} {o : Origin} {k : ℕ} {t : State} (hcount : Computes f c s count k)
    (h : execAll L c (f.block (.alloc n sc count o :: l)) s = .ok () t) : k < unallocatable := by
  rw [show Stmt.alloc n sc count o :: l = [.alloc n sc count o] ++ l from rfl, f.block_append, f.block_alloc,
    execAll_append_eq_ok] at h
  obtain ⟨u, hu, -⟩ := h
  rw [execAll_singleton, exec] at hu
  split at hu
  · cases hu
  · rw [bind_run (number_run hcount.evals), Value.toInt64_word hcount.fits, if_neg (by omega), allocate,
      Int.toNat_natCast] at hu
    by_contra hk
    rw [if_pos (by omega)] at hu
    cases hu

theorem fill {n : Name} {i k e : Expr} {o : Origin} {a b : ℕ} {v : Value} {m : Memory} (hc : c.thread = none)
    (hi : Computes f c s i a) (hk : Computes f c s k b) (he : Evals f c s e v)
    (hm : Memory.fill n a b v s.memory = .ok () m) (h : Runs f L c l { s with memory := m } Q) :
    Runs f L c (.fill n i k e o :: l) s Q := by
  refine cons ⟨_, ?_, h⟩
  rw [f.block_fill, execAll_singleton, exec, if_neg (by simp [hc])]
  refine bind_eq_ok.2 ⟨(a : Int), s, by rw [number_run hi.evals, Value.toInt64_word hi.fits], ?_⟩
  refine bind_eq_ok.2 ⟨(b : Int), s, by rw [number_run hk.evals, Value.toInt64_word hk.fits], ?_⟩
  exact bind_eq_ok.2 ⟨v, s, value_run he, onMemory_run hm⟩

theorem copy {n y : Name} {i j k : Expr} {o : Origin} {a b d : ℕ} {m : Memory} (hc : c.thread = none)
    (hi : Computes f c s i a) (hj : Computes f c s j b) (hk : Computes f c s k d)
    (hm : Memory.copy n a y b d s.memory = .ok () m) (h : Runs f L c l { s with memory := m } Q) :
    Runs f L c (.copy n i y j k o :: l) s Q := by
  refine cons ⟨_, ?_, h⟩
  rw [f.block_copy, execAll_singleton, exec, if_neg (by simp [hc])]
  refine bind_eq_ok.2 ⟨(a : Int), s, by rw [number_run hi.evals, Value.toInt64_word hi.fits], ?_⟩
  refine bind_eq_ok.2 ⟨(b : Int), s, by rw [number_run hj.evals, Value.toInt64_word hj.fits], ?_⟩
  refine bind_eq_ok.2 ⟨(d : Int), s, by rw [number_run hk.evals, Value.toInt64_word hk.fits], ?_⟩
  exact onMemory_run hm

theorem rebind {n y : Name} {o : Origin} {p : ℕ} {b : Buffer} (hc : c.thread = none) (hy : s.memory.Has y p b)
    (h : Runs f L c l { s with memory := { s.memory with names := s.memory.names.set n p } } Q) :
    Runs f L c (.rebind n y o :: l) s Q := by
  refine cons ⟨_, ?_, h⟩
  rw [f.block_rebind, execAll_singleton, exec, if_neg (by simp [hc])]
  refine onMemory_run ?_
  unfold Memory.rebind
  have hcheck : (return (← s.memory.lookup y).place : Except MemoryError ℕ) = .ok p := by
    rw [hy.lookup_eq]
    rfl
  exact Memory.change_run hcheck

theorem free {n : Name} {o : Origin} (hc : c.thread = none) (hn : s.memory.contains n = true)
    (h : Runs f L c l { s with memory := { s.memory with names := s.memory.names.erase n } } Q) :
    Runs f L c (.free n o :: l) s Q := by
  refine cons ⟨_, ?_, h⟩
  rw [f.block_free, execAll_singleton, exec, if_neg (by simp [hc])]
  refine onMemory_run ?_
  unfold Memory.remove
  exact Memory.change_run (a := ()) (if_pos hn)

end Machine.Runs

end GpuHistogram
