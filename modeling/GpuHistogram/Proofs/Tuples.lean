/-
Tuples of values and how they are combined. A tuple has one value for each of some element types, and every value fits
its type. `Memory.Table` says that several arrays hold one tuple at every index.

`Combiner.apply_gives`: the code that applies a combiner to arguments leaves in its variables whatever the combiner
computes from them, in any state that differs in other variables only.
-/
import GpuHistogram.Histogram.Index
import GpuHistogram.Proofs.Runs

namespace GpuHistogram

/-- one value for each element type -/
@[ext]
structure Tuple (ss : List Scalar) where
  cells : List Value
  length_eq : cells.length = ss.length
  fits : ∀ (i : ℕ) sc v, ss[i]? = some sc → cells[i]? = some v → v.Fits sc

/-- a map over a zip that looks at one side only -/
theorem map_zip_fst {α β γ : Type} {l : List α} {l' : List β} (g : α → γ) (h : l.length ≤ l'.length) :
    (l.zip l').map (fun a => g a.1) = l.map g := by
  conv_rhs => rw [← List.map_fst_zip h, List.map_map]
  rfl

theorem map_zip_snd {α β γ : Type} {l : List α} {l' : List β} (g : β → γ) (h : l'.length ≤ l.length) :
    (l.zip l').map (fun a => g a.2) = l'.map g := by
  conv_rhs => rw [← List.map_snd_zip h, List.map_map]
  rfl

namespace Tuple

variable {ss : List Scalar}

/-- the value at a position -/
def cell (x : Tuple ss) (i : ℕ) : Value := x.cells.getD i default

theorem cell_eq {x : Tuple ss} {i : ℕ} {v : Value} (h : x.cells[i]? = some v) : x.cell i = v := by
  simp [cell, List.getD_eq_getElem?_getD, h]

theorem getElem?_cells {x : Tuple ss} {i : ℕ} {sc : Scalar} (h : ss[i]? = some sc) :
    x.cells[i]? = some (x.cell i) := by
  have hlt : i < x.cells.length := by
    rw [x.length_eq]
    exact (List.getElem?_eq_some_iff.1 h).1
  simp [cell, List.getD_eq_getElem?_getD, hlt]

theorem fits_cell (x : Tuple ss) {i : ℕ} {sc : Scalar} (h : ss[i]? = some sc) : (x.cell i).Fits sc :=
  x.fits i sc _ h (getElem?_cells h)

theorem length_append (x y : Tuple ss) : (x.cells ++ y.cells).length = ss.length + ss.length := by
  simp [x.length_eq, y.length_eq]

theorem fits_append (x y : Tuple ss) {i : ℕ} {sc : Scalar} {v : Value} (h : (ss ++ ss)[i]? = some sc)
    (hv : (x.cells ++ y.cells)[i]? = some v) : v.Fits sc := by
  rw [List.getElem?_append] at h hv
  rw [x.length_eq] at hv
  split_ifs at h hv
  · exact x.fits i sc v h hv
  · exact y.fits _ sc v h hv

/-- tuples with the same values are the same -/
theorem ext_cell {x y : Tuple ss} (h : ∀ i < ss.length, x.cell i = y.cell i) : x = y := by
  refine Tuple.ext (List.ext_getElem? fun i => ?_)
  by_cases hi : i < ss.length
  · have hsc := List.getElem?_eq_getElem hi
    rw [getElem?_cells hsc, getElem?_cells hsc, h i hi]
  · rw [List.getElem?_eq_none (by rw [x.length_eq]; omega), List.getElem?_eq_none (by rw [y.length_eq]; omega)]

theorem cells_of_single {sc : Scalar} (hss : ss = [sc]) (x : Tuple ss) : x.cells = [x.cell 0] := by
  have h := x.length_eq
  rw [congrArg List.length hss, List.length_singleton, List.length_eq_one_iff] at h
  obtain ⟨v, hv⟩ := h
  rw [hv, cell_eq (by rw [hv]; rfl)]

/-- a tuple of one value is known by it -/
theorem eq_of_single {sc : Scalar} (hss : ss = [sc]) {x y : Tuple ss} (h : x.cell 0 = y.cell 0) : x = y :=
  ext_cell fun i hi => by
    obtain rfl : i = 0 := by
      rw [hss, List.length_singleton] at hi
      omega
    exact h

/-- the tuple with another value at a position -/
def put (x : Tuple ss) {i : ℕ} {sc : Scalar} (v : Value) (hi : ss[i]? = some sc) (hv : v.Fits sc) : Tuple ss where
  cells := x.cells.set i v
  length_eq := by rw [List.length_set, x.length_eq]
  fits := fun j sc' w hj hw => by
    rw [List.getElem?_set] at hw
    split_ifs at hw with hij
    · cases hw
      rw [← hij, hi] at hj
      cases hj
      exact hv
    · exact x.fits j sc' w hj hw

theorem cell_put (x : Tuple ss) {i : ℕ} {sc : Scalar} {v : Value} (hi : ss[i]? = some sc) (hv : v.Fits sc) (j : ℕ) :
    (x.put v hi hv).cell j = if j = i then v else x.cell j := by
  have hlt : i < x.cells.length := by
    rw [x.length_eq]
    exact (List.getElem?_eq_some_iff.1 hi).1
  simp only [cell, put, List.getD_eq_getElem?_getD, List.getElem?_set, eq_comm (a := i)]
  split_ifs with h
  · rfl
  · rfl

end Tuple

theorem Expr.castIfNeeded_of_ty {e : Expr} {sc : Scalar} (h : e.ty = .scalar sc) : e.castIfNeeded sc = e :=
  if_pos h

namespace Memory

variable {m m' : Memory} {ns : List Name} {ss : List Scalar} {len : ℕ} {T : ℕ → Tuple ss}

/-- no two of the names refer to one buffer -/
def Unaliased (m : Memory) (ns : List Name) : Prop :=
  ns.Pairwise fun n n' => ∀ p, m.names.get? n = some p → m.names.get? n' ≠ some p

/-- the arrays hold a tuple at every index -/
structure Table (m : Memory) (ns : List Name) (ss : List Scalar) (len : ℕ) (T : ℕ → Tuple ss) : Prop where
  length_eq : ns.length = ss.length
  column : ∀ (i : ℕ) n sc, ns[i]? = some n → ss[i]? = some sc → m.Column n sc len fun a => (T a).cell i
  unaliased : m.Unaliased ns

theorem Table.keeps {W : List Name} (h : m.Table ns ss len T) (hk : Keeps W m m') (hW : ∀ n ∈ ns, m.Apart W n) :
    m'.Table ns ss len T where
  length_eq := h.length_eq
  column := fun i n sc hn hs => (h.column i n sc hn hs).keeps hk (hW n (List.mem_of_getElem? hn))
  unaliased := by
    unfold Unaliased
    rw [hk.names]
    exact h.unaliased

theorem Table.congr {T' : ℕ → Tuple ss} (h : m.Table ns ss len T) (hT : ∀ a < len, T a = T' a) :
    m.Table ns ss len T' :=
  ⟨h.length_eq, fun i n sc hn hs => (h.column i n sc hn hs).congr fun a ha => by rw [hT a ha], h.unaliased⟩

/-- storing an element of one array changes the tuple at its index -/
theorem Table.put {n : Name} {i a : ℕ} {sc : Scalar} {v : Value} (h : m.Table ns ss len T) (hn : ns[i]? = some n)
    (hi : ss[i]? = some sc) (ha : a < len) (hv : v.Fits sc) :
    ∃ m', write n a v m = .ok ((T a).cell i) m' ∧
      m'.Table ns ss len (Function.update T a ((T a).put v hi hv)) := by
  obtain ⟨m', hm, hcol⟩ := (h.column i n sc hn hi).write ha v
  have hk : Keeps [n] m m' := .write hm (List.mem_singleton_self n)
  refine ⟨m', hm, h.length_eq, fun j n' sc' hn' hsc' => ?_, ?_⟩
  · by_cases hj : j = i
    · subst hj
      obtain rfl : n = n' := Option.some.inj (hn.symm.trans hn')
      obtain rfl : sc = sc' := Option.some.inj (hi.symm.trans hsc')
      refine hcol.congr fun b _ => ?_
      by_cases hb : b = a
      · subst hb
        simp [Tuple.cell_put, hv.convert_eq]
      · simp [hb]
    · refine ((h.column j n' sc' hn' hsc').keeps hk ?_).congr fun b _ => ?_
      · intro w hw p hp hp'
        rw [List.mem_singleton.1 hw] at hp'
        obtain ⟨hlt, rfl⟩ := List.getElem?_eq_some_iff.1 hn
        obtain ⟨hlt', rfl⟩ := List.getElem?_eq_some_iff.1 hn'
        rcases Nat.lt_or_gt_of_ne hj with hji | hij
        · exact List.pairwise_iff_getElem.1 h.unaliased j i hlt' hlt hji p hp hp'
        · exact List.pairwise_iff_getElem.1 h.unaliased i j hlt hlt' hij p hp' hp
      · by_cases hb : b = a
        · subst hb
          simp [Tuple.cell_put, hj]
        · simp [hb]
  · have hun := h.unaliased
    unfold Unaliased at hun ⊢
    rwa [hk.names]

/-- the arrays, which may have different lengths, hold a tuple at one index -/
structure Row (m : Memory) (ns : List Name) (ss : List Scalar) (a : ℕ) (x : Tuple ss) : Prop where
  length_eq : ns.length = ss.length
  column : ∀ (i : ℕ) n sc, ns[i]? = some n → ss[i]? = some sc →
    ∃ len g, m.Column n sc len g ∧ a < len ∧ g a = x.cell i
  unaliased : m.Unaliased ns

/-- one memory differs from another in that the arrays hold a tuple at an index -/
def Stored (ns : List Name) (ss : List Scalar) (a : ℕ) (z : Tuple ss) (m m' : Memory) : Prop :=
  ∀ (i : ℕ) n sc len g, ns[i]? = some n → ss[i]? = some sc → m.Column n sc len g →
    m'.Column n sc len (Function.update g a (z.cell i))

theorem Table.row {a : ℕ} (h : m.Table ns ss len T) (ha : a < len) : m.Row ns ss a (T a) :=
  ⟨h.length_eq, fun i n sc hn hs => ⟨len, _, h.column i n sc hn hs, ha, rfl⟩, h.unaliased⟩

theorem Row.keeps {W : List Name} {a : ℕ} {x : Tuple ss} (h : m.Row ns ss a x) (hk : Keeps W m m')
    (hW : ∀ n ∈ ns, m.Apart W n) : m'.Row ns ss a x where
  length_eq := h.length_eq
  column := fun i n sc hn hs => by
    obtain ⟨len, g, hg, ha, hx⟩ := h.column i n sc hn hs
    exact ⟨len, g, hg.keeps hk (hW n (List.mem_of_getElem? hn)), ha, hx⟩
  unaliased := by
    unfold Unaliased
    rw [hk.names]
    exact h.unaliased

/-- in a table one tuple is replaced -/
theorem Table.stored {a : ℕ} {z : Tuple ss} (h : m.Table ns ss len T) (hs : Stored ns ss a z m m')
    (hn : m'.names = m.names) : m'.Table ns ss len (Function.update T a z) where
  length_eq := h.length_eq
  column := fun i n sc hn hsc => by
    refine (hs i n sc len _ hn hsc (h.column i n sc hn hsc)).congr fun k _ => ?_
    by_cases hk : k = a
    · subst hk
      simp
    · simp [hk]
  unaliased := by
    unfold Unaliased
    rw [hn]
    exact h.unaliased

/-- at the index there is another tuple -/
theorem Row.stored {a : ℕ} {x z : Tuple ss} (h : m.Row ns ss a x) (hs : Stored ns ss a z m m')
    (hn : m'.names = m.names) : m'.Row ns ss a z where
  length_eq := h.length_eq
  column := fun i n sc hn hsc => by
    obtain ⟨len, g, hg, ha, -⟩ := h.column i n sc hn hsc
    exact ⟨len, _, hs i n sc len g hn hsc hg, ha, Function.update_self ..⟩
  unaliased := by
    unfold Unaliased
    rw [hn]
    exact h.unaliased

/-- what is stored in some arrays stays there when others change, which held nothing else before -/
theorem Stored.keeps {m₀ m₁ : Memory} {W W' : List Name} {a : ℕ} {z : Tuple ss} (h : Stored ns ss a z m m')
    (hk : Keeps W m₀ m) (hk' : Keeps W' m' m₁) (hW : ∀ n ∈ ns, m₀.Apart W n) (hW' : ∀ n ∈ ns, m'.Apart W' n) :
    Stored ns ss a z m₀ m₁ := fun i n sc len g hn hs hg =>
  (h i n sc len g hn hs (hg.keeps hk (hW n (List.mem_of_getElem? hn)))).keeps hk' (hW' n (List.mem_of_getElem? hn))

/-- one element is stored -/
theorem Stored.write {n : Name} {sc : Scalar} {a len : ℕ} {g : ℕ → Value} {old : Value} {z : Tuple [sc]}
    (h : Memory.write n a (z.cell 0) m = .ok old m') (hg : m.Column n sc len g) (ha : a < len) :
    Stored [n] [sc] a z m m' := fun i n' sc' len' g' hn hs hg' => by
  cases i with
  | succ i => cases hn
  | zero =>
    cases hn
    cases hs
    obtain ⟨m₁, hm, hcol⟩ := hg'.write (hg.length_unique hg' ▸ ha) (z.cell 0)
    rw [h] at hm
    cases hm
    rwa [(z.fits_cell rfl).convert_eq] at hcol

end Memory

namespace Machine

variable {f : Form} {L : LaunchSpec → List Stmt → Exec Unit} {c : Context} {s t : State} {Q : State → Prop}
  {ss : List Scalar}

/-- the variables hold the values -/
def Holds (s : State) (ns : List Name) (vs : List Value) : Prop :=
  ∀ (i : ℕ) n v, ns[i]? = some n → vs[i]? = some v → s.vars.get? n = some v

theorem Holds.keeps {V W ns : List Name} {vs : List Value} (h : Holds s ns vs) (hk : Keeps V W s t)
    (hV : ∀ n ∈ ns, n ∉ V) : Holds t ns vs :=
  fun i n v hn hv => (hk.vars n (hV n (List.mem_of_getElem? hn))).trans (h i n v hn hv)

/-- the expressions have the values -/
def AllEval (f : Form) (c : Context) (s : State) (es : List Expr) (vs : List Value) : Prop :=
  ∀ (i : ℕ) e v, es[i]? = some e → vs[i]? = some v → Evals f c s e v

theorem Evals.scalarVar {n : Name} {sc : Scalar} {v : Value} (h : s.vars.get? n = some v) :
    Evals f c s (.scalarVar n sc) v := by
  have hv : eval c s (.var n (.scalar sc) .unknown) = .ok v := by
    rw [eval, h]
  cases f <;> exact hv

theorem Evals.element {n : Name} {sc : Scalar} {sp : Space} {idx : Expr} {k len : ℕ} {g : ℕ → Value}
    (hidx : Computes f c s idx k) (hg : s.memory.Column n sc len g) (hk : k < len) :
    Evals f c s (.element n sc sp idx) (g k) := by
  have hv (e : Expr) (he : eval c s e = .ok (.word k)) :
      eval c s (.access (.typed n (.pointer sc sp)) e (.scalar sc) .unknown) = .ok (g k) := by
    rw [eval, he]
    change liftMemory .unknown (s.memory.read n (Value.word k).toInt64) = _
    rw [Value.toInt64_word hidx.fits, hg.read_run hk]
    rfl
  cases f <;> exact hv _ hidx.word.value

/-- the elements at one index of arrays that hold tuples -/
theorem AllEval.elements {ns : List Name} {len k : ℕ} {T : ℕ → Tuple ss} {sp : Space} {idx : Expr}
    (hidx : Computes f c s idx k) (hT : s.memory.Table ns ss len T) (hk : k < len) :
    AllEval f c s ((ns.zip ss).map fun a => .element a.1 a.2 sp idx) (T k).cells := by
  intro i e v he hv
  rw [List.getElem?_map, Option.map_eq_some_iff] at he
  obtain ⟨⟨n, sc⟩, ha, rfl⟩ := he
  rw [List.getElem?_zip_eq_some] at ha
  have h : Evals f c s (.element n sc sp idx) _ := .element hidx (hT.column i n sc ha.1 ha.2) hk
  rwa [Tuple.cell_eq hv] at h

section Sequences

variable {α : Type} (l : List α) (var array : α → Name) (sc : α → Scalar) {sp : Space} {idx : Expr} {len k : ℕ}
  {T : ℕ → Tuple ss} {x : Tuple ss}

/-- a tuple in memory is read into variables -/
theorem Runs.readRow (hsc : l.map sc = ss) (hnd : (l.map var).Nodup)
    (hidx : ∀ t, Keeps (l.map var) [] s t → Computes f c t idx k) (hrow : s.memory.Row (l.map array) ss k x)
    (hq : ∀ t, Keeps (l.map var) [] s t → Holds t (l.map var) x.cells → Q t) :
    Runs f L c (l.map fun a => .bind (var a) (.element (array a) (sc a) sp idx)) s Q := by
  have harray {i : ℕ} {a : α} (ha : l[i]? = some a) : (l.map array)[i]? = some (array a) := by
    rw [List.getElem?_map, ha]
    rfl
  have hscalar {i : ℕ} {a : α} (ha : l[i]? = some a) : ss[i]? = some (sc a) := by
    rw [← hsc, List.getElem?_map, ha]
    rfl
  refine Runs.binds var _ l x.cells (by rw [x.length_eq, ← hsc, List.length_map]) hnd
    (fun i a v ha hv => ⟨_, rfl, x.fits i _ v (hscalar ha) hv⟩) ?_ ?_
  · intro t ht i a v ha hv
    obtain ⟨len, g, hg, hk, hx⟩ := hrow.column i _ _ (harray ha) (hscalar ha)
    have hcol := hg.keeps ht.memory fun _ h => absurd h List.not_mem_nil
    have h : Evals f c t (.element (array a) (sc a) sp idx) _ := .element (hidx t ht) hcol hk
    rwa [hx, Tuple.cell_eq hv] at h
  · intro t ht hvals
    refine hq t ht fun i n v hn hv => ?_
    rw [List.getElem?_map, Option.map_eq_some_iff] at hn
    obtain ⟨a, ha, rfl⟩ := hn
    exact hvals i a v ha hv

/-- a tuple of a table is read into variables -/
theorem Runs.readTuple (hsc : l.map sc = ss) (hnd : (l.map var).Nodup) (hk : k < len)
    (hidx : ∀ t, Keeps (l.map var) [] s t → Computes f c t idx k) (hT : s.memory.Table (l.map array) ss len T)
    (hq : ∀ t, Keeps (l.map var) [] s t → Holds t (l.map var) (T k).cells → Q t) :
    Runs f L c (l.map fun a => .bind (var a) (.element (array a) (sc a) sp idx)) s Q :=
  Runs.readRow l var array sc hsc hnd hidx (hT.row hk) hq

/-- a tuple in memory is replaced by the values of expressions -/
theorem Runs.writeRow (e : α → Expr) (z : Tuple ss) (hsc : l.map sc = ss)
    (hidx : ∀ t, Keeps [] (l.map array) s t → Computes f c t idx k)
    (he : ∀ t, Keeps [] (l.map array) s t → AllEval f c t (l.map e) z.cells)
    (hrow : s.memory.Row (l.map array) ss k x)
    (hq : ∀ t, Keeps [] (l.map array) s t → Memory.Stored (l.map array) ss k z s.memory t.memory → Q t) :
    Runs f L c (l.map fun a => .store (.element (array a) (sc a) sp idx) (e a)) s Q := by
  have harray {i : ℕ} {a : α} (ha : l[i]? = some a) : (l.map array)[i]? = some (array a) := by
    rw [List.getElem?_map, ha]
    rfl
  have hscalar {i : ℕ} {a : α} (ha : l[i]? = some a) : ss[i]? = some (sc a) := by
    rw [← hsc, List.getElem?_map, ha]
    rfl
  -- each array as a column of its own length
  have hcolumns (i : ℕ) : ∃ len g, ∀ a, l[i]? = some a → s.memory.Column (array a) (sc a) len g ∧ k < len := by
    cases ha : l[i]? with
    | none => exact ⟨0, fun _ => default, fun _ h => nomatch h⟩
    | some a =>
      obtain ⟨len, g, hg, hk, -⟩ := hrow.column i _ _ (harray ha) (hscalar ha)
      exact ⟨len, g, fun b hb => Option.some.inj hb ▸ ⟨hg, hk⟩⟩
  choose len g hcol using hcolumns
  refine Runs.storeElements array e sc sp idx len l z.cells g (by rw [z.length_eq, ← hsc, List.length_map])
    (fun i hi => (hcol i _ (List.getElem?_eq_getElem hi)).2) (fun i a ha => (hcol i a ha).1) hrow.unaliased hidx ?_ ?_
  · intro t ht i a v ha hv
    exact he t ht i _ v (by rw [List.getElem?_map, ha]; rfl) hv
  · intro t ht hcols
    refine hq t ht fun i n sc' len' g' hn hsc' hg' => ?_
    rw [List.getElem?_map, Option.map_eq_some_iff] at hn
    obtain ⟨a, ha, rfl⟩ := hn
    rw [hscalar ha, Option.some.injEq] at hsc'
    subst hsc'
    obtain rfl := (hcol i a ha).1.length_unique hg'
    refine (hcols i a _ ha (Tuple.getElem?_cells (hscalar ha))).congr fun j hj => ?_
    by_cases hjk : j = k
    · subst hjk
      simp [(z.fits_cell (hscalar ha)).convert_eq]
    · simp [hjk, (hcol i a ha).1.unique hg' hj]

/-- a tuple of a table is replaced by the values of expressions -/
theorem Runs.writeTuple (e : α → Expr) (x : Tuple ss) (hsc : l.map sc = ss) (hk : k < len)
    (hidx : ∀ t, Keeps [] (l.map array) s t → Computes f c t idx k)
    (he : ∀ t, Keeps [] (l.map array) s t → AllEval f c t (l.map e) x.cells)
    (hT : s.memory.Table (l.map array) ss len T)
    (hq : ∀ t, Keeps [] (l.map array) s t → t.memory.Table (l.map array) ss len (Function.update T k x) → Q t) :
    Runs f L c (l.map fun a => .store (.element (array a) (sc a) sp idx) (e a)) s Q :=
  Runs.writeRow l array sc e x hsc hidx he (hT.row hk) fun t ht hs => hq t ht (hT.stored hs ht.memory.names)

end Sequences

end Machine

namespace Combiner

open Machine

variable {f : Form} {L : LaunchSpec → List Stmt → Exec Unit} {c : Context} {s : State} {Q : State → Prop}
  {ss : List Scalar}

/-- the names of the parameters -/
def names (F : Combiner) : List Name := F.params.map (·.1)

/-- the parameters of the combiner, and the variables that its statements set -/
def locals (F : Combiner) : List Name := F.names ++ blockSets F.body

/-- the parameters and results of the combiner fit two tuples and one -/
structure Shaped (F : Combiner) (ss : List Scalar) : Prop where
  params : F.params.map (·.2) = ss ++ ss
  results : F.results.length = ss.length
  nodup : F.names.Nodup

/-- the combiner has no statements, and its parameters and results fit two tuples and one -/
structure Typed (F : Combiner) (ss : List Scalar) : Prop where
  body : F.body = []
  params : F.params.map (·.2) = ss ++ ss
  results : F.results.length = ss.length
  nodup : F.names.Nodup

theorem Typed.shaped {F : Combiner} (h : F.Typed ss) : F.Shaped ss := ⟨h.params, h.results, h.nodup⟩

theorem Typed.locals_eq {F : Combiner} (h : F.Typed ss) : F.locals = F.names := by
  rw [locals, h.body, blockSets, blockUses_nil, List.append_nil]

theorem Shaped.length_params {F : Combiner} (h : F.Shaped ss) : F.params.length = ss.length + ss.length := by
  have := congrArg List.length h.params
  simpa using this

theorem Shaped.param {F : Combiner} (h : F.Shaped ss) {i : ℕ} {p : Name × Scalar} (hp : F.params[i]? = some p) :
    (ss ++ ss)[i]? = some p.2 := by
  rw [← h.params, List.getElem?_map, hp]
  rfl

theorem Typed.length_params {F : Combiner} (h : F.Typed ss) : F.params.length = ss.length + ss.length :=
  h.shaped.length_params

theorem Typed.param {F : Combiner} (h : F.Typed ss) {i : ℕ} {p : Name × Scalar} (hp : F.params[i]? = some p) :
    (ss ++ ss)[i]? = some p.2 :=
  h.shaped.param hp

/-- in a state where the parameters hold two tuples the results are the combined tuple -/
def Yields (F : Combiner) (f : Form) (c : Context) (s : State) (combine : Tuple ss → Tuple ss → Tuple ss) : Prop :=
  ∀ x y : Tuple ss, Holds s F.names (x.cells ++ y.cells) → AllEval f c s F.results (combine x y).cells

/-- where the parameters hold the values `vs` the statements of the combiner run to where its results are the values `zs`,
and still are when the variables `V` change -/
def Gives (F : Combiner) (f : Form) (L : LaunchSpec → List Stmt → Exec Unit) (c : Context) (V : List Name) (s : State)
    (vs zs : List Value) : Prop :=
  ∀ t, Keeps F.names [] s t → Holds t F.names vs →
    Runs f L c F.body t fun u => Keeps (blockSets F.body) [] t u ∧ ∀ w, Keeps V [] u w → AllEval f c w F.results zs

theorem Yields.gives {F : Combiner} (hF : F.Typed ss) {V : List Name} {combine : Tuple ss → Tuple ss → Tuple ss}
    (h : ∀ t, Keeps (F.names ++ V) [] s t → F.Yields f c t combine) (hd : F.names.Disjoint V) (x y : Tuple ss) :
    F.Gives f L c V s (x.cells ++ y.cells) (combine x y).cells := by
  intro t ht hvals
  rw [hF.body]
  refine Runs.nil ⟨.refl _ _ _, fun w hw => h w ?_ x y (hvals.keeps hw hd)⟩
  exact (ht.mono (List.subset_append_left _ _) (List.Subset.refl _)).trans
    (hw.mono (List.subset_append_right _ _) (List.Subset.refl _))

/-- **Applying a combiner.** What it gives ends up in the given variables. -/
theorem apply_gives (F : Combiner) (hF : F.Shaped ss) {x y z : Tuple ss} {args : List Expr} {outs V : List Name}
    (houts : outs.length = ss.length) (hlen : args.length = ss.length + ss.length) (hnd : outs.Nodup) (hV : outs ⊆ V)
    (hty : ∀ (i : ℕ) e sc, args[i]? = some e → (ss ++ ss)[i]? = some sc → e.ty = .scalar sc)
    (hargs : ∀ t, Keeps F.names [] s t → AllEval f c t args (x.cells ++ y.cells))
    (hres : F.Gives f L c V s (x.cells ++ y.cells) z.cells)
    (hq : ∀ t, Keeps (F.locals ++ outs) [] s t → Holds t outs z.cells → Q t) :
    Runs f L c [F.apply args outs] s Q := by
  have hK := hF.length_params
  have hargNames : (F.params.zip args).map (fun a => a.1.1) = F.names :=
    map_zip_fst (fun a : Name × Scalar => a.1) (by rw [hK, hlen])
  have houtNames : ((F.results.zip outs).zip F.params).map (fun a => a.1.2) = outs := by
    rw [map_zip_fst (fun a : Expr × Name => a.2) (by rw [List.length_zip, hK, hF.results, houts]; omega),
      map_zip_snd (fun a : Name => a) (by rw [hF.results, houts]), List.map_id']
  unfold Combiner.apply
  refine Runs.block (Runs.append (Runs.append ?_))
  -- the parameters
  refine Runs.binds (fun a : (Name × Scalar) × Expr => a.1.1) (fun a => a.2.castIfNeeded a.1.2) (F.params.zip args)
    (x.cells ++ y.cells) (by rw [List.length_zip, hK, hlen, x.length_append, Nat.min_self])
    (by rw [hargNames]; exact hF.nodup) ?_ ?_ ?_
  · intro i a v ha hv
    rw [List.getElem?_zip_eq_some] at ha
    have hsc := hF.param ha.1
    have hty' := hty i _ _ ha.2 hsc
    exact ⟨_, by rwa [Expr.castIfNeeded_of_ty hty'], x.fits_append y hsc hv⟩
  · intro t ht i a v ha hv
    rw [hargNames] at ht
    rw [List.getElem?_zip_eq_some] at ha
    rw [Expr.castIfNeeded_of_ty (hty i _ _ ha.2 (hF.param ha.1))]
    exact hargs t ht i _ v ha.2 hv
  intro t ht hparams
  rw [hargNames] at ht
  have hholds : Holds t F.names (x.cells ++ y.cells) := by
    intro i n v hn hv
    rw [names, List.getElem?_map, Option.map_eq_some_iff] at hn
    obtain ⟨p, hp, rfl⟩ := hn
    have hi : i < args.length := by
      rw [hlen, ← hK]
      exact (List.getElem?_eq_some_iff.1 hp).1
    exact hparams i (p, args[i]) v (List.getElem?_zip_eq_some.2 ⟨hp, List.getElem?_eq_getElem hi⟩) hv
  -- the statements
  refine (hres t ht hholds).mono fun u ⟨hu, hvals⟩ => ?_
  have hsu : Keeps F.locals [] s u :=
    (ht.mono (List.subset_append_left _ _) (List.Subset.refl _)).trans
      (hu.mono (List.subset_append_right _ _) (List.Subset.refl _))
  -- the results
  refine Runs.storeVars (fun a : (Expr × Name) × (Name × Scalar) => a.1.2) (fun a => a.1.1) (fun a => a.2.2)
    ((F.results.zip outs).zip F.params) z.cells ?_ (by rw [houtNames]; exact hnd) ?_ ?_ ?_
  · rw [List.length_zip, List.length_zip, hK, hF.results, houts, z.length_eq]
    omega
  · intro i a v ha hv
    rw [List.getElem?_zip_eq_some] at ha
    have hi : i < ss.length := by
      rw [← z.length_eq]
      exact (List.getElem?_eq_some_iff.1 hv).1
    have hsc := hF.param ha.2
    rw [List.getElem?_append_left hi] at hsc
    exact z.fits i _ v hsc hv
  · intro w hw i a v ha hv
    rw [houtNames] at hw
    rw [List.getElem?_zip_eq_some, List.getElem?_zip_eq_some] at ha
    exact hvals w (hw.mono hV (List.Subset.refl _)) i _ v ha.1.1 hv
  · intro w hw houtsHold
    rw [houtNames] at hw
    refine hq w ((hsu.mono (List.subset_append_left _ _) (List.Subset.refl _)).trans
      (hw.mono (List.subset_append_right _ _) (List.Subset.refl _))) fun i n v hn hv => ?_
    have hi : i < ss.length := by
      rw [← z.length_eq]
      exact (List.getElem?_eq_some_iff.1 hv).1
    have hr : F.results[i]? = some (F.results.get ⟨i, by rw [hF.results]; exact hi⟩) := List.getElem?_eq_getElem _
    have hp : F.params[i]? = some (F.params.get ⟨i, by rw [hK]; omega⟩) := List.getElem?_eq_getElem _
    exact houtsHold i ((_, n), _) v
      (List.getElem?_zip_eq_some.2 ⟨List.getElem?_zip_eq_some.2 ⟨hr, hn⟩, hp⟩) hv

/-- applying a combiner without statements leaves the combined tuple in the given variables -/
theorem apply_runs (F : Combiner) (hF : F.Typed ss) (combine : Tuple ss → Tuple ss → Tuple ss) (x y : Tuple ss)
    {args : List Expr} {outs : List Name} (houts : outs.length = ss.length) (hlen : args.length = ss.length + ss.length)
    (hnd : (F.names ++ outs).Nodup)
    (hty : ∀ (i : ℕ) e sc, args[i]? = some e → (ss ++ ss)[i]? = some sc → e.ty = .scalar sc)
    (hargs : ∀ t, Keeps F.names [] s t → AllEval f c t args (x.cells ++ y.cells))
    (hres : ∀ t, Keeps (F.names ++ outs) [] s t → F.Yields f c t combine)
    (hq : ∀ t, Keeps (F.names ++ outs) [] s t → Holds t outs (combine x y).cells → Q t) :
    Runs f L c [F.apply args outs] s Q :=
  F.apply_gives hF.shaped houts hlen hnd.of_append_right (List.Subset.refl _) hty hargs
    (Yields.gives hF hres (List.disjoint_of_nodup_append hnd) x y) (by rw [hF.locals_eq]; exact hq)

end Combiner

end GpuHistogram
