/-
The phases of a group in local memory that go through the copies element by element. Before the elements are combined, the
first slot of every operator becomes the copy of the group in global memory and the others neutral (`initElement_runs`);
afterwards the slots are combined into the first (`compactElement_runs`), and that is written back (`publishElement_runs`).

In all phases the copies of the operator, with what the slots of the group merge into in the place of its own copy, are what
has been gathered so far (`LocalLayout.Filled`, `Compacted`, `Published`).
-/
import GpuHistogram.Proofs.LocalGroup

namespace GpuHistogram

open Machine

variable {f : Form} {L : LaunchSpec → List Stmt → Exec Unit} {c : Context} {s t u : State} {Q : State → Prop}

/-! ## Storing a tuple -/

section Stores

variable {arrays : List (Name × Scalar)} {es : List Expr} {sp : Space} {idx : Expr} {ss : List Scalar}

/-- a tuple in memory is replaced by the values of expressions -/
theorem Machine.Runs.stores {n k : ℕ} {T : ℕ → Tuple ss} (x : Tuple ss) (hss : arrays.map (·.2) = ss)
    (hes : es.length = ss.length) (hk : k < n) (hidx : ∀ t, Keeps [] (arrays.map (·.1)) s t → Computes f c t idx k)
    (he : ∀ t, Keeps [] (arrays.map (·.1)) s t → AllEval f c t es x.cells)
    (hT : s.memory.Table (arrays.map (·.1)) ss n T)
    (hq : ∀ t, Keeps [] (arrays.map (·.1)) s t → t.memory.Table (arrays.map (·.1)) ss n (Function.update T k x) → Q t) :
    Runs f L c (Part.stores (arrays.map fun a => .element a.1 a.2 sp idx) es) s Q := by
  have hlen : arrays.length = es.length := by rw [hes, ← hss, List.length_map]
  have hnames : (arrays.zip es).map (fun a => a.1.1) = arrays.map (·.1) := map_zip_fst (fun a : Name × Scalar => a.1) hlen.le
  have hscalars : (arrays.zip es).map (fun a => a.1.2) = ss := (map_zip_fst (fun a : Name × Scalar => a.2) hlen.le).trans hss
  have hexprs : (arrays.zip es).map (fun a => a.2) = es := (map_zip_snd (fun e : Expr => e) hlen.ge).trans (List.map_id' es)
  unfold Part.stores
  rw [List.zip_map_left, List.map_map]
  rw [← hnames] at hidx he hT hq
  exact Runs.writeTuple (arrays.zip es) (fun a => a.1.1) (fun a => a.1.2) (fun a => a.2) x hscalars hk hidx
    (by rw [hexprs]; exact he) hT hq

theorem uses_stores (arrays : List (Name × Scalar)) (es : List Expr) (sp : Space) (hidx : idx.arrays = []) :
    blockSets (Part.stores (arrays.map fun a => .element a.1 a.2 sp idx) es) = [] ∧
      blockStores (Part.stores (arrays.map fun a => .element a.1 a.2 sp idx) es) ⊆ arrays.map (·.1) := by
  unfold Part.stores
  rw [List.zip_map_left, List.map_map]
  simp only [blockSets, blockStores, blockUses_map]
  constructor
  · rw [List.flatMap_eq_nil_iff]
    intro a _
    rfl
  · intro n hn
    obtain ⟨a, ha, hn⟩ := List.mem_flatMap.1 hn
    have harr : (Expr.element a.1.1 a.1.2 sp idx).arrays = [a.1.1] := by
      change ([a.1.1] ++ []) ++ idx.arrays = _
      rw [hidx]
      rfl
    have hn' : n ∈ (Expr.element a.1.1 a.1.2 sp idx).arrays := by
      simpa [Stmt.store, Stmt.uses, Use.among] using hn
    rw [harr, List.mem_singleton] at hn'
    exact hn' ▸ List.mem_map_of_mem (List.of_mem_zip ha).1

theorem stores_over {V Arr : Name → Prop} (harr : ∀ a ∈ arrays, Arr a.1) (hidx : idx.Over V Arr)
    (hes : ∀ e ∈ es, e.Over V Arr) : blockOver V Arr (Part.stores (arrays.map fun a => .element a.1 a.2 sp idx) es) := by
  unfold Part.stores
  refine blockOver_of_forall fun x hx => ?_
  obtain ⟨a, ha, rfl⟩ := List.mem_map.1 hx
  obtain ⟨b, hb, he⟩ := List.mem_map.1 (List.of_mem_zip ha).1
  refine over_store.2 ⟨?_, hes _ (List.of_mem_zip ha).2⟩
  rw [← he]
  exact over_element.2 ⟨harr b hb, hidx⟩

end Stores

theorem Machine.AllEval.scalarVars {ns : List Name} {ss : List Scalar} {vs : List Value} (h : Holds s ns vs) :
    AllEval f c s ((ns.zip ss).map fun a => .scalarVar a.1 a.2) vs := by
  intro i e v he hv
  rw [List.getElem?_map, Option.map_eq_some_iff] at he
  obtain ⟨a, ha, rfl⟩ := he
  exact .scalarVar (h i a.1 v (List.getElem?_zip_eq_some.1 ha).1 hv)

namespace Part

variable {q : Part} {blocks : List Name}

theorem localArrays_names (h : blocks.length = q.subs.dests.length) : (q.localArrays blocks).map (·.1) = blocks := by
  rw [localArrays, List.map_map]
  exact (map_zip_snd (fun n : Name => n) h.le).trans (List.map_id' _)

theorem localArrays_scalars (h : blocks.length = q.subs.dests.length) :
    (q.localArrays blocks).map (·.2) = q.subs.dests.map (·.elem) := by
  rw [localArrays, List.map_map]
  exact map_zip_fst (fun d : Destination => d.elem) h.ge

theorem compactElement_eq (shape : LocalShape) (blocks : List Name) (s : Name) (accs : List Name) (j : Expr) :
    q.compactElement shape blocks s accs j =
      combineCopies q.op.combiner (q.localArrays blocks) .shared accs
          ((accs.zip (q.subs.dests.map (·.elem))).map fun a => .scalarVar a.1 a.2) s j (.ofName s * q.subs.size + j) shape.copies
        ++ stores ((q.localArrays blocks).map fun a => .element a.1 a.2 .shared j)
          ((accs.zip (q.subs.dests.map (·.elem))).map fun a => .scalarVar a.1 a.2) := by
  rw [List.zip_map_right, List.map_map]
  rfl

end Part

namespace LocalLayout

variable {K : LocalLayout} {k k₀ k' j g n i l e : ℕ} {X A R : List Name} {h : Histogram} {M : Histogram.Meaning} {o : Options}
  {p : Plan} {m₁ : Memory} {mlen : ℕ → ℕ} {gm : ℕ → ℕ → Value} {q : Part × LocalPart} {D : ℕ → Bool}
  {prior : (q : Part) → ℕ → Tuple q.op.scalars}

/-! ## What is known of the copies -/

section Relations

variable (K) (M) (prior) (i e : ℕ) (q : Part × LocalPart) (D : ℕ → Bool) (T V : ℕ → Tuple q.1.op.scalars)

/-- the slots of the group `i`, in the place of its copy, and the other copies merge into what is gathered of the elements
below `e` -/
def Gathers : Prop :=
  M.Merges q.1.op → ∀ a < M.segments * M.size q.1.op, Copies.merged (M.combine q.1.op) K.perSegment (M.size q.1.op)
    (Copies.insertCopy (M.size q.1.op) i (Copies.merged (M.combine q.1.op) K.slots (M.size q.1.op) V) T) a =
      M.gathered q.1.op q.1.contribution (prior q.1) a e

/-- the copies merge into what is gathered, and some elements of the slots have their first values -/
def Filled : Prop :=
  (M.Merges q.1.op → ∀ a < M.segments * M.size q.1.op,
    Copies.merged (M.combine q.1.op) K.perSegment (M.size q.1.op) T a =
      M.gathered q.1.op q.1.contribution (prior q.1) a e) ∧
  ∀ x < K.slots * M.size q.1.op, D x = true →
    V x = Copies.spread K.slots (M.size q.1.op) (M.neutral q.1.op) (fun j => T (i * M.size q.1.op + j)) x

/-- some elements of the slots are combined into the first slot -/
def Compacted : Prop :=
  M.Merges q.1.op → ∀ a < M.segments * M.size q.1.op,
    Copies.merged (M.combine q.1.op) K.perSegment (M.size q.1.op) (Copies.insertCopy (M.size q.1.op) i
      (fun x => if D x then V x else Copies.merged (M.combine q.1.op) K.slots (M.size q.1.op) V x) T) a =
        M.gathered q.1.op q.1.contribution (prior q.1) a e

/-- some elements of the first slot are written back -/
def Published : Prop :=
  (M.Merges q.1.op → ∀ a < M.segments * M.size q.1.op,
    Copies.merged (M.combine q.1.op) K.perSegment (M.size q.1.op) (Copies.insertCopy (M.size q.1.op) i V T) a =
      M.gathered q.1.op q.1.contribution (prior q.1) a e) ∧
  ∀ x < M.size q.1.op, D x = true → T (i * M.size q.1.op + x) = V x

end Relations

section Phases

variable {y : ℕ} {T V : ℕ → Tuple q.1.op.scalars} {D' : ℕ → Bool}

theorem size_pos {b size : ℕ} (h : y < b * size) : 0 < size := Nat.pos_of_mul_pos_left (Nat.zero_lt_of_lt h)

/-- when all elements of the slots have their first values, the slots of the group merge into its copy -/
theorem Filled.gathers (hF : K.Filled M prior i e q D T V) (hslots : 0 < K.slots)
    (hD : ∀ x < K.slots * M.size q.1.op, D x = true) : K.Gathers M prior i e q T V := fun hm a ha => by
  rw [Copies.insertCopy_spread hm.neutral (size_pos ha) hslots fun x hx => hF.2 x hx (hD x hx)]
  exact hF.1 hm a ha

theorem Gathers.compacted (hG : K.Gathers M prior i e q T V) (hD : ∀ x < M.size q.1.op, D x = false) :
    K.Compacted M prior i e q D T V := fun hm a ha => by
  rw [Copies.insertCopy_congr (size_pos ha) fun x hx => by rw [if_neg (by simp [hD x hx])]]
  exact hG hm a ha

/-- one more element -/
theorem Compacted.next (hC : K.Compacted M prior i e q D T V) (hy : y < M.size q.1.op) (hD : D y = false) :
    K.Compacted M prior i e q (fun z => D z || z == y) T
      (Function.update V y (Copies.merged (M.combine q.1.op) K.slots (M.size q.1.op) V y)) := fun hm a ha => by
  rw [← hC hm a ha, Copies.insertCopy_congr (size_pos ha) fun x hx => ?_]
  by_cases hxy : x = y
  · subst hxy
    simp [hD]
  · rw [Function.update_of_ne hxy, Copies.merged_update hy hx hxy]
    simp [hxy]

theorem Compacted.published (hC : K.Compacted M prior i e q D T V) (hD : ∀ x < M.size q.1.op, D x = true)
    (hD' : ∀ x < M.size q.1.op, D' x = false) :
    K.Published M prior i e q D' T V := by
  refine ⟨fun hm a ha => ?_, fun x hx h => absurd h (by simp [hD' x hx])⟩
  rw [← hC hm a ha, Copies.insertCopy_congr (size_pos ha) fun x hx => (if_pos (hD x hx)).symm]

/-- when all elements of the first slot are written back, the copies have what is gathered -/
theorem Published.merged (hP : K.Published M prior i e q D T V) (hD : ∀ x < M.size q.1.op, D x = true)
    (hm : M.Merges q.1.op) {a : ℕ} (ha : a < M.segments * M.size q.1.op) :
    Copies.merged (M.combine q.1.op) K.perSegment (M.size q.1.op) T a =
      M.gathered q.1.op q.1.contribution (prior q.1) a e := by
  rw [← hP.1 hm a ha, Copies.insertCopy_self (size_pos ha) fun x hx => (hP.2 x hx (hD x hx)).symm]

end Phases

section Step

variable (hst : K.Stage p h M o R A X c k₀ k j g n mlen s) (hq : q ∈ K.parts)
include hst hq

theorem Stage.lengths : q.2.blocks.length = q.1.subs.dests.length ∧ q.1.subs.subs.length = q.1.subs.dests.length ∧
    q.1.subs.dests.map (·.elem) = q.1.op.scalars := by
  have hfit := hst.fits q hq
  rw [hfit.part.dests]
  exact ⟨hfit.targets, hfit.part.subs, rfl⟩

theorem Stage.localArrays : (q.1.localArrays q.2.blocks).map (·.1) = q.2.blocks ∧
    (q.1.localArrays q.2.blocks).map (·.2) = q.1.op.scalars := by
  obtain ⟨hb, -, hss⟩ := hst.lengths hq
  exact ⟨Part.localArrays_names hb, (Part.localArrays_scalars hb).trans hss⟩

theorem Stage.subArrays : q.1.subs.arrays.map (·.1) = q.1.subs.subs ∧ q.1.subs.arrays.map (·.2) = q.1.op.scalars := by
  obtain ⟨-, hs, hss⟩ := hst.lengths hq
  exact ⟨Subhistograms.arrays_names hs, (Subhistograms.arrays_scalars hs).trans hss⟩

/-- the elements at one index of the arrays of copies -/
theorem Stage.evalSubs {c' : Context} {T : ℕ → Tuple q.1.op.scalars} {idx : Expr} {a len : ℕ} (hidx : Computes f c' t idx a)
    (hT : t.memory.Table q.1.subs.subs q.1.op.scalars len T) (ha : a < len) :
    AllEval f c' t (q.1.subs.subAccesses idx) (T a).cells := by
  obtain ⟨-, -, hss⟩ := hst.lengths hq
  have harrays : q.1.subs.arrays = q.1.subs.subs.zip q.1.op.scalars := by
    rw [← hss, List.zip_map_right]
    rfl
  unfold Subhistograms.subAccesses
  rw [harrays]
  exact AllEval.elements hidx hT ha

/-- the elements at one index of the blocks -/
theorem Stage.evalBlocks {c' : Context} {V : ℕ → Tuple q.1.op.scalars} {idx : Expr} {a len : ℕ} (hidx : Computes f c' t idx a)
    (hV : t.memory.Table q.2.blocks q.1.op.scalars len V) (ha : a < len) :
    AllEval f c' t (q.1.localElements q.2.blocks idx) (V a).cells := by
  obtain ⟨-, -, hss⟩ := hst.lengths hq
  have harrays : q.1.localArrays q.2.blocks = q.2.blocks.zip q.1.op.scalars := by
    rw [← hss, List.zip_map_right, Part.localArrays, ← List.zip_swap, List.map_map]
    rfl
  unfold Part.localElements
  rw [harrays]
  exact AllEval.elements hidx hV ha

/-- the place of an element in the copy of the group -/
theorem Stage.publishedIndex_computes {c' : Context} {idx : Expr} {x : ℕ} (hsc : K.Scene h A s m₁)
    (ht : K.Thread h M mlen gm k X s m₁ g i l e t) (hi : i < M.segments * K.perSegment) (hidx : Computes f c' t idx x)
    (hx : x < M.size q.1.op) :
    Computes f c' t (q.1.publishedIndex K.ns K.shape idx) (i * M.size q.1.op + x : ℕ) ∧
      i * M.size q.1.op + x < M.segments * K.perSegment * M.size q.1.op := by
  have hpos : 0 < M.size q.1.op := Nat.zero_lt_of_lt hx
  have hlt : i * M.size q.1.op + x < M.segments * K.perSegment * M.size q.1.op := by
    have h := Nat.mul_le_mul_right (M.size q.1.op) (Nat.succ_le_of_lt hi)
    rw [Nat.succ_mul] at h
    omega
  have hfit := Word64.fits_le (hst.numbers.copies _ (hst.op_mem hq)) hlt.le
  have hsplit : i / K.perSegment * K.perSegment + i % K.perSegment = i := Nat.div_add_mod' i _
  have hrow : i ≤ i * M.size q.1.op := Nat.le_mul_of_pos_right _ hpos
  have hifit : Word64.fits (i : ℕ) = true := Word64.fits_le hfit (by omega)
  have hsees := ht.sees hsc
  have h1 := (Computes.ofName (f := f) (c := c') ht.vars.segment (Word64.fits_le hifit (Nat.div_le_self _ _))).mulNat
    ((hst.perSegment.sees hsees).computes f c') (Word64.fits_le hifit (Nat.div_mul_le_self _ _))
  have h2 := h1.addNat (.ofName ht.vars.group (Word64.fits_le hifit (Nat.mod_le _ _))) (by rw [hsplit]; exact hifit)
  rw [hsplit] at h2
  have h3 := h2.mulNat (((hst.fits q hq).part.size.sees hsees).computes f c') (Word64.fits_le hfit (by omega))
  exact ⟨h3.addNat hidx hfit, hlt⟩

/-- **First values.** One more element of the slots gets its first value. -/
theorem initElement_runs {c' : Context} {m : Name} {y : ℕ} (hsc : K.Scene h A s m₁) (hi : i < M.segments * K.perSegment)
    (ht : K.Thread h M mlen gm k X s m₁ g i l e t) (hm : t.vars.get? m = some (.word y))
    (hy : y < K.slots * M.size q.1.op) (hT : K.Tables M q (K.Filled M prior i e q D) t.memory) :
    Runs f L c' (q.1.initElement K.ns K.shape q.2.blocks (.ofName m)) t fun v =>
      K.Tables M q (K.Filled M prior i e q fun z => D z || z == y) v.memory := by
  have hpos := size_pos hy
  have hpart := (hst.fits q hq).part
  obtain ⟨hnames, hscalars⟩ := hst.localArrays hq
  obtain ⟨hblocks, hsubs, hss⟩ := hst.lengths hq
  obtain ⟨T, V, hTt, hVt, hgathered, hfilled⟩ := hT
  have hyfit : Word64.fits (y : ℕ) = true :=
    Word64.fits_le (hst.numbers.filled _ (hst.op_mem hq)).1 (hy.le.trans (Nat.le_add_right _ _))
  have hword {v : State} (hv : Keeps [] q.2.blocks t v) : Computes f c' v (.ofName m) y :=
    .ofName ((hv.vars m List.not_mem_nil).trans hm) hyfit
  have hlater {v : State} (hv : Keeps [] q.2.blocks t v) : K.Thread h M mlen gm k X s m₁ g i l e v :=
    ht.keeps hsc hv (fun _ hx => absurd hx List.not_mem_nil) (fun _ _ hx => absurd hx List.not_mem_nil) hq
      (List.subset_append_left _ _)
  have hTv {v : State} (hv : Keeps [] q.2.blocks t v) :
      v.memory.Table q.1.subs.subs q.1.op.scalars (M.segments * K.perSegment * M.size q.1.op) T := by
    refine hTt.keeps hv.memory fun x hx => ((hsc.subs_apart hq hx).mono fun w hw => ?_).keeps ht.memory
    exact List.mem_append_right _ (List.mem_flatMap.2 ⟨q, hq, hw⟩)
  -- a store of the first value of the element
  have hstore {es : List Expr} (hes : es.length = q.1.op.scalars.length)
      (he : ∀ v, Keeps [] q.2.blocks t v → AllEval f c' v es (Copies.spread K.slots (M.size q.1.op) (M.neutral q.1.op)
        (fun j => T (i * M.size q.1.op + j)) y).cells) :
      Runs f L c' (Part.stores (q.1.localElements q.2.blocks (.ofName m)) es) t fun v =>
        K.Tables M q (K.Filled M prior i e q fun z => D z || z == y) v.memory := by
    refine Runs.stores (T := V) (n := K.slots * M.size q.1.op) _ hscalars hes hy
      (by rw [hnames]; exact fun v hv => hword hv) (by rw [hnames]; exact he) (by rw [hnames]; exact hVt) fun v hv hVv => ?_
    rw [hnames] at hv hVv
    refine ⟨T, _, hTv hv, hVv, hgathered, fun x hx hD => ?_⟩
    by_cases hxy : x = y
    · rw [hxy, Function.update_self]
    · rw [Function.update_of_ne hxy]
      exact hfilled x hx (by simpa [hxy] using hD)
  unfold Part.initElement
  refine Runs.ifElse (Evals.lt (hword (.refl _ _ _)) ((hpart.size.sees (ht.sees hsc)).computes f c')) ?_
  have htruth : (Value.bool (decide ((y : Int) < (M.size q.1.op : ℕ)))).truth = decide (y < M.size q.1.op) := by
    simp [Value.truth]
  rw [htruth]
  by_cases hlt : y < M.size q.1.op
  · -- the first slot is the copy of the group
    rw [if_pos (by simpa using hlt)]
    have hvalue : Copies.spread K.slots (M.size q.1.op) (M.neutral q.1.op) (fun j => T (i * M.size q.1.op + j)) y =
        T (i * M.size q.1.op + y) := by
      rw [Copies.spread, Nat.div_eq_of_lt hlt, Nat.zero_mod, if_pos rfl, Nat.zero_div, Nat.zero_mul, Nat.zero_add,
        Nat.mod_eq_of_lt hlt]
    refine hstore ?_ fun v hv => ?_
    · simp only [Part.published, Subhistograms.subAccesses, Subhistograms.arrays, List.length_map, List.length_zip, hsubs,
        Nat.min_self, ← hss]
    · obtain ⟨hidx, hbound⟩ := hst.publishedIndex_computes hq hsc (hlater hv) hi (hword hv) hlt
      rw [hvalue]
      exact hst.evalSubs hq hidx (hTv hv) hbound
  · rw [if_neg (by simpa using hlt)]
    have hslot : y / M.size q.1.op < K.slots := Nat.div_lt_of_lt_mul (by rwa [Nat.mul_comm])
    have hrow : 0 < y / M.size q.1.op := Nat.div_pos (Nat.le_of_not_lt hlt) hpos
    have hvalue : Copies.spread K.slots (M.size q.1.op) (M.neutral q.1.op) (fun j => T (i * M.size q.1.op + j)) y =
        M.neutral q.1.op := by
      rw [Copies.spread, Nat.mod_eq_of_lt hslot, if_neg (by omega)]
    refine hstore ?_ fun v hv => ?_
    · rw [hpart.neutral]
      simpa using congrArg List.length (hst.regular.neutral _ (hst.op_mem hq))
    · rw [hvalue, hpart.neutral]
      exact hst.means.neutral _ (hst.op_mem hq) f c' v ((hlater hv).sees hsc)

/-- **Combining.** The slots of one more element are combined into the first. -/
theorem compactElement_runs {c' : Context} {m sn : Name} {accs : List Name} {y : ℕ} (hsc : K.Scene h A s m₁)
    (hc : c'.thread.isSome = true) (hrounds : c'.rounds = c.rounds) (hnew : ∀ x ∈ m :: sn :: accs, x.Within j k')
    (hnd : (m :: sn :: accs).Nodup) (haccs : accs.length = q.2.blocks.length)
    (ht : K.Thread h M mlen gm k X s m₁ g i l e t) (hm : t.vars.get? m = some (.word y)) (hy : y < M.size q.1.op)
    (hD : D y = false) (hT : K.Tables M q (K.Compacted M prior i e q D) t.memory) :
    Runs f L c' (q.1.compactElement K.shape q.2.blocks sn accs (.ofName m)) t fun v =>
      K.Tables M q (K.Compacted M prior i e q fun z => D z || z == y) v.memory := by
  have hop := hst.op_mem hq
  have hpart := (hst.fits q hq).part
  have hpos : 0 < M.size q.1.op := Nat.zero_lt_of_lt hy
  obtain ⟨hnames, hscalars⟩ := hst.localArrays hq
  obtain ⟨hblocks, -, hss⟩ := hst.lengths hq
  obtain ⟨T, V, hTt, hVt, hgathered⟩ := hT
  have haccs' : accs.length = q.1.op.scalars.length := by rw [haccs, hblocks, ← hss, List.length_map]
  obtain ⟨hmrest, hsn, haccsNd⟩ : m ∉ sn :: accs ∧ sn ∉ accs ∧ accs.Nodup := by
    simpa only [List.nodup_cons] using hnd
  have hlocal {x : Name} (hx : x ∈ q.1.op.combiner.names) : x ∈ h.locals :=
    Histogram.Regular.mem_locals hop (List.mem_append_right _ hx)
  have hyoung {x : Name} (hx : x ∈ m :: sn :: accs) : x ∉ q.1.op.combiner.names := fun hm =>
    (hnew x hx).not_before ((hst.locals (hlocal hm)).2.mono hst.newer)
  have hsets {x : Name} (hx : x ∈ sn :: (q.1.op.combiner.names ++ accs)) : x.Within j k' ∨ x ∈ h.locals := by
    rcases List.mem_cons.1 hx with rfl | hx
    · exact .inl (hnew _ (by simp))
    · rcases List.mem_append.1 hx with hx | hx
      · exact .inr (hlocal hx)
      · exact .inl (hnew _ (by simp [hx]))
  have hmfree : m ∉ sn :: (q.1.op.combiner.names ++ accs) := fun hx => by
    rcases List.mem_cons.1 hx with rfl | hx
    · exact hmrest (List.mem_cons_self ..)
    · rcases List.mem_append.1 hx with hx | hx
      · exact hyoung (List.mem_cons_self ..) hx
      · exact hmrest (List.mem_cons_of_mem _ hx)
  have hyslots : y < K.slots * M.size q.1.op := hy.trans_le (Nat.le_mul_of_pos_left _ hst.numbers.slots_pos)
  have hslotsFit : Word64.fits (K.slots * M.size q.1.op : ℕ) = true :=
    Word64.fits_le (hst.numbers.filled _ hop).1 (Nat.le_add_right _ _)
  have hword {W : List Name} {v : State} (hv : Keeps (sn :: (q.1.op.combiner.names ++ accs)) W t v) :
      Computes f c' v (.ofName m) y := .ofName ((hv.vars m hmfree).trans hm) (Word64.fits_le hslotsFit hyslots.le)
  have hlater {v : State} (hv : Keeps (sn :: (q.1.op.combiner.names ++ accs)) [] t v) :
      K.Thread h M mlen gm k X s m₁ g i l e v :=
    ht.keeps hsc hv (fun x hx => hst.mem_of_before (hsets hx)) (fun x hx hm => hst.not_start hx (hsets hm)) hq
      (List.nil_subset _)
  have hsub : accs ⊆ sn :: (q.1.op.combiner.names ++ accs) := fun x hx =>
    List.mem_cons_of_mem _ (List.mem_append_right _ hx)
  -- the place of the element in a slot
  have hplace {r : ℕ} (hr : r < K.slots) : Copies.place K.slots (M.size q.1.op) y r = r * M.size q.1.op + y ∧
      r * M.size q.1.op + y < K.slots * M.size q.1.op := by
    have h := Nat.mul_le_mul_right (M.size q.1.op) (Nat.succ_le_of_lt hr)
    rw [Nat.succ_mul] at h
    exact ⟨Copies.place_of_lt hy, by omega⟩
  have hfirst {v : State} (hv : Computes f c' v (.ofName m) y) :
      Computes f c' v (.ofName m) (Copies.place K.slots (M.size q.1.op) y 0) := by
    rwa [(hplace hst.numbers.slots_pos).1, Nat.zero_mul, Nat.zero_add]
  rw [Part.compactElement_eq, hss]
  refine Runs.append (combineCopies_runs (T := V) (i := y) (hst.regular.typed hop) hscalars haccs' ?_ ?_ hc
    hst.numbers.slots_pos (hrounds ▸ hst.numbers.compacted) (fun r hr => (hplace hr).1 ▸ (hplace hr).2)
    (by rw [hnames]; exact hVt) (fun v hv => hfirst (hword (hv.mono hsub (List.Subset.refl _)))) (fun v r hr hv hrv => ?_)
    (fun v hv => (hst.slots.sees ((hlater (hv.mono hsub (List.Subset.refl _))).sees hsc)).computes f c')
    (fun x hx hm => (hst.slots.scalars x hx).2 (hst.mem_of_before (hsets hm) (hst.slots.scalars x hx).1)) hst.slots.arrays
    (fun v hv => hst.means.combine _ hop f c' v ((hlater hv).sees hsc)) fun v hv hvals => ?_)
  · exact List.nodup_append.2 ⟨(hst.regular.typed hop).nodup, haccsNd, fun x hx x' hx' he =>
      hyoung (List.mem_cons_of_mem _ (List.mem_cons_of_mem _ hx')) (he ▸ hx)⟩
  · rw [List.mem_append, not_or]
    exact ⟨hyoung (by simp), hsn⟩
  · obtain ⟨hp, hlt⟩ := hplace hr
    have hfit := Word64.fits_le hslotsFit hlt.le
    rw [hp]
    exact ((Computes.ofName hrv (Word64.fits_le hfit ((Nat.le_mul_of_pos_right _ hpos).trans (Nat.le_add_right _ _)))).mulNat
      ((hpart.size.sees ((hlater hv).sees hsc)).computes f c') (Word64.fits_le hfit (Nat.le_add_right _ _))).addNat
      (hword hv) hfit
  · -- the element of the first slot becomes what its slots merge into
    have hlast {u : State} (hu : Keeps [] q.2.blocks v u) : Keeps (sn :: (q.1.op.combiner.names ++ accs)) q.2.blocks t u :=
      (hv.mono (List.Subset.refl _) (List.nil_subset _)).trans (hu.mono (List.nil_subset _) (List.Subset.refl _))
    refine Runs.stores (T := V) (n := K.slots * M.size q.1.op) _ hscalars (by simp [haccs']) hyslots
      (by rw [hnames]; exact fun u hu => hword (hlast hu))
      (fun u hu => .scalarVars (hvals.keeps hu fun _ _ hx => absurd hx List.not_mem_nil))
      (by rw [hnames]; exact hVt.keeps hv.memory fun _ _ _ hw => absurd hw List.not_mem_nil) fun u hu hVu => ?_
    rw [hnames] at hu hVu
    refine ⟨T, _, hTt.keeps (hlast hu).memory fun x hx => ?_, hVu, hgathered.next hy hD⟩
    refine ((hsc.subs_apart hq hx).mono fun w hw => ?_).keeps ht.memory
    exact List.mem_append_right _ (List.mem_flatMap.2 ⟨q, hq, hw⟩)

/-- **Writing back.** One more element of the first slot becomes the one of the copy of the group. -/
theorem publishElement_runs {c' : Context} {m : Name} {y : ℕ} (hsc : K.Scene h A s m₁) (hi : i < M.segments * K.perSegment)
    (ht : K.Thread h M mlen gm k X s m₁ g i l e t) (hm : t.vars.get? m = some (.word y)) (hy : y < M.size q.1.op)
    (hT : K.Tables M q (K.Published M prior i e q D) t.memory) :
    Runs f L c' (q.1.publishElement K.ns K.shape q.2.blocks (.ofName m)) t fun v =>
      K.Tables M q (K.Published M prior i e q fun z => D z || z == y) v.memory := by
  obtain ⟨hnames, hscalars⟩ := hst.subArrays hq
  obtain ⟨hblocks, hsubs, hss⟩ := hst.lengths hq
  obtain ⟨T, V, hTt, hVt, hgathered, hwritten⟩ := hT
  have hyslots : y < K.slots * M.size q.1.op := hy.trans_le (Nat.le_mul_of_pos_left _ hst.numbers.slots_pos)
  have hyfit : Word64.fits (y : ℕ) = true :=
    Word64.fits_le (hst.numbers.filled _ (hst.op_mem hq)).1 (hyslots.le.trans (Nat.le_add_right _ _))
  have hword {v : State} (hv : Keeps [] q.1.subs.subs t v) : Computes f c' v (.ofName m) y :=
    .ofName ((hv.vars m List.not_mem_nil).trans hm) hyfit
  have hlater {v : State} (hv : Keeps [] q.1.subs.subs t v) : K.Thread h M mlen gm k X s m₁ g i l e v :=
    ht.keeps hsc hv (fun _ hx => absurd hx List.not_mem_nil) (fun _ _ hx => absurd hx List.not_mem_nil) hq
      (List.subset_append_right _ _)
  have hVv {v : State} (hv : Keeps [] q.1.subs.subs t v) :
      v.memory.Table q.2.blocks q.1.op.scalars (K.slots * M.size q.1.op) V := by
    refine hVt.keeps hv.memory fun x hx => Memory.Apart.keeps (m := m₁) (fun w hw p hp hp' => ?_) ht.memory
    exact hsc.subs_apart hq hw x (List.mem_append_right _ (List.mem_flatMap.2 ⟨q, hq, hx⟩)) p hp' hp
  have hplace {v : State} (hv : Keeps [] q.1.subs.subs t v) :=
    hst.publishedIndex_computes hq hsc (hlater hv) hi (hword hv) hy
  refine Runs.stores (T := T) (V y) hscalars ?_ (hplace (.refl _ _ _)).2
    (by rw [hnames]; exact fun v hv => (hplace hv).1)
    (by rw [hnames]; exact fun v hv => hst.evalBlocks hq (hword hv) (hVv hv) hyslots) (by rw [hnames]; exact hTt)
    fun v hv hTv => ?_
  · simp only [Part.localElements, Part.localArrays, List.length_map, List.length_zip, hblocks, Nat.min_self, ← hss]
  · rw [hnames] at hv hTv
    refine ⟨_, V, hTv, hVv hv, fun hm a ha => ?_, fun x hx hD => ?_⟩
    · rw [Copies.insertCopy_update hy]
      exact hgathered hm a ha
    · by_cases hxy : x = y
      · rw [hxy, Function.update_self]
      · rw [Function.update_of_ne (by omega)]
        exact hwritten x hx (by simpa [hxy] using hD)

end Step

end LocalLayout

end GpuHistogram
