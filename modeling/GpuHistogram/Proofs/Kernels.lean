/-
What the kernels that accumulate have in common. Both run the code of an element (`Plan.elementBody`), which sets no
variables but indices, parameters and new ones, stores to no arrays but the targets of its operators, the map results and
the locks, and reads nothing but what can be captured. `gathered_absorb` is the step of both: when the next element is
combined into any copy of its segment, the copies merge into what is gathered up to and including it.
-/
import GpuHistogram.Proofs.Merging
import GpuHistogram.Proofs.Planning

namespace GpuHistogram

open Machine

variable {c : Context} {s t : State} {k k₀ k' i j : ℕ} {X A R : List Name}

/-! ## Elements in their order -/

namespace Histogram.Meaning

variable {M : Histogram.Meaning} {op : Operator} {b : Contribution} {prior T : ℕ → Tuple op.scalars} {count r e a : ℕ}

/-- it does not matter in which copies the tuples of the elements are combined: neutral tuples change nothing and the order
is of no importance, unless there are no elements -/
structure Merges (M : Histogram.Meaning) (op : Operator) : Prop where
  neutral : ∀ x, M.combine op x (M.neutral op) = x
  commutes : 0 < M.total → Commutes (M.combine op) (M.neutral op)

theorem Merges.of_commutes (hc : Commutes (M.combine op) (M.neutral op)) : M.Merges op := ⟨hc.neutral, fun _ => hc⟩

/-- **The next element.** It may be combined into any copy of its segment. -/
theorem gathered_absorb (hm : M.Merges op) (he : e < M.total) (hsize : 0 < M.size op) (hr : r < count)
    (hT : Copies.merged (M.combine op) count (M.size op) T a = M.gathered op b prior a e) :
    Copies.merged (M.combine op) count (M.size op) (Copies.absorb (M.combine op) (M.size op) (e / M.elements * count + r)
      (M.brings op b e) T) a = M.gathered op b prior a (e + 1) := by
  rw [Copies.merged_absorb (hm.commutes (Nat.zero_lt_of_lt he)) hsize hr, gathered_succ, hT]
  simp only [eq_comm (a := e / M.elements)]

end Histogram.Meaning

/-! ## The code of an element -/

/-- the code of an element, given the code for its buckets -/
def Plan.elementBody (p : Plan) (segment index : Expr) (n : Name) (updates : List Stmt) : List Stmt :=
  defineIndices segment p.segmentDims ++ [.bind n index] ++ p.mapStores (segment * p.elements + .ofName n) ++ updates

section Element

variable {α : Type} {U : Updating α} {h : Histogram} {M : Histogram.Meaning} {table : Option LockTable} {p : Plan}
  {q : Part × α} {parts : List (Part × α)} {u : Stmt} {l : List Stmt} {segment index : Expr} {n : Name}
  {V Arr : Name → Prop}

/-- the update of an operator reads nothing but what can be captured -/
theorem Updating.Fits.over (hq : U.Fits h M table k X s q) (hr : h.Regular k₀ R A) (hs : h.Scope k R A X s)
    (hu : U.update q.1 q.2 (.ofName (bucketName i)) (i + 1) = some (u, k')) (hV : ∀ x, Visible k X s x → V x)
    (hindex : ∀ x ∈ h.indexNames, V x) (hA : ∀ x ∈ A, Arr x) (htargets : ∀ x ∈ U.targets q, Arr x)
    (hcopy : (U.copy q).Over V Arr) (hlocks : ∀ t, table = some t → Arr t.name ∧ t.count.Over V Arr) :
    blockOver V Arr (Plan.bucketUpdate q.1 (bucketName i) u) := by
  have hop := hq.part.op_mem
  have hdims := hr.dims hop
  have hquantity {e : Expr} {a : ℕ} {V' : Name → Prop} (he : Quantity k X s e a) (hV' : ∀ x, V x → V' x) :
      e.Over V' Arr := he.scope.mono (fun x hx => hV' x (hV x hx)) fun _ h => h.elim
  have hread {e : Expr} {N : List Name} {V' : Name → Prop} (he : e.ReadsOnly (N ++ R) A) (hN : ∀ x ∈ N, V' x)
      (hV' : ∀ x, V x → V' x) : e.Over V' Arr :=
    he.2.mono (fun x hx => (List.mem_append.1 hx).elim (hN x) fun hx => hV' x (hV x (hs.reads x hx))) hA
  have hshape {V' : Name → Prop} (hV' : ∀ x, V x → V' x) : ∀ e ∈ q.1.op.shape, e.Over V' Arr := by
    intro e he
    obtain ⟨a, ha⟩ := List.mem_iff_getElem?.1 he
    have hlt := (List.getElem?_eq_some_iff.1 ha).1
    have hq' := hq.part.shape.get hlt (hq.part.shape.length_eq ▸ hlt)
    rw [List.get_eq_getElem, (List.getElem?_eq_some_iff.1 ha).2] at hq'
    exact hquantity hq' hV'
  refine bucketUpdate_over hdims (hread (hr.readsBucket _ hq.part.input) hindex fun _ h => h)
    (hquantity hq.part.width fun _ h => h) (hshape fun _ h => h) ?_
  have hweak (x : Name) (hx : V x) : x ∈ q.1.op.bucketIndices ∨ x = bucketName i ∨ V x := .inr (.inr hx)
  have hbucketIndex : q.1.op.bucketIndex.Over (fun x => x ∈ q.1.op.bucketIndices ∨ x = bucketName i ∨ V x) Arr := by
    refine flatIndex_over fun x hx => ?_
    obtain ⟨y, hy, rfl⟩ := List.mem_map.1 hx
    exact ⟨over_ofName.2 (.inl (List.of_mem_zip hy).1), hshape hweak _ (List.of_mem_zip hy).2⟩
  have haddr : (q.1.address (U.copy q) (.ofName (bucketName i))).Over
      (fun x => x ∈ q.1.op.bucketIndices ∨ x = bucketName i ∨ V x) Arr := by
    simp only [Part.address, over_add, over_mul, over_ofName]
    exact ⟨⟨⟨⟨hcopy.mono hweak fun _ h => h, hquantity hq.part.width hweak⟩, by simp⟩,
      hquantity hq.part.bucketSize hweak⟩, hbucketIndex⟩
  refine (hq.isUpdate hr hu).over hq.method (hr.typed hop) (hr.values_length hq.part.input)
    (hq.targets.trans q.1.op.length_scalars.symm) haddr (fun e he => ?_) (fun e he => ?_) htargets
    fun t ht => ⟨(hlocks t ht).1, (hlocks t ht).2.mono hweak fun _ h => h⟩
  · refine hread (hr.readsValues _ hq.part.input e he) (fun x hx => ?_) hweak
    exact (List.mem_append.1 hx).elim (fun hx => hweak x (hindex x hx)) .inl
  · exact hread (hr.readsResults _ hop e he) (fun x hx => .inl hx) fun x hx => .inr (hweak x hx)

/-- the code of an element is generated -/
theorem Plan.elementBody_spec (hp : p.hist = h) (hr : h.Regular k₀ R A)
    (hparts : ∀ q ∈ parts, U.Fits h M table k X s q) (segment index : Expr) (j : ℕ) : ∃ n l k',
    p.element segment index parts U.update j = some (p.elementBody segment index n l, k') ∧
      Bucketed U.update parts j l k' ∧ h.segmentDims.map (·.1) ++ [n] = h.indexNames := by
  obtain ⟨x, hx⟩ : ∃ x, h.space.getLast? = some x :=
    Option.isSome_iff_exists.1 (by simpa using (Histogram.validate_ok hr.valid).1)
  obtain ⟨l, k', hl, hb⟩ := element_spec (p := p) (n := x.1)
    (by rw [hp]; exact hx) (by rw [hp]; exact hr.body) parts j fun q hq j' _ => by
      obtain ⟨u, k', hu, hk⟩ := (hparts q hq).exists_update hr (.ofName (bucketName j')) (j' + 1)
      exact ⟨u, k', hu, by omega⟩
  refine ⟨x.1, l, k', hl, hb, ?_⟩
  rw [Histogram.indexNames, Histogram.segmentDims]
  conv_rhs => rw [← List.dropLast_append_getLast? x hx, List.map_append]
  rfl

theorem Plan.elementBody_over (hd : ∀ e ∈ p.segmentDims.map (·.2), e.Over V Arr) (helements : p.elements.Over V Arr)
    (hp : p.hist = h) (hnames : p.segmentDims.map (·.1) ++ [n] = h.indexNames) (hr : h.Regular k₀ R A)
    (hs : h.Scope k R A X s) (hb : Bucketed U.update parts j l k') (hparts : ∀ q ∈ parts, U.Fits h M table k X s q)
    (hV : ∀ x, Visible k X s x → V x) (hA : ∀ x ∈ A, Arr x) (hmaps : ∀ x ∈ h.mapNames, Arr x)
    (htargets : ∀ q ∈ parts, ∀ x ∈ U.targets q, Arr x) (hcopy : ∀ q ∈ parts, (U.copy q).Over V Arr)
    (hlocks : ∀ t, table = some t → Arr t.name ∧ t.count.Over V Arr) (hsegment : segment.Over V Arr)
    (hindex : index.Over V Arr) : blockOver V Arr (p.elementBody segment index n l) := by
  refine element_over hb hsegment hindex hd helements (fun m hm => ?_) fun q hq i u k' _ hu => ?_
  · rw [hp] at hm
    refine ⟨hmaps _ (List.mem_map_of_mem hm), (hr.readsMaps m hm).2.mono (fun x hx => ?_) hA⟩
    rw [hnames]
    exact (List.mem_append.1 hx).imp_right fun hx => hV x (hs.reads x hx)
  · rw [hnames]
    exact (hparts q hq).over hr hs hu (fun x hx => .inr (hV x hx)) (fun x hx => .inl hx) hA (htargets q hq)
      ((hcopy q hq).mono (fun _ => .inr) fun _ h => h)
      fun t ht => ⟨(hlocks t ht).1, (hlocks t ht).2.mono (fun _ => .inr) fun _ h => h⟩

/-- what the definitions of indices set, and that they store to no array -/
theorem uses_defineIndices (flat : Expr) (dims : List (Name × Expr)) :
    blockSets (defineIndices flat dims) = dims.map (·.1) ∧ blockStores (defineIndices flat dims) = [] := by
  have hrest (dims : List (Name × Expr)) : blockSets (defineIndicesRest flat dims) = dims.map (·.1) ∧
      blockStores (defineIndicesRest flat dims) = [] := by
    induction dims with
    | nil => exact ⟨blockUses_nil _, blockUses_nil _⟩
    | cons x dims ih =>
      simp only [defineIndicesRest, blockSets, blockStores, blockUses_cons, Stmt.bind, Stmt.uses, Use.among,
        List.map_cons, List.singleton_append, List.nil_append] at ih ⊢
      exact ⟨congrArg _ ih.1, ih.2⟩
  cases dims with
  | nil => exact ⟨blockUses_nil _, blockUses_nil _⟩
  | cons x dims =>
    have h := hrest dims
    simp only [defineIndices, blockSets, blockStores, blockUses_cons, Stmt.bind, Stmt.uses, Use.among, List.map_cons,
      List.singleton_append, List.nil_append] at h ⊢
    exact ⟨congrArg _ h.1, h.2⟩

/-- what storing the map results sets and stores to -/
theorem uses_mapStores (p : Plan) {flat : Expr} (hflat : flat.arrays = []) :
    blockSets (p.mapStores flat) = [] ∧ blockStores (p.mapStores flat) = p.hist.mapNames := by
  unfold Plan.mapStores Histogram.mapNames
  induction p.hist.maps with
  | nil => exact ⟨blockUses_nil _, blockUses_nil _⟩
  | cons m l ih =>
    have hstore : (Expr.element m.dest.name m.dest.elem .device flat).arrays = [m.dest.name] := by
      change ([m.dest.name] ++ []) ++ flat.arrays = _
      rw [hflat]
      rfl
    simp only [blockSets, blockStores, List.map_cons, blockUses_cons, Stmt.store, Stmt.uses, Use.among] at ih ⊢
    rw [ih.1, ih.2, hstore]
    exact ⟨rfl, rfl⟩

theorem flat_arrays (h : segment.arrays = [] ∧ p.elements.arrays = []) :
    (segment * p.elements + .ofName n).arrays = [] := by
  change (segment.arrays ++ p.elements.arrays) ++ [] = []
  rw [h.1, h.2]
  rfl

/-- the variables that the code of an element sets are new, or indices and parameters -/
theorem Plan.elementBody_sets (hnames : p.segmentDims.map (·.1) ++ [n] = h.indexNames) (hr : h.Regular k₀ R A)
    (hb : Bucketed U.update parts j l k') (hparts : ∀ q ∈ parts, U.Fits h M table k X s q)
    (harrays : segment.arrays = [] ∧ p.elements.arrays = []) {m : Name}
    (hm : m ∈ blockSets (p.elementBody segment index n l)) (hmj : m.Before j) : m ∈ h.locals := by
  simp only [elementBody, blockSets, blockUses_append, List.mem_append] at hm
  have hindex {m : Name} (hm : m ∈ p.segmentDims.map (·.1) ++ [n]) : m ∈ h.locals := by
    rw [hnames] at hm
    exact List.mem_append_left _ hm
  rcases hm with ((hm | hm) | hm) | hm
  · exact hindex (List.mem_append_left _ ((uses_defineIndices segment p.segmentDims).1 ▸ hm))
  · exact hindex (List.mem_append_right _ (by simpa [Stmt.bind, Stmt.uses, Use.among] using hm))
  · have hm : m ∈ blockSets (p.mapStores (segment * p.elements + .ofName n)) := hm
    rw [(uses_mapStores p (flat_arrays harrays)).1] at hm
    cases hm
  · obtain ⟨q, hq, hm⟩ := hb.sets (Nat.le_refl j) (fun q hq i u k' hi hu m hm hmj =>
      ((hparts q hq).sets hr hu hm).elim (fun hm => absurd (hmj.mono (by omega)) hm.not_before)
        (List.mem_append_right _)) hm hmj
    exact Histogram.Regular.mem_locals (hparts q hq).part.op_mem hm

/-- the arrays that the code of an element stores to -/
theorem Plan.elementBody_stores (hp : p.hist = h) (hr : h.Regular k₀ R A) (hb : Bucketed U.update parts j l k')
    (hparts : ∀ q ∈ parts, U.Fits h M table k X s q) (harrays : segment.arrays = [] ∧ p.elements.arrays = []) :
    blockStores (p.elementBody segment index n l) ⊆ h.mapNames ++ lockNames table ++ parts.flatMap U.targets := by
  intro m hm
  simp only [elementBody, blockStores, blockUses_append, List.mem_append] at hm
  rcases hm with ((hm | hm) | hm) | hm
  · have hm : m ∈ blockStores (defineIndices segment p.segmentDims) := hm
    rw [(uses_defineIndices segment p.segmentDims).2] at hm
    cases hm
  · simp [Stmt.bind, Stmt.uses, Use.among] at hm
  · have hm : m ∈ blockStores (p.mapStores (segment * p.elements + .ofName n)) := hm
    rw [(uses_mapStores p (flat_arrays harrays)).2, hp] at hm
    simp [hm]
  · rcases hb.stores (Nat.le_refl j) U.targets (lockNames table) (fun q hq i u k' hi hu m hm =>
      (hparts q hq).stores hr hu hm) hm with hm | ⟨q, hq, hm⟩
    · simp [hm]
    · exact List.mem_append_right _ (List.mem_flatMap.2 ⟨q, hq, hm⟩)

end Element

/-! ## Where a kernel is launched -/

/-- what holds where a kernel that accumulates is launched: the plan stands for what the histogram means, and the names of
arrays are no sizes -/
structure Plan.Stage (p : Plan) (h : Histogram) (M : Histogram.Meaning) (o : Options) (R A X : List Name) (c : Context)
    (k₀ k g n : ℕ) (s : State) : Prop where
  regular : h.Regular k₀ R A
  shapes : ∀ op ∈ h.operators, ∀ d ∈ M.shape op, 0 < d
  older : k₀ ≤ k
  plan : p.Describes h M o k₀ k X g n s
  scope : h.Scope k R A X s
  below : ∀ m ∈ X, m.Before k
  means : h.Means M k X A s
  total : Word64.fits (M.total : ℕ) = true
  rounds : 0 < c.rounds ∧ ∀ op ∈ h.operators, ∀ d ∈ M.shape op, d ≤ c.rounds

theorem Plan.Stage.indexNames {p : Plan} {h : Histogram} {M : Histogram.Meaning} {o : Options} {g n : ℕ} {m : Name}
    (hp : p.Stage h M o R A X c k₀ k g n s) (hm : h.segmentDims.map (·.1) ++ [m] = h.indexNames) :
    p.segmentDims.map (·.1) ++ [m] = h.indexNames := by
  rw [hp.plan.dims, hm]

theorem MapsStored.congr {h : Histogram} {M : Histogram.Meaning} {len : ℕ → ℕ} {gm : ℕ → ℕ → Value} {m : Memory}
    {stored stored' : ℕ → Prop} [DecidablePred stored] [DecidablePred stored'] (hm : MapsStored h M len gm stored m)
    (hs : ∀ a, stored a ↔ stored' a) : MapsStored h M len gm stored' m :=
  fun i mo hmo => (hm i mo hmo).congr fun a _ => by simp only [mapContent, hs]

end GpuHistogram
