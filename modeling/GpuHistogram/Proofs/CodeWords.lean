/-
The code of a histogram of words has words for literals. What a user writes and the options fix are words
(`Histogram.Words`, `Options.Words`), the sizes of a plan are words (`Plan.Words`), and the statements that are built from
them add only literals of their own: zero and one, the two contents of a lock, and the bytes of a tuple.

The lemmas here are about statements that are there already; the generators that draw their names come after them.
-/
import GpuHistogram.Histogram.Compile
import GpuHistogram.Proofs.Constants
import GpuHistogram.Proofs.Method

namespace GpuHistogram

/-! ## What a user writes -/

structure Combiner.Words (f : Combiner) : Prop where
  body : BlockWords f.body
  results : ∀ e ∈ f.results, e.Words

/-- the literals of an operator are words, and its destinations are fewer than an address space has room for -/
structure Operator.Words (op : Operator) : Prop where
  width : op.width.Words
  shape : ∀ e ∈ op.shape, e.Words
  combiner : op.combiner.Words
  neutral : ∀ e ∈ op.neutral, e.Words
  dests : op.dests.length < 2 ^ 60

structure Contribution.Words (c : Contribution) : Prop where
  bucket : c.bucket.Words
  values : ∀ e ∈ c.values, e.Words

/-- the literals of a histogram are words -/
structure Histogram.Words (h : Histogram) : Prop where
  space : ∀ x ∈ h.space, x.2.Words
  operators : ∀ op ∈ h.operators, op.Words
  body : BlockWords h.body
  contributions : ∀ c ∈ h.contributions, c.Words
  maps : ∀ m ∈ h.maps, m.value.Words

/-- the numbers in the options are words -/
structure Options.Words (o : Options) : Prop where
  lockCount : Word64.fits o.lockCount = true
  groupSize : ∀ n ∈ o.groupSize, Word64.fits n = true
  groupCount : ∀ n ∈ o.groupCount, Word64.fits n = true
  maxLocalMemory : ∀ d ∈ o.device, Word64.fits d.maxLocalMemory = true
  localMemoryPerThread : ∀ d ∈ o.device, Word64.fits d.localMemoryPerThread = true

/-- a tuple of so many elements has a word of bytes -/
theorem Operator.fits_tupleBytes {op : Operator} (h : op.dests.length < 2 ^ 60) : Word64.fits op.tupleBytes = true := by
  have hsum (l : List Destination) (n : ℕ) : l.foldl (fun n d => n + d.elem.bytes) n ≤ n + 8 * l.length := by
    induction l generalizing n with
    | nil => simp
    | cons d l ih =>
      have hd : d.elem.bytes ≤ 8 := by
        cases d.elem <;> decide
      have := ih (n + d.elem.bytes)
      simp only [List.foldl_cons, List.length_cons]
      omega
  have hbytes : op.tupleBytes ≤ 8 * op.dests.length := by
    simpa [tupleBytes] using hsum op.dests 0
  rw [Word64.fits_iff]
  omega

/-! ## Plans -/

/-- the sizes and expressions of an operator in a plan -/
structure Part.Words (q : Part) : Prop where
  op : q.op.Words
  contribution : q.contribution.Words
  width : q.width.Words
  bucketSize : q.bucketSize.Words
  neutral : ∀ e ∈ q.subs.neutral, e.Words
  segments : q.subs.segments.Words
  size : q.subs.size.Words

structure Plan.Words (p : Plan) : Prop where
  hist : p.hist.Words
  lockCount : Word64.fits p.lockCount = true
  groupSize : p.groupSize.Words
  groupCount : p.groupCount.Words
  threads : p.threads.Words
  segmentDims : ∀ x ∈ p.segmentDims, x.2.Words
  segments : p.segments.Words
  elements : p.elements.Words
  parts : ∀ q ∈ p.parts, q.Words

structure LocalShape.Words (shape : LocalShape) : Prop where
  copies : shape.copies.Words
  groupsPerSegment : shape.groupsPerSegment.Words

/-! ## Indices and combiners -/

section Indices

variable {flat idx : Expr} {dims : List (Name × Expr)}

@[simp] theorem words_flatIndex_cons {x : Expr × Expr} {l : List (Expr × Expr)} :
    (flatIndex (x :: l)).Words ↔ x.1.Words ∧ ∀ y ∈ l, y.1.Words ∧ y.2.Words := by
  have hfold (e : Expr) :
      (l.foldl (fun acc y => acc * y.2 + y.1) e).Words ↔ e.Words ∧ ∀ y ∈ l, y.1.Words ∧ y.2.Words := by
    induction l generalizing e with
    | nil => simp
    | cons y l ih =>
      rw [List.foldl_cons, ih, List.forall_mem_cons]
      simp only [Expr.words_add, Expr.words_mul]
      tauto
  exact hfold x.1

theorem flatIndex_words {l : List (Expr × Expr)} (h : ∀ x ∈ l, x.1.Words ∧ x.2.Words) : (flatIndex l).Words := by
  cases l with
  | nil => exact Expr.words_zero
  | cons x l =>
    rw [List.forall_mem_cons] at h
    exact words_flatIndex_cons.2 ⟨h.1.1, h.2⟩

theorem defineIndicesRest_words (hf : flat.Words) (h : ∀ x ∈ dims, x.2.Words) :
    BlockWords (defineIndicesRest flat dims) := by
  induction dims with
  | nil => simp [defineIndicesRest]
  | cons x dims ih =>
    obtain ⟨hx, hdims⟩ := List.forall_mem_cons.1 h
    simpa [defineIndicesRest] using ⟨⟨⟨hf, fun e n hn => hdims (n, e) hn⟩, hx⟩, ih hdims⟩

theorem defineIndices_words (hf : flat.Words) (h : ∀ x ∈ dims, x.2.Words) : BlockWords (defineIndices flat dims) := by
  cases dims with
  | nil => simp [defineIndices]
  | cons x dims =>
    obtain ⟨-, hdims⟩ := List.forall_mem_cons.1 h
    simpa [defineIndices] using ⟨⟨hf, fun e n hn => hdims (n, e) hn⟩, defineIndicesRest_words hf hdims⟩

theorem Combiner.Words.apply {f : Combiner} (hf : f.Words) {args : List Expr} (hargs : ∀ a ∈ args, a.Words)
    (outs : List Name) : (f.apply args outs).Words := by
  simp only [Combiner.apply, Stmt.words_block, blockWords_append, blockWords_map, Stmt.words_bind, Stmt.words_store,
    Expr.words_castIfNeeded, Expr.words_scalarVar, true_and]
  exact ⟨⟨fun x hx => hargs _ (List.of_mem_zip hx).2, hf.body⟩,
    fun x hx => hf.results _ (List.of_mem_zip (List.of_mem_zip hx).1).1⟩

namespace Operator.Words

variable {op : Operator}

theorem bucketDims (hop : op.Words) : ∀ x ∈ op.bucketDims, x.2.Words := fun _ hx => hop.shape _ (List.of_mem_zip hx).2

theorem bucketIndex (hop : op.Words) : op.bucketIndex.Words := by
  refine flatIndex_words (List.forall_mem_map.2 fun x hx => ?_)
  exact ⟨Expr.words_ofName _, hop.bucketDims x hx⟩

theorem bucketLoops (hop : op.Words) {l : List Stmt} (hl : BlockWords l) : BlockWords (op.bucketLoops l) := by
  have hloops (dims : List (Name × Expr)) (h : ∀ x ∈ dims, x.2.Words) :
      BlockWords (dims.foldr (fun x body => [.count x.1 0 x.2 body]) l) := by
    induction dims with
    | nil => exact hl
    | cons x dims ih =>
      obtain ⟨hx, hdims⟩ := List.forall_mem_cons.1 h
      simpa using ⟨hx, ih hdims⟩
  exact hloops op.bucketDims hop.bucketDims

end Operator.Words

end Indices

/-! ## Updates -/

section Updates

variable {op : Operator} {f : Combiner} {space : Space} {addr value : Expr} {values : List Expr}

@[simp] theorem fits_unlocked : Word64.fits unlocked = true := by decide

@[simp] theorem fits_locked : Word64.fits locked = true := by decide

theorem casLoop_words (ns : CasNames) (s : Scalar) (target : Name) (hf : f.Words) (ha : addr.Words) (hv : value.Words) :
    BlockWords (casLoop ns s space f target addr value) := by
  have hargs : ∀ a ∈ [Expr.scalarVar ns.x s, Expr.scalarVar ns.y s], a.Words := by simp
  have happly := hf.apply hargs [ns.x]
  simp [casLoop, casAttempt, ha, hv, happly, Expr.eq]

theorem lockedUpdate_words (ns : LockNames) {t : LockTable} (targets : List Name) (hop : op.Words) (ht : t.count.Words)
    (ha : addr.Words) (hvs : ∀ v ∈ values, v.Words) : BlockWords (lockedUpdate ns t space op targets addr values) := by
  have hargs : ∀ a ∈ ((ns.xs ++ ns.ys).zip (op.scalars ++ op.scalars)).map (fun x => Expr.scalarVar x.1 x.2), a.Words :=
    List.forall_mem_map.2 fun _ _ => Expr.words_scalarVar _ _
  have hcritical : BlockWords (criticalSection ns t space op targets) := by
    simp [criticalSection, hop.combiner.apply hargs ns.xs]
  have hys : BlockWords ((ns.ys.zip values).map fun x => .bind x.1 x.2) :=
    blockWords_map.2 fun x hx => Stmt.words_bind.2 (hvs _ (List.of_mem_zip hx).2)
  simp only [lockedUpdate, blockWords_append, BlockWords, and_true, Stmt.words_bind, ha, hys]
  simp [LockTable.hash, lockAttempt, hcritical, ht, Expr.eq]

theorem Operator.IsUpdate.words {targets : List Name} {k k' : ℕ} {method : UpdateMethod} {u : Stmt}
    (h : op.IsUpdate space targets addr values k method u k') (hop : op.Words)
    (hm : ∀ t, method = .locked t → t.count.Words) (ha : addr.Words) (hvs : ∀ v ∈ values, v.Words) : u.Words := by
  cases h with
  | primitive _ _ _ hv =>
    subst hv
    simpa [primitiveUpdate, ha] using hvs
  | compareSwap _ _ _ hv =>
    subst hv
    exact Stmt.words_block.2 (casLoop_words _ _ _ hop.combiner ha (hvs _ (List.mem_singleton_self _)))
  | locked => exact Stmt.words_block.2 (lockedUpdate_words _ _ hop (hm _ rfl) ha hvs)

end Updates

/-! ## Copies -/

section Copies

variable {q : Part}

theorem subAccesses_words (s : Subhistograms) {idx : Expr} (h : idx.Words) : ∀ e ∈ s.subAccesses idx, e.Words :=
  List.forall_mem_map.2 fun x _ => (Expr.words_element x.1 x.2 .device).2 h

theorem destAccesses_words (s : Subhistograms) {idx : Expr} (h : idx.Words) : ∀ e ∈ s.destAccesses idx, e.Words :=
  List.forall_mem_map.2 fun d _ => (Expr.words_element d.name d.elem .device).2 h

theorem accumulators_words (s : Subhistograms) (ns : MergeNames) : ∀ e ∈ s.accumulators ns, e.Words :=
  List.forall_mem_map.2 fun _ _ => Expr.words_scalarVar _ _

theorem Part.Words.allocate (hq : q.Words) {count : Expr} (hc : count.Words) (seg : Name) :
    (q.subs.allocate count seg).Words := by
  have halias : BlockWords q.subs.aliases := blockWords_map.2 fun _ _ => by simp
  have hcopies : ∀ x ∈ (q.subs.subs.zip q.subs.dests).zip q.subs.neutral,
      BlockWords (q.subs.allocation count seg x.1.1 x.1.2 x.2) := fun x hx => by
    have hneutral := hq.neutral _ (List.of_mem_zip hx).2
    simp [Subhistograms.allocation, hq.segments, hq.size, hc, hneutral]
  unfold Subhistograms.allocate
  rw [Stmt.Words, blockWords_flatMap]
  exact ⟨by simp [Expr.eq, hc], halias, hcopies⟩

theorem release_words (s : Subhistograms) {count : Expr} (hc : count.Words) : (s.release count).Words := by
  simp [Subhistograms.release, Expr.ne, hc]

theorem Part.Words.mergeBody (hq : q.Words) (ns : MergeNames) {count : Expr} (hc : count.Words) :
    BlockWords (q.subs.mergeBody q.op.combiner ns count) := by
  have hsub {k : Expr} (hk : k.Words) : (q.subs.subIndex count (.ofName ns.segment) k (.ofName ns.j)).Words := by
    simp [Subhistograms.subIndex, hc, hk, hq.size]
  have hdest : (q.subs.destIndex (.ofName ns.segment) (.ofName ns.j)).Words := by
    simp [Subhistograms.destIndex, hq.size]
  have happly := hq.op.combiner.apply (List.forall_mem_append.2
    ⟨accumulators_words q.subs ns, subAccesses_words q.subs (hsub (Expr.words_ofName ns.s))⟩) ns.accs
  have hfirst := subAccesses_words q.subs (hsub Expr.words_zero)
  have hdests := destAccesses_words q.subs hdest
  have helement : BlockWords (q.subs.mergeElement q.op.combiner ns count) := by
    simp only [Subhistograms.mergeElement, blockWords_append, blockWords_map, Stmt.words_bind, Stmt.words_store]
    refine ⟨⟨⟨?_, fun x hx => hfirst _ (List.of_mem_zip hx).2⟩, ?_⟩, fun x hx =>
      ⟨hdests _ (List.of_mem_zip hx).1, accumulators_words q.subs ns _ (List.of_mem_zip hx).2⟩⟩
    · simp [hq.size]
    · simp [hc, happly]
  simp [Subhistograms.mergeBody, Expr.lt, hq.segments, hq.size, helement]

end Copies

theorem Kernel.words_toStmt {k : Kernel} {o : Origin} :
    (k.toStmt o).Words ↔ k.toLaunchSpec.Words ∧ BlockWords k.body := by
  rw [Kernel.toStmt, Stmt.Words]

/-! ## The kernel in global memory -/

section GlobalMemory

variable {p : Plan} {q : Part}

theorem Plan.Words.mapStores (hp : p.Words) {flat : Expr} (hf : flat.Words) : BlockWords (p.mapStores flat) := by
  refine blockWords_map.2 fun m hm => ?_
  simp [hf, hp.hist.maps m hm]

theorem Part.Words.bucketUpdate (hq : q.Words) (bucket : Name) {u : Stmt} (hu : u.Words) :
    BlockWords (Plan.bucketUpdate q bucket u) := by
  have hloops : BlockWords (q.op.bucketLoops [u]) := hq.op.bucketLoops (by simp [hu])
  simp [Plan.bucketUpdate, Expr.and, Expr.ge, Expr.lt, hq.contribution.bucket, hq.width, hloops]

theorem Part.Words.globalAddress (hq : q.Words) (ns : GlobalNames) {g : GlobalPart} (hg : g.count.Words) {b : Expr}
    (hb : b.Words) : (Plan.globalAddress ns q g b).Words := by
  simp [Plan.globalAddress, hg, hb, hq.width, hq.bucketSize, hq.op.bucketIndex]

theorem Plan.Words.copyCount (hp : p.Words) (hq : q.Words) : (p.copyCount q).Words := by
  simp [Plan.copyCount, Expr.max, hp.threads, hq.width, hp.segments]

theorem Plan.Words.globalBody (hp : p.Words) (ns : GlobalNames) {parts : List GlobalPart}
    (hparts : ∀ g ∈ parts, g.threadsPerCopy.Words) {chunk : Expr} (hc : chunk.Words) {element : List Stmt}
    (he : BlockWords element) : BlockWords (p.globalBody ns parts chunk element) := by
  simp only [Plan.globalBody, blockWords_append, blockWords_map, Stmt.words_bind, Expr.words_div, Expr.words_ofName,
    true_and]
  refine ⟨⟨by simp, hparts⟩, ?_⟩
  simp [Plan.totalElements, Expr.lt, hc, he, hp.segments, hp.elements]

theorem allocateLocks_words {t : LockTable} (ht : t.count.Words) : BlockWords (Plan.allocateLocks t) := by
  simp [Plan.allocateLocks, ht]

end GlobalMemory

/-! ## The kernel in local memory -/

section LocalMemory

variable {p : Plan} {q : Part} {ns : LocalNames} {shape : LocalShape} {blocks : List Name} {j : Expr}

theorem BlockSize.words_ofExpr {e : Expr} (he : e.Words) : (BlockSize.ofExpr e).Words := by
  unfold BlockSize.ofExpr
  split
  · next n hn => exact he.constant? hn
  · exact he

theorem groupLoop_words (c : ChunkNames) (thread : Name) {size : Expr} (hs : size.Words) {body : List Stmt}
    (hb : BlockWords body) : (groupLoop c thread size body).Words := by
  simp [groupLoop, Expr.lt, hs, hb]

theorem stores_words {dsts es : List Expr} (hd : ∀ e ∈ dsts, e.Words) (he : ∀ e ∈ es, e.Words) :
    BlockWords (Part.stores dsts es) :=
  blockWords_map.2 fun _ hx => Stmt.words_store.2 ⟨hd _ (List.of_mem_zip hx).1, he _ (List.of_mem_zip hx).2⟩

theorem localElements_words (q : Part) (blocks : List Name) (hj : j.Words) : ∀ e ∈ q.localElements blocks j, e.Words :=
  List.forall_mem_map.2 fun x _ => (Expr.words_element x.1 x.2 .shared).2 hj

theorem Part.Words.published (hq : q.Words) (ns : LocalNames) (hs : shape.Words) (hj : j.Words) :
    ∀ e ∈ q.published ns shape j, e.Words := by
  refine subAccesses_words q.subs ?_
  simp [Part.publishedIndex, hs.groupsPerSegment, hj, hq.size]

theorem Part.Words.initElement (hq : q.Words) (ns : LocalNames) (hs : shape.Words) (blocks : List Name) (hj : j.Words) :
    BlockWords (q.initElement ns shape blocks j) := by
  have hlocal := localElements_words q blocks hj
  simp only [Part.initElement, BlockWords, Stmt.Words, and_true]
  exact ⟨⟨hj, hq.size⟩, stores_words hlocal (hq.published ns hs hj), stores_words hlocal hq.neutral⟩

theorem Part.Words.compactElement (hq : q.Words) (hs : shape.Words) (blocks : List Name) (s : Name)
    (accs : List Name) (hj : j.Words) : BlockWords (q.compactElement shape blocks s accs j) := by
  have hvars : ∀ e ∈ (accs.zip q.subs.dests).map (fun x => Expr.scalarVar x.1 x.2.elem), e.Words :=
    List.forall_mem_map.2 fun _ _ => Expr.words_scalarVar _ _
  have hlocal := localElements_words q blocks hj
  have hother : ∀ e ∈ q.localElements blocks (.ofName s * q.subs.size + j), e.Words :=
    localElements_words q blocks (by simp [hq.size, hj])
  have happly := hq.op.combiner.apply (List.forall_mem_append.2 ⟨hvars, hother⟩) accs
  simp only [Part.compactElement, blockWords_append, blockWords_map, Stmt.words_bind]
  exact ⟨⟨fun x hx => hlocal _ (List.of_mem_zip hx).2, by simp [hs.copies, happly]⟩, stores_words hlocal hvars⟩

theorem Part.Words.publishElement (hq : q.Words) (ns : LocalNames) (hs : shape.Words) (blocks : List Name)
    (hj : j.Words) : BlockWords (q.publishElement ns shape blocks j) :=
  stores_words (hq.published ns hs hj) (localElements_words q blocks hj)

theorem Part.Words.localAddress (hq : q.Words) (ns : LocalNames) {b : Expr} (hb : b.Words) :
    (q.localAddress ns b).Words := by
  simp [Part.localAddress, hb, hq.width, hq.bucketSize, hq.op.bucketIndex]

theorem initCopies_words (ns : LocalNames) (hs : shape.Words) {l : List (Part × LocalPart)}
    (h : ∀ x ∈ l, x.1.Words) (k : ℕ) : BlockWords (Plan.initCopies ns shape l k).1 := by
  induction l generalizing k with
  | nil => trivial
  | cons x l ih =>
    obtain ⟨hx, hl⟩ := List.forall_mem_cons.1 h
    have hsize : (shape.copies * x.1.subs.size).Words := ⟨hs.copies, hx.size⟩
    exact ⟨groupLoop_words _ _ hsize (hx.initElement ns hs _ (Expr.words_ofName _)), ih hl _⟩

theorem compactCopies_words (ns : LocalNames) (hs : shape.Words) {l : List (Part × LocalPart)}
    (h : ∀ x ∈ l, x.1.Words) (k : ℕ) : BlockWords (Plan.compactCopies ns shape l k).1 := by
  induction l generalizing k with
  | nil => trivial
  | cons x l ih =>
    obtain ⟨hx, hl⟩ := List.forall_mem_cons.1 h
    exact ⟨groupLoop_words _ _ hx.size (hx.compactElement hs _ _ _ (Expr.words_ofName _)), ih hl _⟩

theorem publishCopies_words (ns : LocalNames) (hs : shape.Words) {l : List (Part × LocalPart)}
    (h : ∀ x ∈ l, x.1.Words) (k : ℕ) : BlockWords (Plan.publishCopies ns shape l k).1 := by
  induction l generalizing k with
  | nil => trivial
  | cons x l ih =>
    obtain ⟨hx, hl⟩ := List.forall_mem_cons.1 h
    exact ⟨groupLoop_words _ _ hx.size (hx.publishElement ns hs _ (Expr.words_ofName _)), ih hl _⟩

theorem initLocks_words (ns : LocalNames) (table : Option LockTable) (k : ℕ) :
    BlockWords (Plan.initLocks ns table k).1 := by
  cases table with
  | none => trivial
  | some t => exact ⟨groupLoop_words _ _ Expr.words_localSize (by simp), trivial⟩

theorem Plan.Words.sweep (hp : p.Words) (ns : LocalNames) (hs : shape.Words) (sw : SweepNames) {element : List Stmt}
    (he : BlockWords element) : BlockWords (p.sweep ns shape sw element) := by
  simp [Plan.sweep, Expr.lt, hp.elements, hs.groupsPerSegment, he]

theorem localStart_words (ns : LocalNames) (hs : shape.Words) : BlockWords (Plan.localStart ns shape) := by
  simp [Plan.localStart, hs.groupsPerSegment, hs.copies]

theorem Plan.Words.localMemory (hp : p.Words) (hs : shape.Words) (table : Option LockTable)
    {parts : List (Part × LocalPart)} (hparts : ∀ x ∈ parts, x.1.Words) :
    ∀ b ∈ p.localMemory shape table parts, b.size.Words := by
  refine List.forall_mem_append.2 ⟨fun b hb => ?_, ?_⟩
  · obtain ⟨x, hx, hb⟩ := List.mem_flatMap.1 hb
    obtain ⟨y, -, rfl⟩ := List.mem_map.1 hb
    have hsize : (shape.copies * x.1.subs.size).Words := ⟨hs.copies, (hparts x hx).size⟩
    exact BlockSize.words_ofExpr hsize
  · cases table with
    | none => exact fun b hb => absurd hb List.not_mem_nil
    | some t => exact List.forall_mem_singleton.2 (BlockSize.words_ofExpr hp.groupSize)

end LocalMemory

end GpuHistogram
