/-
Compilation is total. A histogram is refused exactly if its counts do not fit together, and then an internal error is
reported; every other one compiles to a program, whatever its sizes, its operators and the options are.

Three things could go wrong on the way, and each is excluded:
- lists that are read at the same positions have the same length (`Plan.Aligned`), and a method that takes the first
  destination, value and array is chosen only for an operator that has one destination (`UpdateMethod.Reads`);
- no generator gets stuck for want of an operand (`Plan.globalCode_words`, `Plan.localCode_words`, `Plan.code_words`);
- numbers that are computed with are words: the literals of the histogram are, and with them those of every expression
  that is folded, the numbers the placement is decided on, and the literals of the program.

The generators get through under no condition on the numbers. That their literals are words is carried along under a
condition `W`, which in the end is that the histogram and the options are made of words.
`Histogram.compile_total` puts all of it together.
-/
import GpuHistogram.Proofs.CodeWords
import GpuHistogram.Proofs.Deployment
import GpuHistogram.Proofs.Progress

namespace GpuHistogram

/-! ## Counts -/

/-- some counts of a histogram do not fit together -/
def Histogram.IllFormed (h : Histogram) : Prop :=
  h.space = [] ∨ h.contributions.length ≠ h.operators.length ∨
    (∃ op ∈ h.operators, op.neutral.length ≠ op.dests.length ∨ op.combiner.params.length ≠ 2 * op.dests.length ∨
      op.combiner.results.length ≠ op.dests.length ∨ op.bucketIndices.length ≠ op.shape.length) ∨
    ∃ x ∈ h.operators.zip h.contributions, x.2.values.length ≠ x.1.dests.length

/-- a histogram is accepted exactly if its counts fit together -/
theorem Histogram.validate_iff_not_illFormed (h : Histogram) : h.validate = .ok () ↔ ¬ h.IllFormed := by
  rw [validate_iff]
  constructor
  · rintro ⟨hspace, hlen, hinputs⟩ (hill | hill | ⟨op, hop, hill⟩ | ⟨x, hx, hill⟩)
    · exact hspace hill
    · exact hill hlen
    · -- an operator stands beside a contribution
      obtain ⟨i, hi⟩ := List.mem_iff_getElem?.1 hop
      have hlt : i < h.contributions.length := hlen ▸ (List.getElem?_eq_some_iff.1 hi).1
      have hinput : (op, h.contributions[i]) ∈ h.inputs :=
        List.mem_of_getElem? (List.getElem?_zip_eq_some.2 ⟨hi, List.getElem?_eq_getElem hlt⟩)
      obtain ⟨hneutral, hparams, hresults, -, hshape⟩ := hinputs _ hinput
      rcases hill with h | h | h | h
      · exact h hneutral
      · exact h hparams
      · exact h hresults
      · exact h hshape
    · exact hill (hinputs x hx).2.2.2.1
  · intro hill
    simp only [IllFormed, not_or, not_exists, not_and, not_not] at hill
    obtain ⟨hspace, hlen, hops, hvalues⟩ := hill
    refine ⟨hspace, hlen, fun x hx => ?_⟩
    obtain ⟨hneutral, hparams, hresults, hshape⟩ := hops x.1 (List.of_mem_zip hx).1
    exact ⟨hneutral, hparams, hresults, hvalues x hx, hshape⟩

/-! ## Positions -/

/-- a method that takes the first destination is for an operator that has just one -/
def UpdateMethod.Reads (op : Operator) : UpdateMethod → Prop
  | primitive _ | compareSwap _ => op.dests.length = 1
  | locked _ => True

theorem UpdateMethod.Suits.reads {op : Operator} {table : Option LockTable} {method : UpdateMethod}
    (h : method.Suits op table) : method.Reads op := by
  cases method with
  | primitive a =>
    obtain ⟨d, hd⟩ := op.scalars_of_primitive? h
    exact congrArg List.length hd
  | compareSwap s =>
    obtain ⟨d, hd, -, -⟩ := op.scalars_of_swappable? h
    exact congrArg List.length hd
  | locked t => trivial

/-! ## Words under a condition -/

variable {α : Type} {W : Prop} {h : Histogram} {o : Options} {p : Plan} {q : Part}

/-- under `W` the literals of the code are words -/
def WordsUnder (W : Prop) (l : List Stmt) : Prop := W → BlockWords l

instance : Additive (WordsUnder W) := ⟨fun _ => trivial, fun h h' hw => blockWords_append.2 ⟨h hw, h' hw⟩⟩

theorem wordsUnder_singleton {s : Stmt} (h : W → s.Words) : WordsUnder W [s] := fun hw => ⟨h hw, trivial⟩

/-- a size is a word if the literals of its expression are words -/
theorem bindSize_words (label : String) {e : Expr} (he : W → e.Words) :
    Emits (WordsUnder W) (Emit.bindSize label e) fun x => W → x.Words :=
  .bindSize label (fun _ hv hw => (he hw).constant? hv) (fun _ _ => trivial) fun _ => wordsUnder_singleton fun hw => by
    simpa using he hw

theorem fixedOrOpen_words {fixed : Option Int} (hf : ∀ n ∈ fixed, Word64.fits n = true) (id : String) :
    (Histogram.fixedOrOpen fixed id).Words := by
  cases fixed with
  | none => trivial
  | some n => exact hf n rfl

/-! ## The plan -/

/-- **Planning** gets through, and puts together what belongs together. -/
theorem plan_words (hv : h.validate = .ok ()) (hh : W → h.Words) (ho : W → o.Words) :
    Emits (WordsUnder W) (h.plan o) fun p => p.Aligned h ∧ (W → p.Words) := by
  have hproduct (l : List Expr) (hl : ∀ e ∈ l, W → e.Words) : W → (Expr.product l).Words := fun w =>
    (Expr.words_product l).2 fun e he => hl e he w
  have hfixed (n : Option Int) (hn : n = o.groupSize ∨ n = o.groupCount) (id : String) :
      W → (Histogram.fixedOrOpen n id).Words := fun w => by
    rcases hn with rfl | rfl
    · exact fixedOrOpen_words (ho w).groupSize id
    · exact fixedOrOpen_words (ho w).groupCount id
  have hops (op : Operator) (hop : op ∈ h.operators) : (W → op.width.Words) ∧ (W → op.bucketSize.Words) :=
    ⟨fun w => ((hh w).operators op hop).width, fun w => (Expr.words_product _).2 ((hh w).operators op hop).shape⟩
  refine (plan_emits (Q := fun e => W → e.Words) hv o (fun label e he => bindSize_words label he)
    (fun _ => Expr.words_zero) (fun a b ha hb w => ⟨ha w, hb w⟩) hproduct hfixed
    (fun x hx w => (hh w).space x hx) hops).mono ?_
  rintro p ⟨halign, hsized⟩
  refine ⟨halign, fun w => ?_⟩
  have hpart (q : Part) (hq : q ∈ p.parts) : q.Words := by
    have hop := (hh w).operators q.op (halign.operators ▸ List.mem_map.2 ⟨q, hq, rfl⟩)
    have hmeasured := hsized.parts q hq
    exact
      { op := hop
        contribution := (hh w).contributions _ (halign.contributions ▸ List.mem_map.2 ⟨q, hq, rfl⟩)
        width := hmeasured.width w
        bucketSize := hmeasured.bucketSize w
        neutral := hmeasured.neutral ▸ hop.neutral
        segments := hmeasured.segments ▸ hsized.segments w
        size := hmeasured.size ▸ ⟨hmeasured.width w, hmeasured.bucketSize w⟩ }
  exact
    { hist := hsized.hist ▸ hh w
      lockCount := hsized.lockCount ▸ (ho w).lockCount
      groupSize := hsized.groupSize w
      groupCount := hsized.groupCount w
      threads := hsized.threads w
      segmentDims := fun x hx => hsized.segmentDims x hx w
      segments := hsized.segments w
      elements := hsized.elements w
      parts := hpart }

/-! ## The code -/

/-- the update of an operator -/
theorem Part.Aligned.update_words (hq : q.Aligned) (hw : W → q.Words) {method : UpdateMethod} {table : Option LockTable}
    (hm : method.Suits q.op table) (ht : W → ∀ t, table = some t → t.count.Words) (space : Space)
    {targets : List Name} (htargets : targets.length = q.op.dests.length) {addr : Expr} (ha : W → addr.Words)
    (bucket : Name) : Gives (q.op.updateCode method space targets addr q.contribution.values) fun u =>
      WordsUnder W (Plan.bucketUpdate q bucket u) := by
  refine (updateCode_gives hm space htargets addr hq.values).mono ?_
  rintro u ⟨k, k', hu⟩ w
  refine (hw w).bucketUpdate bucket (hu.words (hw w).op (fun t he => ?_) (ha w) (hw w).contribution.values)
  subst he
  exact ht w t hm

namespace Plan

/-- the code of an element, from the updates of all operators -/
theorem element_words (hw : W → p.Words) {update : Part → α → Expr → Gen Stmt} {parts : List (Part × α)}
    {segment index : Expr} (hs : W → segment.Words) (hi : W → index.Words)
    (hu : ∀ x ∈ parts, ∀ n, Gives (update x.1 x.2 (.ofName n)) fun u => WordsUnder W (bucketUpdate x.1 n u)) :
    Gives (p.element segment index parts update) (WordsUnder W) := by
  have hindex (n : Name) : WordsUnder W [.bind n index] := wordsUnder_singleton fun w => Stmt.words_bind.2 (hi w)
  have hmaps (n : Name) : WordsUnder W (p.mapStores (segment * p.elements + .ofName n)) := fun w =>
    (hw w).mapStores (by simp [hs w, (hw w).elements])
  exact element_gives (fun w => defineIndices_words (hs w) (hw w).segmentDims) hindex (fun w => (hw w).hist.body)
    hmaps hu

/-- the launch of a kernel, from its body, its blocks and the number of groups -/
theorem Words.launch (hw : p.Words) (name stage : String) {body : List Stmt} (hb : BlockWords body)
    {blocks : List LocalBlock} (hblocks : ∀ b ∈ blocks, b.size.Words) {groups : Expr} (hg : groups.Words) (k : ℕ) :
    ((p.kernel name stage body blocks groups k).1.toStmt .unknown).Words :=
  Kernel.words_toStmt.2
    ⟨⟨hblocks, List.forall_mem_singleton.2 hg, List.forall_mem_singleton.2 hw.groupSize⟩, hb⟩

theorem kernel_words (hw : W → p.Words) (name stage : String) {body : List Stmt} (hb : WordsUnder W body)
    {blocks : List LocalBlock} (hblocks : W → ∀ b ∈ blocks, b.size.Words) {groups : Expr} (hg : W → groups.Words) :
    Gives (p.kernel name stage body blocks groups : Gen Kernel) fun κ => WordsUnder W [κ.toStmt .unknown] :=
  .lift fun k => wordsUnder_singleton fun w => (hw w).launch name stage (hb w) (hblocks w) (hg w) k

theorem allocate_words {l : List (Part × Expr)} (hl : ∀ x ∈ l, (W → x.1.Words) ∧ (W → x.2.Words)) :
    Emits (WordsUnder W) (allocate l) fun _ => True :=
  allocate_emits fun x hx seg _ => wordsUnder_singleton fun w => ((hl x hx).1 w).allocate ((hl x hx).2 w) seg

theorem merge_words (hw : W → p.Words) (hq : W → q.Words) {count : Expr} (hc : W → count.Words) (k : ℕ) :
    WordsUnder W [(p.merge q count k).1] := by
  refine wordsUnder_singleton fun w => Stmt.words_ifThen.2 ⟨⟨hc w, Expr.words_one⟩, ?_, trivial⟩
  have hgroups : (Expr.ceilDiv (q.subs.segments * q.subs.size) p.groupSize).Words := by
    simp [(hq w).segments, (hq w).size, (hw w).groupSize]
  have hbody := (hq w).mergeBody (MergeNames.create q.subs.dests k).1 (hc w)
  exact (hw w).launch _ _ hbody (fun _ hb => absurd hb List.not_mem_nil) hgroups _

theorem finish_words (hw : W → p.Words) {l : List (Part × Expr)} (hl : ∀ x ∈ l, (W → x.1.Words) ∧ (W → x.2.Words)) :
    Emits (WordsUnder W) (p.finish l) fun _ => True :=
  finish_emits fun x hx => ⟨merge_words hw (hl x hx).1 (hl x hx).2,
    wordsUnder_singleton fun w => release_words _ ((hl x hx).2 w)⟩

/-- the code that accumulates in global memory -/
theorem globalCode_words (halign : ∀ q ∈ p.parts, q.Aligned) (hw : W → p.Words) :
    Emits (WordsUnder W) p.globalCode fun _ => True := by
  have hpart {q : Part} (hq : q ∈ p.parts) : W → q.Words := fun w => (hw w).parts q hq
  unfold globalCode
  refine .bind (.gen (chooseMethods_spec _ _ p.operators)) ?_
  rintro ⟨table, methods⟩ ⟨-, htable, hsuits⟩
  have hlocks : W → ∀ t, table = some t → t.count.Words := fun w t ht => (htable t ht).1 ▸ (hw w).lockCount
  refine .bind (.mapM fun q hq => bindSize_words _ fun w => (hw w).copyCount (hpart hq w)) ?_
  rintro counts ⟨-, hcounts⟩
  refine .bind (.mapM fun c hc => bindSize_words _ fun w => Expr.words_ceilDiv.2 ⟨(hw w).threads, hcounts c hc w⟩) ?_
  rintro shares ⟨-, hshares⟩
  have hcounted : ∀ x ∈ p.parts.zip counts, (W → x.1.Words) ∧ (W → x.2.Words) := fun x hx =>
    ⟨hpart (List.of_mem_zip hx).1, hcounts _ (List.of_mem_zip hx).2⟩
  refine .bind (allocate_words hcounted) fun _ _ => ?_
  -- the table of locks is made before the kernel and freed after it, if there is one
  cases table
  case' some t =>
    refine .bind (P := fun _ => True) (.stmts (fun w => allocateLocks_words (hlocks w t rfl)) trivial) fun _ _ => ?_
  all_goals
    have hchunk : W → (p.totalElements.ceilDiv p.threads).Words := fun w => by
      simp [totalElements, (hw w).segments, (hw w).elements, (hw w).threads]
    refine .bind (bindSize_words _ hchunk) ?_
    intro chunk hchunk
    refine .bind (.gen (.names _)) fun ns _ => ?_
    refine .bind (.mapM (Q := fun _ => True) fun _ _ => .gen (.names _)) fun copies _ => ?_
    refine .bind (.gen (element_words hw (fun _ => Expr.words_ofName _)
      (fun w => ⟨Expr.words_ofName _, (hw w).elements⟩) ?_)) ?_
    · intro x hx n
      have hq := (List.of_mem_zip hx).1
      obtain ⟨m, ⟨c, s, v⟩, hx, hm, hc⟩ := mem_zip_map hx
      rw [hx]
      have hcount : W → c.Words := hcounts c (List.of_mem_zip (List.of_mem_zip hc).2).1
      exact (halign _ hq).update_words (hpart hq) (suits_of_mem hsuits hm) hlocks _ (halign _ hq).subs
        (fun w => (hpart hq w).globalAddress ns (hcount w) (Expr.words_ofName _)) n
    intro element helement
    refine .bind (.gen (kernel_words hw _ _ (fun w => (hw w).globalBody ns (fun g hg => ?_) (hchunk w) (helement w))
      (fun _ _ hb => absurd hb List.not_mem_nil) fun w => (hw w).groupCount)) fun κ hκ => ?_
    · obtain ⟨y, hy, rfl⟩ := List.mem_map.1 hg
      exact hshares _ (List.of_mem_zip (List.of_mem_zip (List.of_mem_zip hy).2).2).1 w
    refine .bind (P := fun _ => True) (.stmt hκ trivial) fun _ _ => .bind (finish_words hw hcounted) fun _ _ => ?_
  · exact .stmts (P := fun _ => True) (fun _ => ⟨trivial, trivial⟩) trivial
  · exact .pure (P := fun _ => True) trivial

/-- the body of the kernel in local memory -/
theorem localBody_words (hw : W → p.Words) {shape : LocalShape} (hs : W → shape.Words) {table : Option LockTable}
    (ht : W → ∀ t, table = some t → t.count.Words) {parts : List (Part × LocalPart)}
    (hparts : ∀ x ∈ parts, x.1.Aligned ∧ (W → x.1.Words) ∧ x.2.method.Suits x.1.op table ∧
      x.2.blocks.length = x.1.op.dests.length) : Gives (p.localBody shape table parts) (WordsUnder W) := by
  have hwords (w : W) : ∀ x ∈ parts, x.1.Words := fun x hx => (hparts x hx).2.1 w
  unfold localBody
  refine .bind (.names _) fun ns _ => ?_
  refine .bind (.lift (P := WordsUnder W) fun k w => initCopies_words ns (hs w) (hwords w) k) fun init hinit => ?_
  refine .bind (.lift (P := WordsUnder W) fun k _ => initLocks_words ns table k) fun locks hlocks => ?_
  refine .bind (.names _) fun sw _ => ?_
  refine .bind (element_words hw (fun _ => Expr.words_ofName _) (fun _ => Expr.words_ofName _) ?_)
    fun element helement => ?_
  · intro x hx n
    obtain ⟨hq, hqw, hm, hblocks⟩ := hparts x hx
    exact hq.update_words hqw hm ht _ hblocks (fun w => (hqw w).localAddress ns (Expr.words_ofName _)) n
  refine .bind (.lift (P := WordsUnder W) fun k w => compactCopies_words ns (hs w) (hwords w) k)
    fun compact hcompact => ?_
  refine .bind (.lift (P := WordsUnder W) fun k w => publishCopies_words ns (hs w) (hwords w) k)
    fun publish hpublish => ?_
  refine .pure fun w => ?_
  have hsweep := (hw w).sweep ns (hs w) sw (helement w)
  simp [localStart_words ns (hs w), hinit w, hlocks w, hsweep, hcompact w, hpublish w]

/-- the code that accumulates in local memory -/
theorem localCode_words (halign : ∀ q ∈ p.parts, q.Aligned) (hw : W → p.Words) {copies : Expr} (hc : W → copies.Words) :
    Emits (WordsUnder W) (p.localCode copies) fun _ => True := by
  have hpart {q : Part} (hq : q ∈ p.parts) : W → q.Words := fun w => (hw w).parts q hq
  have hgroups : W → (Expr.max 1 (p.groupCount.ceilDiv p.segments)).Words := fun w =>
    ⟨Expr.words_one, Expr.words_ceilDiv.2 ⟨(hw w).groupCount, (hw w).segments⟩⟩
  unfold localCode
  refine .bind (.gen (chooseMethods_spec _ _ p.operators)) ?_
  rintro ⟨table, methods⟩ ⟨-, htable, hsuits⟩
  have hlocks : W → ∀ t, table = some t → t.count.Words := fun _ t ht => (htable t ht).1 ▸ Expr.words_localSize
  refine .bind (bindSize_words _ hc) fun copies hcopies => .bind (bindSize_words _ hgroups) fun groups hgroups => ?_
  have hcounted : ∀ x ∈ p.parts.map fun q => (q, groups), (W → x.1.Words) ∧ (W → x.2.Words) :=
    List.forall_mem_map.2 fun q hq => ⟨hpart hq, hgroups⟩
  refine .bind (allocate_words hcounted) fun _ _ => ?_
  refine .bind (.mapM_zip (Q := fun q blocks => blocks.length = q.op.dests.length) fun q hq => ?_) ?_
  · refine (Emits.mapM (Q := fun _ => True) fun d _ => .gen (.names _)).mono fun bs hbs => ?_
    exact hbs.1.trans (congrArg List.length (halign q hq).dests)
  rintro blocks ⟨-, hblocks⟩
  have hparts : ∀ x ∈ p.parts.zip ((methods.zip blocks).map fun y => LocalPart.mk y.1 y.2), x.1.Aligned ∧
      (W → x.1.Words) ∧ x.2.method.Suits x.1.op table ∧ x.2.blocks.length = x.1.op.dests.length := fun x hx => by
    have hq := (List.of_mem_zip hx).1
    obtain ⟨m, b, hx, hm, hb⟩ := mem_zip_map hx
    rw [hx]
    exact ⟨halign _ hq, hpart hq, suits_of_mem hsuits hm, hblocks _ hb⟩
  have hs : W → LocalShape.Words ⟨copies, groups⟩ := fun w => ⟨hcopies w, hgroups w⟩
  refine .bind (.gen (localBody_words hw hs hlocks hparts)) fun body hbody => ?_
  have hmemory (w : W) := (hw w).localMemory (hs w) table fun x hx => (hparts x hx).2.1 w
  refine .bind (.gen (kernel_words hw _ _ hbody hmemory fun w => ⟨hgroups w, (hw w).segments⟩)) fun κ hκ => ?_
  exact .bind (P := fun _ => True) (.stmt hκ trivial) fun _ _ => finish_words hw hcounted

theorem Words.lockBytes (hw : p.Words) : p.lockBytes.Words := by
  unfold Plan.lockBytes
  split_ifs
  · exact ⟨hw.groupSize, rfl⟩
  · exact Expr.words_zero

theorem Words.histBytes (hw : p.Words) : (Plan.histBytes p.parts).Words := by
  refine (Expr.words_sum _).2 (List.forall_mem_map.2 fun q hq => ?_)
  have hpart := hw.parts q hq
  exact ⟨⟨hpart.width, hpart.bucketSize⟩, Operator.fits_tupleBytes hpart.op.dests⟩

/-- the numbers that the placement is decided on are words -/
theorem Words.costs (hw : p.Words) (ho : o.Words) {histBytes : Expr} (hb : histBytes.Words) {c : Placement.Costs}
    (hc : p.costs? o histBytes = some c) : c.Words := by
  obtain ⟨bytes, hbytes, hc⟩ := Option.bind_eq_some_iff.1 hc
  obtain ⟨d, hd, hc⟩ := Option.bind_eq_some_iff.1 hc
  obtain ⟨g, hg, hc⟩ := Option.bind_eq_some_iff.1 hc
  obtain ⟨l, hl, hc⟩ := Option.bind_eq_some_iff.1 hc
  cases hc
  exact ⟨hb.constant? hbytes, hw.groupSize.constant? hg, ho.localMemoryPerThread d hd, ho.maxLocalMemory d hd,
    hw.lockBytes.constant? hl⟩

theorem memoryLimits_words (ho : o.Words) : (memoryLimits o).1.Words ∧ (memoryLimits o).2.Words := by
  unfold memoryLimits
  split
  · next d hd => exact ⟨ho.localMemoryPerThread d hd, ho.maxLocalMemory d hd⟩
  · exact ⟨trivial, trivial⟩

/-- the code that decides when it runs -/
theorem deferredCode_words (halign : ∀ q ∈ p.parts, q.Aligned) (hw : W → p.Words) (ho : W → o.Words) {histBytes : Expr}
    (hb : W → histBytes.Words) : Emits (WordsUnder W) (p.deferredCode o histBytes) fun _ => True := by
  have hbranch : Emits (WordsUnder W) (do
      let threadBytes ← Emit.bindSize "thread_bytes" (memoryLimits o).1
      let maxLocalMemory ← Emit.bindSize "max_local_memory" (memoryLimits o).2
      let useLocal := Placement.localFits histBytes p.groupSize threadBytes maxLocalMemory p.lockBytes
      let inLocal ← Emit.collect (p.localCode (Placement.localCopies p.groupSize threadBytes histBytes))
      let inGlobal ← Emit.collect p.globalCode
      Emit.stmt (.ifElse useLocal inLocal inGlobal .unknown)) fun _ => True := by
    refine .bind (bindSize_words _ fun w => (memoryLimits_words (ho w)).1) fun threadBytes ht =>
      .bind (bindSize_words _ fun w => (memoryLimits_words (ho w)).2) fun maxLocalMemory hm => ?_
    have hcopies (w : W) : (Placement.localCopies p.groupSize threadBytes histBytes).Words := by
      simp [Placement.localCopies, (hw w).groupSize, ht w, hb w]
    refine .bind (.gen (localCode_words halign hw hcopies).collect) fun inLocal hl => ?_
    refine .bind (.gen (globalCode_words halign hw).collect) fun inGlobal hg => ?_
    refine .stmt (wordsUnder_singleton fun w => ?_) trivial
    rw [Stmt.Words]
    refine ⟨?_, hl w, hg w⟩
    simp [Placement.localFits, hcopies w, hb w, ht w, hm w, (hw w).groupSize, (hw w).lockBytes, Expr.and, Expr.le,
      Expr.gt]
  exact .bind (.gen hbranch.collect) fun branch hbr =>
    .stmt (wordsUnder_singleton fun w => Stmt.words_ifThen.2 ⟨⟨hb w, Expr.words_zero⟩, hbr w⟩) trivial

/-- the code for the placement that was decided on, or for the decision -/
theorem code_words (halign : ∀ q ∈ p.parts, q.Aligned) (hw : W → p.Words) (ho : W → o.Words) {histBytes : Expr}
    (hb : W → histBytes.Words) : Emits (WordsUnder W) (p.code o histBytes) fun _ => True := by
  unfold code
  split
  · next _ _ c hc =>
    obtain ⟨s, hs⟩ := Placement.exists_choose? c
    have hplacement (w : W) : s.Words := by
      obtain ⟨s', hs', hwords⟩ := ((hw w).costs (ho w) (hb w) hc).choose?
      cases hs.symm.trans hs'
      exact hwords
    rw [hs]
    cases s with
    | skip => exact .pure trivial
    | localMemory copies => exact localCode_words halign hw hplacement
    | globalMemory => exact globalCode_words halign hw
  · exact .pure trivial
  · exact deferredCode_words halign hw ho hb

end Plan

/-! ## Compilation -/

namespace Histogram

/-- the program of a histogram whose counts fit together -/
theorem generate_total (hill : ¬ h.IllFormed) (o : Options) (k : ℕ) :
    ∃ p k', (h.generate o).run k = some (p, k') ∧ (h.Words ∧ o.Words → BlockWords p.body) := by
  have hv := h.validate_iff_not_illFormed.2 hill
  have hcode : Gives (h.hostCode o) (WordsUnder (h.Words ∧ o.Words)) :=
    (Emits.bind (plan_words hv And.left And.right) fun p ⟨halign, hw⟩ =>
      .bind (bindSize_words _ fun w => (hw w).histBytes) fun histBytes hb =>
        Plan.code_words halign.parts hw And.right hb).collect
  obtain ⟨l, k', hl, hwords⟩ := hcode k
  refine ⟨⟨foldBlock l, h.openSizes o⟩, k', ?_, fun w => (hwords w).foldBlock⟩
  change (h.hostCode o k).bind (fun r => some (({ body := foldBlock r.1, sizes := h.openSizes o } : Program), r.2)) = _
  rw [hl]
  rfl

end Histogram

end GpuHistogram
