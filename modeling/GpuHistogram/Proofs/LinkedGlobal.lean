/-
Accumulating in global memory in two linked programs. The numbers of copies, the threads that share one and the chunk of a
thread depend on the number of threads, so they are variables in the second program (`Link.Loose`); the kernels are the same
up to that, and so is the host code (`globalCode_tracks`).

A chunk that is known and not positive is an exception: the product of a thread and its chunk is dropped in the first program
only. But then neither kernel gets into the loop over the chunk.
-/
import GpuHistogram.Proofs.LinkedCopies

namespace GpuHistogram

open Machine

namespace Machine.Link

variable {H : Hosts} {K L M : Link H} {e e' : Expr} {c c' : Expr} {p q : Plan} {x y : Part} {h : Histogram} {P : Int → Prop}

/-! ## Sizes -/

/-- the operators of two plans are the same -/
theorem operators_eq (hp : L.SamePlan h p q) : q.operators = p.operators := by
  unfold Plan.operators
  have hparts := hp.parts
  generalize p.parts = ps at hparts
  generalize q.parts = qs at hparts
  induction hparts with
  | nil => rfl
  | cons hx _ ih => rw [List.map_cons, List.map_cons, hx.op, ih]

/-- a number that is at least one, known in both programs or in neither -/
theorem Strict.atLeastOne (he : L.Strict e e') : L.Strict (.max 1 e) (.max 1 e') :=
  Strict.op2 .max rfl (.literal (v := 1) rfl) he

theorem constant?_atLeastOne {v : Int} (h : (Expr.max 1 e).constant? = some v) : 0 < v := by
  obtain ⟨a, b, ha, -, hv⟩ := Expr.constant?_op2 .max rfl nofun h
  cases ha
  cases hv
  exact Int.lt_of_lt_of_le (by decide) (Int.le_max_left 1 b)

/-- the number of copies of an operator in global memory -/
theorem bindCopyCount (hp : L.SamePlan h p q) (hx : L.SamePart x y) :
    L.Tracks (Emit.bindSize "num_subhistos" (p.copyCount x)) (Emit.bindSize "num_subhistos" (q.copyCount y))
      fun M c c' => M.Loose (0 < ·) c c' := by
  have hbuckets := (hx.width.strict.op2 .mul rfl hp.segments.strict).atLeastOne
  refine .bindLoose (hp.threads.number.ceilDiv hbuckets.number) ?_ (Expr.constant?_ceilDiv_open (.inl hp.threads.unknown)) ?_
  · exact (Expr.words_ceilDiv).2 ⟨hp.threads.words, hbuckets.words⟩
  · exact fun v hv => Expr.constant?_ceilDiv_pos hv (fun a ha => hp.threads.known ha) fun b hb => constant?_atLeastOne hb

/-- the number of threads that share a copy -/
theorem bindShare (hp : L.SamePlan h p q) (hc : L.Loose (0 < ·) c c') :
    L.Tracks (Emit.bindSize "threads_per_subhisto" (p.threads.ceilDiv c)) (Emit.bindSize "threads_per_subhisto" (q.threads.ceilDiv c'))
      fun M e e' => M.Loose (fun _ => True) e e' :=
  .bindLoose (hp.threads.number.ceilDiv hc.number) ((Expr.words_ceilDiv).2 ⟨hp.threads.words, hc.words⟩)
    (Expr.constant?_ceilDiv_open (.inl hp.threads.unknown)) fun _ _ => trivial

theorem totalElements_strict (hp : L.SamePlan h p q) : L.Strict p.totalElements q.totalElements :=
  hp.segments.strict.op2 .mul rfl hp.elements.strict

/-- the number of elements of a thread -/
theorem bindChunk (hp : L.SamePlan h p q) :
    L.Tracks (Emit.bindSize "chunk" (p.totalElements.ceilDiv p.threads)) (Emit.bindSize "chunk" (q.totalElements.ceilDiv q.threads))
      fun M e e' => M.Loose (fun _ => True) e e' :=
  .bindLoose ((totalElements_strict hp).number.ceilDiv hp.threads.number)
    ((Expr.words_ceilDiv).2 ⟨(totalElements_strict hp).words, hp.threads.words⟩)
    (Expr.constant?_ceilDiv_open (.inr hp.threads.unknown)) fun _ _ => trivial

theorem anyBarrier_bind (n : Name) (e : Expr) (l : List Stmt) : anyBarrier (foldBlock (.bind n e :: l)) = anyBarrier (foldBlock l) := by
  rw [show foldBlock (.bind n e :: l) = _ from foldBlock_append [.bind n e] l, anyBarrier_append,
    show foldBlock [.bind n e] = _ from Form.folded.block_define .., anyBarrier, anyBarrier]
  rfl

/-! ## The kernel -/

structure SameGlobalNames (L : Link H) (ns ns' : GlobalNames) : Prop where
  thread : L.SameWord ns.thread ns'.thread
  k : L.SameWord ns.k ns'.k
  flat : L.SameWord ns.flat ns'.flat
  segment : L.SameWord ns.segment ns'.segment

theorem SameGlobalNames.mono {ns ns' : GlobalNames} (h : L ≤ M) (hns : L.SameGlobalNames ns ns') : M.SameGlobalNames ns ns' :=
  ⟨hns.thread.mono h, hns.k.mono h, hns.flat.mono h, hns.segment.mono h⟩

theorem globalNames_draws : L.Draws (GlobalNames.create : Gen GlobalNames) (GlobalNames.create : Gen GlobalNames) SameGlobalNames :=
  .liftWords _ _ fun _ _ _ _ _ _ h₁ h₂ => .liftWords _ _ fun _ _ _ _ _ hM h₃ h₄ => .liftPure
    { thread := h₁.mono hM
      k := h₂.mono hM
      flat := h₃
      segment := h₄ }

/-- how one operator is accumulated in global memory -/
structure SameGlobalPart (L : Link H) (g g' : GlobalPart) : Prop where
  method : L.SameMethod g.method g'.method
  count : L.Loose (0 < ·) g.count g'.count
  threadsPerCopy : L.Loose (fun _ => True) g.threadsPerCopy g'.threadsPerCopy
  copy : L.SameWord g.copy g'.copy

variable {ns ns' : GlobalNames} {g g' : GlobalPart}

theorem SameGlobalPart.mono (h : L ≤ M) (hg : L.SameGlobalPart g g') : M.SameGlobalPart g g' :=
  ⟨hg.method.mono h, hg.count.mono h, hg.threadsPerCopy.mono h, hg.copy.mono h⟩

theorem globalUpdate_same (hx : L.SamePart x y) (hns : L.SameGlobalNames ns ns') (hg : L.SameGlobalPart g g') :
    L.SameUpdate (Plan.globalUpdate ns) (Plan.globalUpdate ns') (x, g) (y, g') := by
  intro M hM n m hn
  have hx := hx.mono hM
  have hg := hg.mono hM
  obtain ⟨hshared, hopen⟩ := bucketIndex_shared hx.operatorNames
  have hcopy := (hns.mono hM).segment.element hg.count.sameSize hg.copy.index
  have hbucket := hcopy.step hx.width.sameSize hn.index
  have hplace := hbucket.last hx.bucketSize hshared hopen
  unfold Plan.globalUpdate
  simp only [hx.op, hx.contribution]
  refine updateCode_draws hg.method hx.operatorNames hx.subs ?_ rfl rfl hx.contributionNames.values
  unfold Plan.globalAddress
  rw [hx.op]
  exact hplace

/-- what a thread does with the element of a number: nothing, if there are fewer elements -/
theorem globalElement_same (hp : L.SamePlan h p q) (hns : L.SameGlobalNames ns ns') {l l' : List Stmt} (hl : L.SameCode l l') :
    L.SameCode [.ifThen ((Expr.ofName ns.flat).lt p.totalElements) (.bind ns.segment (.ofName ns.flat / p.elements) :: l)]
      [.ifThen ((Expr.ofName ns'.flat).lt q.totalElements) (.bind ns'.segment (.ofName ns'.flat / q.elements) :: l')] := by
  refine .ifLess hns.flat (totalElements_strict hp).number (.cons ?_ hl) .nil
  exact .bindNumber (hns.flat.number.op2 .div rfl hp.elements.number nofun) hns.segment.1

/-- the loop over the chunk of a thread -/
theorem globalLoop_same (hns : L.SameGlobalNames ns ns') (hc : L.Loose (fun _ => True) c c') {l l' : List Stmt}
    (hl : L.SameCode l l') :
    L.SameCode [.count ns.k 0 c (.bind ns.flat (.ofName ns.thread * c + .ofName ns.k) :: l)]
      [.count ns'.k 0 c' (.bind ns'.flat (.ofName ns'.thread * c' + .ofName ns'.k) :: l')] := by
  have halive (hc : L.Loose (0 < ·) c c') :
      L.SameCode [.count ns.k 0 c (.bind ns.flat (.ofName ns.thread * c + .ofName ns.k) :: l)]
        [.count ns'.k 0 c' (.bind ns'.flat (.ofName ns'.thread * c' + .ofName ns'.k) :: l')] := by
    refine .count (same_shared sharedExpr_int) hc.number hns.k.1 hns.k.2 (.cons ?_ hl)
    exact .bindNumber (hns.thread.element hc.sameSize hns.k.index).number hns.flat.1
  cases hc with
  | var hr hw => exact halive (.var hr hw)
  | @value v m hv _ =>
    by_cases hpos : 0 < v
    · exact halive (.value hv hpos)
    have hnumber : L.SameNumber (.i64 v) (.ofName m) := .value hv
    refine .deadLoop hnumber rfl (not_lt.1 hpos) hns.k.1 hns.k.2 (fun M hM u u' hu => ?_) fun hcalm => ?_
    · have huses : L.Uses (.ofName ns.thread * .i64 v + .ofName ns.k) (.ofName ns'.thread * .ofName m + .ofName ns'.k) :=
        (hns.thread.number.uses.op2 hnumber.uses).op2 hns.k.number.uses
      exact hl.uses M hM _ _ ((huses M hM u u' hu).bind (rel_mono hM hns.flat.1))
    · rw [anyBarrier_bind] at hcalm ⊢
      exact hl.calm hcalm

theorem globalBody_same (hp : L.SamePlan h p q) (hns : L.SameGlobalNames ns ns') {parts parts' : List GlobalPart}
    (hparts : List.Forall₂ L.SameGlobalPart parts parts') (hc : L.Loose (fun _ => True) c c') {l l' : List Stmt}
    (hl : L.SameCode l l') : L.SameBody (p.globalBody ns parts c l) (q.globalBody ns' parts' c' l') := by
  have hflat (p : Plan) (ns : GlobalNames) (parts : List GlobalPart) (c : Expr) (l : List Stmt) : Flat (p.globalBody ns parts c l) :=
    ((Flat.bind _ _).append (.map (fun _ => .bind _ _) _)).append (.count _ _ _ _)
  refine .last ((SameCode.append ?_ (.map (hparts.imp fun g g' hg => ?_))).append ?_) (hflat _ _ _ _ _) (hflat _ _ _ _ _)
  · exact .bindNumber (.place .globalId .x) hns.thread.1
  · exact .bindNumber (hns.thread.number.op2 .div rfl hg.threadsPerCopy.number nofun) hg.copy.1
  · exact globalLoop_same hns hc (globalElement_same hp hns hl)

/-! ## The code of the host -/

theorem allocateLocks_same {t t' : LockTable} (ht : L.SameTable t t') :
    L.SameHost (Plan.allocateLocks t) (Plan.allocateLocks t') :=
  .cons (.alloc ht.count.same ht.name)
    (.fill (same_shared sharedExpr_int) ht.count.same (same_shared sharedExpr_int) ht.name)

variable {t t' : Option LockTable} {ms ms' : List UpdateMethod}

theorem makeLocks_tracks (ht : Option.Rel L.SameTable t t') :
    L.Tracks (Plan.makeLocks t) (Plan.makeLocks t') fun _ _ _ => True := by
  cases ht with
  | none => exact .pure trivial
  | some ht => exact .stmts (allocateLocks_same ht)

theorem freeLocks_tracks (ht : Option.Rel L.SameTable t t') :
    L.Tracks (Plan.freeLocks t) (Plan.freeLocks t') fun _ _ _ => True := by
  cases ht with
  | none => exact .pure trivial
  | some ht => exact .stmt (.free ht.name)

theorem sameTable_mono (h : L ≤ M) (ht : Option.Rel L.SameTable t t') : Option.Rel M.SameTable t t' := by
  cases ht with
  | none => exact .none
  | some ht => exact .some (ht.mono h)

/-- the launch of the kernel -/
theorem launchGlobal_tracks (hp : L.SamePlan h p q) (hnames : h.Names H.Shared) (hdim : h.elementDim? ≠ none)
    (hns : L.SameGlobalNames ns ns') {parts parts' : List GlobalPart} (hparts : List.Forall₂ L.SameGlobalPart parts parts')
    (hc : L.Loose (fun _ => True) c c') :
    L.Tracks (p.launchGlobal ns parts c) (q.launchGlobal ns' parts' c') fun _ _ _ => True := by
  unfold Plan.launchGlobal
  have hidx := hns.flat.number.op2 .rem rfl hp.elements.number nofun
  have hupdates : List.Forall₂ (fun x y => L.SamePart x.1 y.1 ∧
      L.SameUpdate (Plan.globalUpdate ns) (Plan.globalUpdate ns') x y) (p.parts.zip parts) (q.parts.zip parts') :=
    (forall₂_zip hp.parts hparts).imp fun _ _ hx => ⟨hx.1, globalUpdate_same hx.1 hns hx.2⟩
  refine .bind (.lift (element_draws hp hnames hdim hns.segment.index hidx hupdates)) fun M l l' hM hl => ?_
  have hp := hp.mono hM
  have hbody := globalBody_same hp (hns.mono hM) (hparts.imp fun _ _ hg => hg.mono hM) (hc.mono hM) hl
  exact .bind (.lift (kernel_draws hp _ _ hbody .nil hp.groupCount.number.same)) fun N k k' _ hk => .stmt (.launch hk)

theorem globalParts_same (hms : List.Forall₂ L.SameMethod ms ms') {counts counts' shares shares' : List Expr} {ns ns' : List Name}
    (hcounts : List.Forall₂ (L.Loose (0 < ·)) counts counts') (hshares : List.Forall₂ (L.Loose fun _ => True) shares shares')
    (hns : List.Forall₂ L.SameWord ns ns') :
    List.Forall₂ L.SameGlobalPart (Plan.globalParts ms counts shares ns) (Plan.globalParts ms' counts' shares' ns') :=
  List.rel_map (fun _ _ h => ⟨h.1, h.2.1, h.2.2.1, h.2.2.2⟩) (forall₂_zip hms (forall₂_zip hcounts (forall₂_zip hshares hns)))

/-- **Global memory.** Both hosts accumulate in global memory alike. -/
theorem globalCode_tracks (hp : L.SamePlan h p q) (hnames : h.Names H.Shared) (hdim : h.elementDim? ≠ none) :
    L.Tracks p.globalCode q.globalCode fun _ _ _ => True := by
  rw [Plan.globalCode_eq, Plan.globalCode_eq, operators_eq hp, hp.lockCount]
  refine .bind (.lift (chooseMethods_draws p.operators fun M => .literal hp.lockCount_fits)) fun L₁ x y h₁ hxy => ?_
  obtain ⟨htable, hmethods⟩ := hxy
  replace hp := hp.mono h₁
  unfold Plan.globalRest
  refine .bind (Tracks.mapM hp.parts (Q := fun M c c' => M.Loose (0 < ·) c c') (fun h hc => hc.mono h)
    fun M a b hM hab => bindCopyCount (hp.mono hM) (hab.mono hM)) fun L₂ counts counts' h₂ hcounts => ?_
  replace hp := hp.mono h₂
  refine .bind (Tracks.mapM hcounts (Q := fun M e e' => M.Loose (fun _ => True) e e') (fun h hc => hc.mono h)
    fun M a b hM hab => bindShare (hp.mono hM) (hab.mono hM)) fun L₃ shares shares' h₃ hshares => ?_
  replace hp := hp.mono h₃
  have hcounted := forall₂_zip hp.parts (hcounts.imp fun _ _ h => h.mono h₃)
  refine .bind (allocate_tracks hcounted) fun L₄ _ _ h₄ _ => ?_
  have h₁₄ := h₂.trans (h₃.trans h₄)
  refine .bind (makeLocks_tracks (sameTable_mono h₁₄ htable)) fun L₅ _ _ h₅ _ => ?_
  replace hp := hp.mono (h₄.trans h₅)
  refine .bind (bindChunk hp) fun L₆ chunk chunk' h₆ hchunk => .bind (.lift globalNames_draws) fun L₇ ns ns' h₇ hns => ?_
  refine .bind (.mapM hcounts (Q := SameWord) (fun h hn => hn.mono h) fun M _ _ _ _ => .lift (freshWord _))
    fun L₈ copies copies' h₈ hcopies => ?_
  have h₅₈ := h₆.trans (h₇.trans h₈)
  have h₃₈ := h₄.trans (h₅.trans h₅₈)
  have hparts := globalParts_same (hmethods.imp fun _ _ h => h.mono (h₂.trans (h₃.trans h₃₈)))
    (hcounts.imp fun _ _ h => h.mono (h₃.trans h₃₈)) (hshares.imp fun _ _ h => h.mono h₃₈) hcopies
  replace hp := hp.mono h₅₈
  refine .bind (launchGlobal_tracks hp hnames hdim (hns.mono h₈) hparts (hchunk.mono (h₇.trans h₈))) fun L₉ _ _ h₉ _ => ?_
  refine .bind (finish_tracks (hp.mono h₉) (hcounted.imp fun _ _ hab => SameCount.mono (h₃₈.trans h₉) hab)) fun N _ _ hN _ => ?_
  exact freeLocks_tracks (sameTable_mono (h₁₄.trans (h₅.trans (h₅₈.trans (h₉.trans hN)))) htable)

end Machine.Link

end GpuHistogram
