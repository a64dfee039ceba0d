/-
Accumulating in local memory in two linked programs. Where the first program knows the number of copies, the sizes of its
blocks are part of the kernel; the second computes them when it launches the kernel, to the same numbers (`size_counts`).
The pieces of the kernel between its barriers are the same one by one, and so is the host code (`localCode_tracks`),
however the two programs come by the number of copies.
-/
import GpuHistogram.Proofs.LinkedGlobal
import GpuHistogram.Proofs.Supplies

namespace GpuHistogram

open Machine

namespace Machine.Link

variable {H : Hosts} {K L M : Link H} {n m : Name} {e e' i i' j j' c c' : Expr} {l l' r r' : List Stmt} {p q : Plan} {x y : Part}
  {h : Histogram}

/-! ## Blocks of local memory -/

/-- names of blocks, with the types of the destinations -/
theorem localArrays_same (hx : L.SamePart x y) {bs bs' : List Name} (hb : List.Forall₂ L.rel bs bs') :
    List.Forall₂ (fun a b => L.rel a.1 b.1 ∧ a.2 = b.2) (x.localArrays bs) (y.localArrays bs') := by
  unfold Part.localArrays
  rw [hx.dests, hx.dests', List.forall₂_map_left_iff, List.forall₂_map_right_iff]
  refine (forall₂_zip (forall₂_eq x.op.dests) hb).imp ?_
  rintro ⟨d, n⟩ ⟨_, m⟩ ⟨rfl, hr⟩
  exact ⟨hr, rfl⟩

theorem localElements_same (hx : L.SamePart x y) {bs bs' : List Name} (hb : List.Forall₂ L.rel bs bs') (hi : L.Same i i') :
    List.Forall₂ L.SameElement (x.localElements bs i) (y.localElements bs' i') := by
  refine List.rel_map (fun a b hab => ?_) (localArrays_same hx hb)
  obtain ⟨n, s⟩ := a
  obtain ⟨m, _⟩ := b
  obtain ⟨hr, rfl⟩ := hab
  exact .mk hr hi s .shared

theorem evalInt_of_computes {f : Form} {cx : Context} {s : State} {a : Int} (h : Computes f cx s e a) :
    evalInt cx s (f.expr e) = .ok a :=
  except_bind_eq_ok.2 ⟨_, h.evals, by rw [Value.toInt64_word h.fits]; rfl⟩

/-- a number of elements that folding knows, other than zero, is what the factors compute to -/
theorem computes_known {f : Form} {cx : Context} {s : State} {v : Int} (hx : L.SamePart x y) (hc : L.Loose (0 < ·) c c')
    (hv : (c * x.subs.size).constant? = some v) (hne : v ≠ 0) : Computes f cx s (c * x.subs.size) v := by
  have hfits : Word64.fits v = true := Expr.Words.constant? (e := c * x.subs.size) ⟨hc.words, hx.size.words⟩ hv
  obtain ⟨a, b, ha, hb, rfl⟩ := (Expr.constant?_mul hv).resolve_right fun h => hne h.1
  have hbfits := hx.size.words.constant? hb
  rw [hx.product] at hb ⊢
  obtain ⟨w, z, hw, hz, rfl⟩ := (Expr.constant?_mul hb).resolve_right fun h => hne (by rw [h.1, Int.mul_zero])
  obtain ⟨hw, hwfits⟩ := hx.width.known_literal hw
  obtain ⟨hz, hzfits⟩ := hx.bucketSize.known_literal hz
  obtain ⟨ha, hafits⟩ := hc.known_literal ha
  rw [ha, hw, hz]
  have hsize : Computes f cx s (.i64 w * .i64 z) (w * z) := (Computes.literal hwfits).op2 (.literal hzfits) rfl hbfits
  exact (Computes.literal hafits).op2 hsize rfl hfits

theorem ofExpr_known {v : Int} (h : e.constant? = some v) : BlockSize.ofExpr e = .fixed v := by
  rw [BlockSize.ofExpr, h]

theorem ofExpr_open (h : e.constant? = none) : BlockSize.ofExpr e = .computed e := by
  rw [BlockSize.ofExpr, h]

/-- sizes that are computed when the kernel is launched -/
theorem computed_counts {s t : State} {k : ℕ} (he : L.SameNumber e e') (hs : L.Linked s t) (ht : L.Holds (fun _ => True) t)
    (h : (BlockSize.computed e).Counts H.first s k) : (BlockSize.computed e').Counts H.second t k := by
  obtain ⟨v, hv, hk⟩ := except_bind_eq_ok.1 h
  have hcomputes := he.computes .plain none s t v hs (ht.subset fun _ _ => trivial)
  rw [within_none.1, within_none.2] at hcomputes
  obtain ⟨a, ha, ha'⟩ := hcomputes hv
  exact except_bind_eq_ok.2 ⟨v, Except.ok.inj (hv.symm.trans ha.evals) ▸ ha'.evals, hk⟩

/-- the elements of the copies of an operator in local memory -/
theorem size_counts {s t : State} {k : ℕ} (hx : L.SamePart x y) (hc : L.Loose (0 < ·) c c') (hs : L.Linked s t)
    (ht : L.Holds (fun _ => True) t) (h : (BlockSize.ofExpr (c * x.subs.size)).Counts H.first s k) :
    (BlockSize.ofExpr (c' * y.subs.size)).Counts H.second t k := by
  have hsize := hc.sameSize.mul hx.size.sameSize
  cases hv' : (c' * y.subs.size).constant? with
  | some v =>
    rcases Expr.constant?_mul hv' with ⟨a, -, ha, -⟩ | ⟨rfl, ha | hb⟩
    · cases hc.unknown.symm.trans ha
    · cases hc.unknown.symm.trans ha
    · have hv := Expr.constant?_mul_zero hc.number.ty (hx.size.twins.constant?.symm.trans hb)
      rw [ofExpr_known hv] at h
      rwa [ofExpr_known hv']
  | none =>
    cases hv : (c * x.subs.size).constant? with
    | none =>
      rw [ofExpr_open hv] at h
      rw [ofExpr_open hv']
      exact computed_counts hsize.number hs ht h
    | some v =>
      have hne : v ≠ 0 := by
        rintro rfl
        cases hv'.symm.trans (hsize.zeros hv)
      rw [ofExpr_known hv] at h
      rw [ofExpr_open hv']
      refine computed_counts hsize.number hs ht (s := s) ?_
      change evalInt _ _ _ = _
      rw [show (k : Int) = v from h]
      exact evalInt_of_computes (f := .plain) (computes_known hx hc hv hne)

/-- one lock for each thread of a group -/
theorem locks_counts {s t : State} {k : ℕ} (hp : L.SamePlan h p q) (hs : L.Linked s t) (ht : L.Holds (fun _ => True) t)
    (h : (BlockSize.ofExpr p.groupSize).Counts H.first s k) : (BlockSize.ofExpr q.groupSize).Counts H.second t k := by
  rw [ofExpr_open hp.groupSize.unknown]
  cases hv : p.groupSize.constant? with
  | none =>
    rw [ofExpr_open hv] at h
    exact computed_counts hp.groupSize.number hs ht h
  | some v =>
    rw [ofExpr_known hv] at h
    refine computed_counts hp.groupSize.number hs ht (s := s) ?_
    change evalInt _ _ _ = _
    rw [show (k : Int) = v from h]
    obtain ⟨he, hf⟩ := hp.groupSize.known_literal hv
    rw [he]
    exact evalInt_of_computes (f := .plain) (.literal hf)

/-! ## Pieces of the kernel -/

/-- pieces of code that are the same on every thread, without barriers of their own -/
structure SamePiece (L : Link H) (l l' : List Stmt) : Prop where
  code : L.SameCode l l'
  flat : Flat l
  flat' : Flat l'

namespace SamePiece

theorem mono (h : L ≤ M) (hl : L.SamePiece l l') : M.SamePiece l l' := ⟨hl.code.mono h, hl.flat, hl.flat'⟩

theorem nil : L.SamePiece [] [] := ⟨.nil, .nil, .nil⟩

theorem append (h : L.SamePiece l l') (h' : L.SamePiece r r') : L.SamePiece (l ++ r) (l' ++ r') :=
  ⟨h.code.append h'.code, h.flat.append h'.flat, h.flat'.append h'.flat'⟩

theorem cons {a b : Stmt} (h : L.SamePiece [a] [b]) (h' : L.SamePiece r r') : L.SamePiece (a :: r) (b :: r') := h.append h'

theorem bindNumber (he : L.SameNumber e e') (hn : L.SameWord n m) : L.SamePiece [.bind n e] [.bind m e'] :=
  ⟨SameCode.bindNumber he hn.1, .bind n e, .bind m e'⟩

theorem count (hi : L.Same i i') (he : L.SameNumber e e') (hn : L.SameWord n m) (hl : L.SameCode l l') :
    L.SamePiece [.count n i e l] [.count m i' e' l'] :=
  ⟨SameCode.count hi he hn.1 hn.2 hl, .count n i e l, .count m i' e' l'⟩

end SamePiece

/-- the number of threads of a group, in kernels -/
theorem localSize_same : L.SameSize .localSize .localSize := ⟨.place .localSize .x, id⟩

structure SameChunkNames (L : Link H) (ns ns' : ChunkNames) : Prop where
  c : L.SameWord ns.c ns'.c
  j : L.SameWord ns.j ns'.j

theorem SameChunkNames.mono {ns ns' : ChunkNames} (h : L ≤ M) (hns : L.SameChunkNames ns ns') : M.SameChunkNames ns ns' :=
  ⟨hns.c.mono h, hns.j.mono h⟩

theorem chunkNames_draws : L.Draws (ChunkNames.create : Gen ChunkNames) (ChunkNames.create : Gen ChunkNames) SameChunkNames :=
  .liftWords _ _ fun _ _ _ _ _ _ h₁ h₂ => .liftPure ⟨h₁, h₂⟩

/-- a loop over the elements of a histogram by all threads of a group -/
theorem groupLoop_same {ns ns' : ChunkNames} (hns : L.SameChunkNames ns ns') (hn : L.SameWord n m) (he : L.SameNumber e e')
    (hl : L.SameCode l l') : L.SamePiece [groupLoop ns n e l] [groupLoop ns' m e' l'] := by
  refine .count (same_shared sharedExpr_int) (he.ceilDiv localSize_same.number) hns.c (.cons ?_ ?_)
  · exact .bindNumber (hns.c.element localSize_same hn.index).number hns.j.1
  · exact .ifLess hns.j he hl .nil

/-! ## Elements of the copies -/

structure SameLocalNames (L : Link H) (ns ns' : LocalNames) : Prop where
  thread : L.SameWord ns.thread ns'.thread
  group : L.SameWord ns.group ns'.group
  segment : L.SameWord ns.segment ns'.segment
  slot : L.SameWord ns.slot ns'.slot

theorem localNames_draws : L.Draws (LocalNames.create : Gen LocalNames) (LocalNames.create : Gen LocalNames) SameLocalNames :=
  .liftWords _ _ fun _ _ _ _ _ _ h₁ h₂ => .liftWords _ _ fun _ _ _ _ _ hM h₃ h₄ => .liftPure
    { thread := h₁.mono hM
      group := h₂.mono hM
      segment := h₃
      slot := h₄ }

/-- how many copies a group keeps, and how many groups work on a segment -/
structure SameShape (L : Link H) (a b : LocalShape) : Prop where
  copies : L.Loose (0 < ·) a.copies b.copies
  groupsPerSegment : L.Loose (0 < ·) a.groupsPerSegment b.groupsPerSegment

/-- how one operator is accumulated in local memory -/
structure SameLocalPart (L : Link H) (a b : LocalPart) : Prop where
  method : L.SameMethod a.method b.method
  blocks : List.Forall₂ L.rel a.blocks b.blocks

variable {ns ns' : LocalNames} {sh sh' : LocalShape} {a b : LocalPart} {bs bs' : List Name}

theorem SameLocalNames.mono (h : L ≤ M) (hns : L.SameLocalNames ns ns') : M.SameLocalNames ns ns' :=
  ⟨hns.thread.mono h, hns.group.mono h, hns.segment.mono h, hns.slot.mono h⟩

theorem SameShape.mono (h : L ≤ M) (hsh : L.SameShape sh sh') : M.SameShape sh sh' :=
  ⟨hsh.copies.mono h, hsh.groupsPerSegment.mono h⟩

theorem SameLocalPart.mono (h : L ≤ M) (hab : L.SameLocalPart a b) : M.SameLocalPart a b :=
  ⟨hab.method.mono h, hab.blocks.imp fun _ _ => rel_mono h⟩

theorem published_same (hx : L.SamePart x y) (hns : L.SameLocalNames ns ns') (hsh : L.SameShape sh sh') (hj : L.SameIndex j j') :
    List.Forall₂ L.SameElement (x.published ns sh j) (y.published ns' sh' j') := by
  have hgroup := hns.segment.element hsh.groupsPerSegment.sameSize hns.group.index
  exact hx.subAccesses (hgroup.step hx.size.sameSize hj).number.same

theorem initElement_same (hx : L.SamePart x y) (hns : L.SameLocalNames ns ns') (hsh : L.SameShape sh sh')
    (hb : List.Forall₂ L.rel bs bs') (hj : L.SameWord n m) :
    L.SameCode (x.initElement ns sh bs (.ofName n)) (y.initElement ns' sh' bs' (.ofName m)) := by
  have hdsts := localElements_same hx hb hj.number.same
  have hneutral : List.Forall₂ L.Same x.subs.neutral y.subs.neutral := by
    rw [hx.neutral, hx.neutral', List.forall₂_same]
    exact fun e he => same_shared (hx.operatorNames.neutral e he)
  refine .ifLess hj hx.size.number ?_ (stores_same hdsts hneutral)
  exact stores_same hdsts ((published_same hx hns hsh hj.index).imp fun _ _ h => h.open.same)

theorem publishElement_same (hx : L.SamePart x y) (hns : L.SameLocalNames ns ns') (hsh : L.SameShape sh sh')
    (hb : List.Forall₂ L.rel bs bs') (hj : L.SameWord n m) :
    L.SameCode (x.publishElement ns sh bs (.ofName n)) (y.publishElement ns' sh' bs' (.ofName m)) :=
  stores_same (published_same hx hns hsh hj.index) ((localElements_same hx hb hj.number.same).imp fun _ _ h => h.open.same)

theorem compactElement_same (hx : L.SamePart x y) (hsh : L.SameShape sh sh') (hb : List.Forall₂ L.rel bs bs') {s s' : Name}
    (hs : L.SameWord s s') {accs accs' : List Name} (haccs : List.Forall₂ L.SameVar accs accs') (hj : L.SameWord n m) :
    L.SameCode (x.compactElement sh bs s accs (.ofName n)) (y.compactElement sh' bs' s' accs' (.ofName m)) := by
  have hdsts := localElements_same hx hb hj.number.same
  have hvars := accumulators_open haccs x.op.dests
  have hcopy := localElements_same hx hb (hs.element hx.size.sameSize hj.index).number.same
  have hargs := List.rel_append hvars (hcopy.imp fun _ _ h => h.open)
  unfold Part.compactElement
  rw [hx.op, hx.dests, hx.dests']
  refine ((binds_same haccs hdsts).append ?_).append (stores_same hdsts (hvars.imp fun _ _ h => h.same))
  exact .count (same_shared sharedExpr_int) hsh.copies.number hs.1 hs.2 (.apply (sharedCombiner hx.operatorNames) hargs haccs)

theorem localUpdate_same (hx : L.SamePart x y) (hns : L.SameLocalNames ns ns') (hab : L.SameLocalPart a b) :
    L.SameUpdate (Part.localUpdate ns) (Part.localUpdate ns') (x, a) (y, b) := by
  intro M hM n m hn
  have hx := hx.mono hM
  have hab := hab.mono hM
  obtain ⟨hshared, hopen⟩ := bucketIndex_shared hx.operatorNames
  have hbucket := (hns.mono hM).slot.element hx.width.strict.sameSize hn.index
  have hplace := hbucket.last hx.bucketSize hshared hopen
  unfold Part.localUpdate
  simp only [hx.op, hx.contribution]
  refine updateCode_draws hab.method hx.operatorNames hab.blocks ?_ rfl rfl hx.contributionNames.values
  unfold Part.localAddress
  rw [hx.op]
  exact hplace

/-! ## Phases -/

/-- operators with their blocks -/
def SameGathered (L : Link H) (a b : Part × LocalPart) : Prop := L.SamePart a.1 b.1 ∧ L.SameLocalPart a.2 b.2

theorem SameGathered.mono {a b : Part × LocalPart} (h : L ≤ M) (hab : L.SameGathered a b) : M.SameGathered a b :=
  ⟨hab.1.mono h, hab.2.mono h⟩

/-- statements one after the other -/
theorem SamePiece.ofForall₂ {as bs : List Stmt} (h : List.Forall₂ (fun a b => L.SamePiece [a] [b]) as bs) : L.SamePiece as bs := by
  induction h with
  | nil => exact .nil
  | cons hab _ ih => exact hab.cons ih

/-- a loop for every operator -/
theorem loops_draws {f g : Part × LocalPart → GpuHistogram.Fresh Stmt} {as bs : List (Part × LocalPart)}
    (h : List.Forall₂ L.SameGathered as bs)
    (hfg : ∀ M a b, L ≤ M → M.SameGathered a b → M.Draws (f a : Gen Stmt) (g b : Gen Stmt) fun N s s' => N.SamePiece [s] [s']) :
    L.Draws ((as.mapM f : GpuHistogram.Fresh _) : Gen (List Stmt)) ((bs.mapM g : GpuHistogram.Fresh _) : Gen (List Stmt)) SamePiece :=
  (Draws.liftMapM h (Q := fun (N : Link H) (s s' : Stmt) => N.SamePiece [s] [s']) (fun h hs => hs.mono h)
    fun M a b hM hab => hfg M a b hM (hab.mono hM)).imp fun _ _ _ _ => .ofForall₂

theorem initCopies_draws (hns : L.SameLocalNames ns ns') (hsh : L.SameShape sh sh') {as bs : List (Part × LocalPart)}
    (h : List.Forall₂ L.SameGathered as bs) :
    L.Draws (Plan.initCopies ns sh as : Gen _) (Plan.initCopies ns' sh' bs : Gen _) SamePiece := by
  rw [Plan.initCopies_eq, Plan.initCopies_eq]
  refine loops_draws h fun M a b hM hab => .liftBind chunkNames_draws fun N cs cs' hN hcs => .liftPure ?_
  have hab := hab.mono hN
  have hsh := hsh.mono (hM.trans hN)
  have hns := hns.mono (hM.trans hN)
  exact groupLoop_same hcs hns.thread (hsh.copies.sameSize.mul hab.1.size.sameSize).number
    (initElement_same hab.1 hns hsh hab.2.blocks hcs.j)

theorem publishCopies_draws (hns : L.SameLocalNames ns ns') (hsh : L.SameShape sh sh') {as bs : List (Part × LocalPart)}
    (h : List.Forall₂ L.SameGathered as bs) :
    L.Draws (Plan.publishCopies ns sh as : Gen _) (Plan.publishCopies ns' sh' bs : Gen _) SamePiece := by
  rw [Plan.publishCopies_eq, Plan.publishCopies_eq]
  refine loops_draws h fun M a b hM hab => .liftBind chunkNames_draws fun N cs cs' hN hcs => .liftPure ?_
  have hab := hab.mono hN
  have hsh := hsh.mono (hM.trans hN)
  have hns := hns.mono (hM.trans hN)
  exact groupLoop_same hcs hns.thread hab.1.size.number (publishElement_same hab.1 hns hsh hab.2.blocks hcs.j)

theorem compactCopies_draws (hns : L.SameLocalNames ns ns') (hsh : L.SameShape sh sh') {as bs : List (Part × LocalPart)}
    (h : List.Forall₂ L.SameGathered as bs) :
    L.Draws (Plan.compactCopies ns sh as : Gen _) (Plan.compactCopies ns' sh' bs : Gen _) SamePiece := by
  rw [Plan.compactCopies_eq, Plan.compactCopies_eq]
  refine loops_draws h fun M a b hM hab => .liftBind chunkNames_draws fun N cs cs' hN hcs => .liftBind (freshWord "s")
    fun N₁ s s' h₁ hs => .liftBind (.liftMapM hab.2.blocks (Q := SameVar) (fun h => .mono h) fun _ _ _ _ _ => ?_)
    fun N₂ accs accs' h₂ haccs => .liftPure ?_
  · exact (Draws.fresh _ _ False).imp fun _ _ _ _ h => ⟨h.1, h.2.1⟩
  have hab := hab.mono (hN.trans (h₁.trans h₂))
  have hsh := hsh.mono (hM.trans (hN.trans (h₁.trans h₂)))
  have hns := hns.mono (hM.trans (hN.trans (h₁.trans h₂)))
  have hcs := hcs.mono (h₁.trans h₂)
  exact groupLoop_same hcs hns.thread hab.1.size.number
    (compactElement_same hab.1 hsh hab.2.blocks (hs.mono h₂) haccs hcs.j)

theorem initLocks_draws (hns : L.SameLocalNames ns ns') {t t' : Option LockTable} (ht : Option.Rel L.SameTable t t') :
    L.Draws (Plan.initLocks ns t : Gen _) (Plan.initLocks ns' t' : Gen _) SamePiece := by
  cases ht with
  | none => exact .liftPure .nil
  | some ht =>
    refine .liftBind chunkNames_draws fun N cs cs' hN hcs => .liftPure ?_
    exact groupLoop_same hcs (hns.mono hN).thread localSize_same.number
      (.storeElement hcs.j.number.same (same_shared sharedExpr_int) (rel_mono hN ht.name))

theorem localStart_same (hns : L.SameLocalNames ns ns') (hsh : L.SameShape sh sh') :
    L.SamePiece (Plan.localStart ns sh) (Plan.localStart ns' sh') := by
  have hgroup : L.SameNumber (.atPlace .groupId .x) (.atPlace .groupId .x) := .place .groupId .x
  have hper := hsh.groupsPerSegment.number
  refine .cons (.bindNumber (.place .localId .x) hns.thread) (.cons ?_ (.cons ?_ ?_))
  · exact .bindNumber (hgroup.op2 .rem rfl hper nofun) hns.group
  · exact .bindNumber (hgroup.op2 .div rfl hper nofun) hns.segment
  · exact .bindNumber (hns.thread.number.op2 .rem rfl hsh.copies.number nofun) hns.slot

structure SameSweepNames (L : Link H) (ns ns' : SweepNames) : Prop where
  thread : L.SameWord ns.thread ns'.thread
  k : L.SameWord ns.k ns'.k
  e : L.SameWord ns.e ns'.e
  chunk : L.SameWord ns.chunk ns'.chunk

theorem SameSweepNames.mono {sw sw' : SweepNames} (h : L ≤ M) (hsw : L.SameSweepNames sw sw') : M.SameSweepNames sw sw' :=
  ⟨hsw.thread.mono h, hsw.k.mono h, hsw.e.mono h, hsw.chunk.mono h⟩

theorem sweepNames_draws : L.Draws (SweepNames.create : Gen SweepNames) (SweepNames.create : Gen SweepNames) SameSweepNames :=
  .liftWords _ _ fun _ _ _ _ _ _ h₁ h₂ => .liftWords _ _ fun _ _ _ _ _ hM h₃ h₄ => .liftPure
    { thread := h₁.mono hM
      k := h₂.mono hM
      e := h₃
      chunk := h₄ }

/-- the loop over the elements of a segment -/
theorem sweep_same (hp : L.SamePlan h p q) (hns : L.SameLocalNames ns ns') (hsh : L.SameShape sh sh') {sw sw' : SweepNames}
    (hsw : L.SameSweepNames sw sw') (hl : L.SameCode l l') : L.SamePiece (p.sweep ns sh sw l) (q.sweep ns' sh' sw' l') := by
  refine .cons (.bindNumber (hns.group.element localSize_same hns.thread.index).number hsw.thread) (.cons ?_ ?_)
  · exact .bindNumber (hp.elements.number.ceilDiv (hsh.groupsPerSegment.sameSize.mul localSize_same).number) hsw.chunk
  · refine .count (same_shared sharedExpr_int) hsw.chunk.number hsw.k (.cons ?_ ?_)
    · exact .bindNumber (hsw.thread.element hsw.chunk.index.sameSize hsw.k.index).number hsw.e.1
    · exact .ifLess hsw.e hp.elements.number hl .nil

/-- **The kernel.** The pieces between its barriers are the same one by one. -/
theorem localBody_draws (hp : L.SamePlan h p q) (hnames : h.Names H.Shared) (hdim : h.elementDim? ≠ none)
    (hsh : L.SameShape sh sh') {t t' : Option LockTable} (ht : Option.Rel L.SameTable t t') {as bs : List (Part × LocalPart)}
    (hparts : List.Forall₂ L.SameGathered as bs) : L.Draws (p.localBody sh t as) (q.localBody sh' t' bs) SameBody := by
  unfold Plan.localBody
  refine .bind localNames_draws fun L₁ ns ns' h₁ hns => .bind (initCopies_draws hns (hsh.mono h₁) (hparts.imp fun _ _ => .mono h₁))
    fun L₂ init init' h₂ hinit => ?_
  replace hns := hns.mono h₂
  replace h₂ := h₁.trans h₂
  refine .bind (initLocks_draws hns (sameTable_mono h₂ ht)) fun L₃ locks locks' h₃ hlocks => .bind sweepNames_draws
    fun L₄ sw sw' h₄ hsw => ?_
  have hL₄ := h₂.trans (h₃.trans h₄)
  replace hns := hns.mono (h₃.trans h₄)
  have hupdates : List.Forall₂ (fun x y => L₄.SamePart x.1 y.1 ∧
      L₄.SameUpdate (Part.localUpdate ns) (Part.localUpdate ns') x y) as bs :=
    hparts.imp fun _ _ hab => ⟨hab.1.mono hL₄, localUpdate_same (hab.1.mono hL₄) hns (hab.2.mono hL₄)⟩
  refine .bind (element_draws (hp.mono hL₄) hnames hdim hns.segment.index hsw.e.number hupdates) fun L₅ l l' h₅ hl => ?_
  have hL₅ := hL₄.trans h₅
  replace hns := hns.mono h₅
  refine .bind (compactCopies_draws hns (hsh.mono hL₅) (hparts.imp fun _ _ => .mono hL₅)) fun L₆ compact compact' h₆ hcompact => ?_
  have hL₆ := hL₅.trans h₆
  replace hns := hns.mono h₆
  refine .bind (publishCopies_draws hns (hsh.mono hL₆) (hparts.imp fun _ _ => .mono hL₆)) fun M publish publish' hM hpublish =>
    .pure ?_
  replace hns := hns.mono hM
  have hsh := hsh.mono (hL₆.trans hM)
  have hstart := ((localStart_same hns hsh).append (hinit.mono (h₃.trans (h₄.trans (h₅.trans (h₆.trans hM)))))).append
    (hlocks.mono (h₄.trans (h₅.trans (h₆.trans hM))))
  have hsweep := sweep_same (hp.mono (hL₆.trans hM)) hns hsh (hsw.mono (h₅.trans (h₆.trans hM))) (hl.mono (h₆.trans hM))
  have hcompact := hcompact.mono hM
  have hbody := SameBody.barrier .shared hstart.code hstart.flat hstart.flat' <|
    SameBody.barrier .shared hsweep.code hsweep.flat hsweep.flat' <|
    SameBody.barrier .device hcompact.code hcompact.flat hcompact.flat' <|
    SameBody.last hpublish.code hpublish.flat hpublish.flat'
  simpa only [List.append_assoc, List.cons_append, List.nil_append] using hbody

/-! ## The code of the host -/

theorem localMemory_same (hp : L.SamePlan h p q) (hsh : L.SameShape sh sh') {t t' : Option LockTable}
    (ht : Option.Rel L.SameTable t t') {as bs : List (Part × LocalPart)} (hparts : List.Forall₂ L.SameGathered as bs) :
    List.Forall₂ L.SameLocal (p.localMemory sh t as) (q.localMemory sh' t' bs) := by
  refine List.rel_append (List.rel_flatMap hparts ?_) ?_
  · rintro ⟨x, a⟩ ⟨y, b⟩ ⟨hx, hab⟩
    refine List.rel_map ?_ (localArrays_same hx hab.blocks)
    rintro ⟨n, s⟩ ⟨m, _⟩ ⟨hr, rfl⟩
    exact ⟨hr, rfl, fun s t k hs ht => size_counts hx hsh.copies hs ht⟩
  · cases ht with
    | none => exact .nil
    | some ht => exact .cons ⟨ht.name, rfl, fun s t k hs ht => locks_counts hp hs ht⟩ .nil

theorem nameBlocks_tracks {ps qs : List Part} (h : List.Forall₂ L.SamePart ps qs) :
    L.Tracks (Plan.nameBlocks ps) (Plan.nameBlocks qs) fun M bs bs' => List.Forall₂ (List.Forall₂ M.rel) bs bs' := by
  refine .mapM h (Q := fun (M : Link H) (bs bs' : List Name) => List.Forall₂ M.rel bs bs') (fun h hbs => hbs.imp fun _ _ => rel_mono h)
    fun M x y _ hx => ?_
  rw [hx.dests, hx.dests']
  refine .mapM (forall₂_eq x.op.dests) (Q := Link.rel) (fun h => rel_mono h) fun N d d' _ _ => .lift ?_
  exact (Draws.fresh _ _ False).imp fun _ _ _ _ h => h.1

theorem localParts_same {ps qs : List Part} (hps : List.Forall₂ L.SamePart ps qs) {ms ms' : List UpdateMethod}
    (hms : List.Forall₂ L.SameMethod ms ms') {bs bs' : List (List Name)} (hbs : List.Forall₂ (List.Forall₂ L.rel) bs bs') :
    List.Forall₂ L.SameGathered (Plan.localParts ps ms bs) (Plan.localParts qs ms' bs') :=
  forall₂_zip hps (List.rel_map (fun _ _ h => ⟨h.1, h.2⟩) (forall₂_zip hms hbs))

theorem launchLocal_tracks (hp : L.SamePlan h p q) (hnames : h.Names H.Shared) (hdim : h.elementDim? ≠ none)
    (hsh : L.SameShape sh sh') {t t' : Option LockTable} (ht : Option.Rel L.SameTable t t') {as bs : List (Part × LocalPart)}
    (hparts : List.Forall₂ L.SameGathered as bs) :
    L.Tracks (p.launchLocal sh t as) (q.launchLocal sh' t' bs) fun _ _ _ => True := by
  unfold Plan.launchLocal
  refine .bind (.lift (localBody_draws hp hnames hdim hsh ht hparts)) fun M l l' hM hl => ?_
  replace hp := hp.mono hM
  replace hsh := hsh.mono hM
  have hblocks := localMemory_same hp hsh (sameTable_mono hM ht) (hparts.imp fun _ _ => .mono hM)
  have hgroups := (hsh.groupsPerSegment.sameSize.mul hp.segments.sameSize).number.same
  exact .bind (.lift (kernel_draws hp _ _ hl hblocks hgroups)) fun N k k' _ hk => .stmt (.launch hk)

theorem accumulateLocal_tracks (hp : L.SamePlan h p q) (hnames : h.Names H.Shared) (hdim : h.elementDim? ≠ none)
    (hsh : L.SameShape sh sh') {t t' : Option LockTable} (ht : Option.Rel L.SameTable t t') {ms ms' : List UpdateMethod}
    (hms : List.Forall₂ L.SameMethod ms ms') :
    L.Tracks (p.accumulateLocal sh t ms) (q.accumulateLocal sh' t' ms') fun _ _ _ => True := by
  have hcounted : List.Forall₂ L.SameCount (p.parts.zip (p.parts.map fun _ => sh.groupsPerSegment))
      (q.parts.zip (q.parts.map fun _ => sh'.groupsPerSegment)) :=
    forall₂_zip hp.parts (List.rel_map (fun _ _ _ => hsh.groupsPerSegment) hp.parts)
  unfold Plan.accumulateLocal Plan.gatherLocal
  refine .bind (allocate_tracks hcounted) fun L₁ _ _ h₁ _ => ?_
  refine .bind (.bind (nameBlocks_tracks (hp.mono h₁).parts) fun M bs bs' hM hbs =>
    launchLocal_tracks (hp.mono (h₁.trans hM)) hnames hdim (hsh.mono (h₁.trans hM)) (sameTable_mono (h₁.trans hM) ht)
      (localParts_same ((hp.mono (h₁.trans hM)).parts) (hms.imp fun _ _ => .mono (h₁.trans hM)) hbs)) fun L₂ _ _ h₂ _ => ?_
  exact finish_tracks (hp.mono (h₁.trans h₂)) (hcounted.imp fun _ _ => .mono (h₁.trans h₂))

theorem bindGroupsPerSegment (hp : L.SamePlan h p q) :
    L.Tracks (Emit.bindSize "groups_per_segment" p.groupsPerSegment) (Emit.bindSize "groups_per_segment" q.groupsPerSegment)
      fun M e e' => M.Loose (0 < ·) e e' := by
  have hquotient := hp.groupCount.number.ceilDiv hp.segments.number
  refine .bindLoose ((SameNumber.literal (k := 1) rfl).op2 .max rfl hquotient nofun) ?_ ?_ fun v hv =>
    constant?_atLeastOne hv
  · exact ⟨rfl, (Expr.words_ceilDiv).2 ⟨hp.groupCount.words, hp.segments.strict.words⟩⟩
  · exact Expr.constant?_op2_open .max rfl nofun (.inr (Expr.constant?_ceilDiv_open (.inl hp.groupCount.unknown)))

/-- **Local memory.** Both hosts accumulate in local memory alike, if they come to the same number of copies. -/
theorem localCode_tracks (hp : L.SamePlan h p q) (hnames : h.Names H.Shared) (hdim : h.elementDim? ≠ none)
    (hcopies : ∀ M, L ≤ M → M.Tracks (Emit.bindSize "local_subhistos" c) (Emit.bindSize "local_subhistos" c')
      fun N x y => N.Loose (0 < ·) x y) : L.Tracks (p.localCode c) (q.localCode c') fun _ _ _ => True := by
  rw [Plan.localCode_eq, Plan.localCode_eq, operators_eq hp]
  refine .bind (.lift (chooseMethods_draws p.operators fun M => localSize_same.number)) fun L₁ x y h₁ hxy => ?_
  refine .bind (hcopies L₁ h₁) fun L₂ n m h₂ hn => .bind (bindGroupsPerSegment (hp.mono (h₁.trans h₂))) fun L₃ g g' h₃ hg => ?_
  have hL₃ := h₁.trans (h₂.trans h₃)
  exact accumulateLocal_tracks (hp.mono hL₃) hnames hdim ⟨hn.mono h₃, hg⟩ (sameTable_mono (h₂.trans h₃) hxy.1)
    (hxy.2.imp fun _ _ => .mono (h₂.trans h₃))

end Machine.Link

end GpuHistogram
