/-
Every histogram that fits together can be deployed. The generators never get stuck on a histogram whose counts fit together
(`Gives`, `Deploys`), and from portable parts they write clean kernels, whatever the sizes, the methods of update and the placement
are. What a kernel takes from the plan is a literal or a variable of the host, so nothing that only the host knows gets into it.

The theorem is `Histogram.compile_deploys`.
-/
import GpuHistogram.Proofs.LocalKernel
import GpuHistogram.Proofs.Portable
import GpuHistogram.Proofs.Progress

namespace GpuHistogram

variable {α β : Type}

/-! ## Statements that are built -/

namespace Stmt

variable {n : Name} {e dst init bound : Expr} {l : List Stmt}

theorem clean_bind (h : e.Clean) : (bind n e).Legal Expr.Clean := legal_define.2 ⟨h.ty_known, h⟩

theorem clean_store (hd : dst.Clean) (he : e.Clean) : (store dst e).Legal Expr.Clean := legal_assign.2 ⟨hd, he⟩

theorem clean_update (he : e.Clean) : (update n e).Legal Expr.Clean := clean_store (.var he.ty_known) he

theorem clean_count (hi : init.Clean) (hb : bound.Clean) (hl : BlockLegal Expr.Clean l) : (count n init bound l).Legal Expr.Clean :=
  legal_forLoop.2 ⟨⟨rfl, hi, (Expr.Clean.ofName n).lt hb, (Expr.Clean.ofName n).add (.numeral 1)⟩, hl⟩

theorem clean_ifThen (he : e.Clean) (hl : BlockLegal Expr.Clean l) : (ifThen e l).Legal Expr.Clean :=
  legal_ifElse.2 ⟨he, hl, blockLegal_nil⟩

theorem clean_block (hl : BlockLegal Expr.Clean l) : (block l).Legal Expr.Clean := legal_scope.2 hl

end Stmt

theorem BlockLegal.map {E : Expr → Prop} {f : α → Stmt} {l : List α} (h : ∀ a ∈ l, (f a).Legal E) : BlockLegal E (l.map f) := by
  rw [blockLegal_iff]
  intro s hs
  obtain ⟨a, ha, rfl⟩ := List.mem_map.1 hs
  exact h a ha

/-! ## What a user writes -/

/-- the code of a combiner is portable -/
structure Combiner.Portable (f : Combiner) : Prop where
  body : BlockLegal Expr.Portable f.body
  results : ∀ e ∈ f.results, e.Portable

/-- the parts of an operator that kernels use are portable -/
structure Operator.Portable (op : Operator) : Prop where
  shape : ∀ e ∈ op.shape, e.Portable
  combiner : op.combiner.Portable
  neutral : ∀ e ∈ op.neutral, e.Portable

/-- the parts of a contribution are portable -/
structure Contribution.Portable (c : Contribution) : Prop where
  bucket : c.bucket.Portable
  values : ∀ e ∈ c.values, e.Portable

/-- the parts of a histogram that kernels use are portable; the sizes that the host computes need not be -/
structure Histogram.Portable (h : Histogram) : Prop where
  body : BlockLegal Expr.Portable h.body
  operators : ∀ op ∈ h.operators, op.Portable
  contributions : ∀ c ∈ h.contributions, c.Portable
  maps : ∀ m ∈ h.maps, m.value.Portable

/-! ## Indices and combiners -/

theorem flatIndex_clean {l : List (Expr × Expr)} (h : ∀ x ∈ l, x.1.Clean ∧ x.2.Clean) : (flatIndex l).Clean := by
  cases l with
  | nil => exact .numeral 0
  | cons x l =>
    obtain ⟨hx, hl⟩ := List.forall_mem_cons.1 h
    have hfold (e : Expr) (he : e.Clean) : (l.foldl (fun acc x => acc * x.2 + x.1) e).Clean := by
      induction l generalizing e with
      | nil => exact he
      | cons y l ih =>
        obtain ⟨hy, hl⟩ := List.forall_mem_cons.1 hl
        exact ih (List.forall_mem_cons.2 ⟨hx, hl⟩) hl _ ((he.mul hy.2).add hy.1)
    exact hfold x.1 hx.1

theorem defineIndicesRest_clean {flat : Expr} (hf : flat.Clean) {dims : List (Name × Expr)} (h : ∀ x ∈ dims, x.2.Clean) :
    BlockLegal Expr.Clean (defineIndicesRest flat dims) := by
  induction dims with
  | nil => exact blockLegal_nil
  | cons x dims ih =>
    obtain ⟨hx, hdims⟩ := List.forall_mem_cons.1 h
    have hrest : (Expr.product (dims.map (·.2))).Clean := .product (List.forall_mem_map.2 hdims)
    rw [defineIndicesRest]
    exact blockLegal_cons.2 ⟨Stmt.clean_bind ((hf.div hrest).mod hx), ih hdims⟩

theorem defineIndices_clean {flat : Expr} (hf : flat.Clean) {dims : List (Name × Expr)} (h : ∀ x ∈ dims, x.2.Clean) :
    BlockLegal Expr.Clean (defineIndices flat dims) := by
  cases dims with
  | nil => exact blockLegal_nil
  | cons x dims =>
    obtain ⟨-, hdims⟩ := List.forall_mem_cons.1 h
    rw [defineIndices]
    exact blockLegal_cons.2 ⟨Stmt.clean_bind (hf.div (.product (List.forall_mem_map.2 hdims))), defineIndicesRest_clean hf hdims⟩

theorem Combiner.Portable.apply_clean {f : Combiner} (hf : f.Portable) {args : List Expr} (hargs : ∀ a ∈ args, a.Clean)
    (outs : List Name) : (f.apply args outs).Legal Expr.Clean := by
  refine Stmt.clean_block (blockLegal_append.2 ⟨blockLegal_append.2 ⟨.map fun x hx => ?_, ?_⟩, .map fun x hx => ?_⟩)
  · exact Stmt.clean_bind ((hargs _ (List.of_mem_zip hx).2).castIfNeeded _)
  · exact hf.body.mono fun _ he => he.clean
  · have hres := (List.of_mem_zip (List.of_mem_zip hx).1).1
    exact Stmt.clean_store (.scalarVar _ _) (hf.results _ hres).clean

namespace Operator

variable {op : Operator}

theorem Portable.bucketDims (hop : op.Portable) : ∀ x ∈ op.bucketDims, x.2.Clean := fun _ hx =>
  (hop.shape _ (List.of_mem_zip hx).2).clean

theorem Portable.bucketIndex (hop : op.Portable) : op.bucketIndex.Clean := by
  refine flatIndex_clean fun x hx => ?_
  obtain ⟨y, hy, rfl⟩ := List.mem_map.1 hx
  exact ⟨.ofName y.1, hop.bucketDims y hy⟩

theorem Portable.bucketLoops (hop : op.Portable) {l : List Stmt} (hl : BlockLegal Expr.Clean l) :
    BlockLegal Expr.Clean (op.bucketLoops l) := by
  have hloops (dims : List (Name × Expr)) (h : ∀ x ∈ dims, x.2.Clean) :
      BlockLegal Expr.Clean (dims.foldr (fun x body => [.count x.1 0 x.2 body]) l) := by
    induction dims with
    | nil => exact hl
    | cons x dims ih =>
      obtain ⟨hx, hdims⟩ := List.forall_mem_cons.1 h
      exact blockLegal_cons.2 ⟨Stmt.clean_count (.numeral 0) hx (ih hdims), blockLegal_nil⟩
  exact hloops op.bucketDims hop.bucketDims

end Operator

/-! ## Updates -/

theorem Expr.Clean.scalarVar_sameBits (n : Name) {s s' : Scalar} (h : s.bytes = s'.bytes) : ((Expr.scalarVar n s).sameBits s').Clean := by
  refine (Expr.Clean.scalarVar n s).sameBits ?_
  rw [Expr.scalarVar, Expr.typed, Expr.fold]
  · exact h
  all_goals simp

section Updates

variable {op : Operator} {f : Combiner} {space : Space} {addr value : Expr} {values : List Expr}

theorem space_known (h : space.hasAtomics = true) (s : Scalar) : (Ty.pointer s space).isUnknown = false :=
  Occurrences.hasAtomics_known h s

theorem casLoop_clean (ns : CasNames) (s : Scalar) (target : Name) (hf : f.Portable) (hs : space.hasAtomics = true)
    (ha : addr.Clean) (hv : value.Clean) : BlockLegal Expr.Clean (casLoop ns s space f target addr value) := by
  have hbits : s.bytes = s.bitPattern.bytes := s.bytes_bitPattern.symm
  have hword : ((Expr.element target s space (.ofName ns.idx)).sameBits s.bitPattern).Clean :=
    (Expr.Clean.element target s (space_known hs s) (.ofName ns.idx)).sameBits hbits
  have hold : (Expr.scalarVar ns.old s.bitPattern).Clean := .scalarVar _ _
  have hassumed : (Expr.scalarVar ns.assumed s.bitPattern).Clean := .scalarVar _ _
  have hattempt : BlockLegal Expr.Clean (casAttempt ns s space f target) := by
    have happly : (f.apply [.scalarVar ns.x s, .scalarVar ns.y s] [ns.x]).Legal Expr.Clean :=
      hf.apply_clean (by simp [Expr.Clean.scalarVar]) [ns.x]
    unfold casAttempt
    simp only [blockLegal_cons, blockLegal_nil, and_true]
    exact ⟨Stmt.clean_bind (.scalarVar_sameBits _ hbits.symm), happly,
      Stmt.legal_compareSwap.2 ⟨hs, .ofName _, hassumed, .scalarVar_sameBits _ hbits⟩,
      Stmt.legal_ifElse.2 ⟨hold.eq hassumed, blockLegal_cons.2 ⟨Stmt.clean_update (.truth true), blockLegal_nil⟩,
        blockLegal_cons.2 ⟨Stmt.clean_update hold, blockLegal_nil⟩⟩⟩
  unfold casLoop
  simp only [blockLegal_cons, blockLegal_nil, and_true]
  exact ⟨Stmt.clean_bind ha, Stmt.clean_bind hv, Stmt.clean_bind hword, Stmt.clean_bind (.truth false),
    Stmt.legal_whileLoop.2 ⟨(Expr.Clean.var rfl).not, hattempt⟩⟩

/-- a table of locks that kernels can use -/
structure LockTable.Clean (t : LockTable) : Prop where
  count : t.count.Clean
  space : t.space.hasAtomics = true

theorem lockedUpdate_clean (ns : LockNames) {t : LockTable} (targets : List Name) (hop : op.Portable) (ht : t.Clean)
    (hs : space.hasAtomics = true) (ha : addr.Clean) (hvs : ∀ v ∈ values, v.Clean) :
    BlockLegal Expr.Clean (lockedUpdate ns t space op targets addr values) := by
  have hplace (n : Name) (s : Scalar) : (Expr.element n s space (.ofName ns.idx)).Clean := .element n s (space_known hs s) (.ofName _)
  have hcritical : BlockLegal Expr.Clean (criticalSection ns t space op targets) := by
    unfold criticalSection
    simp only [blockLegal_append, blockLegal_cons, blockLegal_nil, and_true]
    refine ⟨⟨⟨.map fun x _ => Stmt.clean_bind (hplace _ _), hop.combiner.apply_clean (fun a ha => ?_) ns.xs⟩,
      .map fun x _ => Stmt.clean_store (hplace _ _) (.scalarVar _ _)⟩, Stmt.legal_fence.2 hs,
      Stmt.legal_atomic.2 ⟨ht.space, .ofName _, .literal _ _⟩, Stmt.clean_update (.truth true)⟩
    obtain ⟨x, -, rfl⟩ := List.mem_map.1 ha
    exact .scalarVar _ _
  have hattempt : BlockLegal Expr.Clean (lockAttempt ns t space op targets) := by
    unfold lockAttempt
    simp only [blockLegal_cons, blockLegal_nil, and_true]
    exact ⟨Stmt.legal_compareSwap.2 ⟨ht.space, .ofName _, .literal _ _, .literal _ _⟩,
      Stmt.clean_ifThen ((Expr.Clean.scalarVar _ _).eq (.literal _ _)) hcritical⟩
  unfold lockedUpdate
  simp only [blockLegal_append, blockLegal_cons, blockLegal_nil, and_true]
  exact ⟨⟨Stmt.clean_bind ha, .map fun x hx => Stmt.clean_bind (hvs _ (List.of_mem_zip hx).2)⟩,
    Stmt.clean_bind ((Expr.Clean.ofName _).mod ht.count), Stmt.clean_bind (.truth false),
    Stmt.legal_whileLoop.2 ⟨(Expr.Clean.var rfl).not, hattempt⟩⟩

/-- the code of every method is clean -/
theorem Operator.IsUpdate.clean {targets : List Name} {k k' : ℕ} {method : UpdateMethod} {u : Stmt}
    (h : op.IsUpdate space targets addr values k method u k') (hop : op.Portable) (hs : space.hasAtomics = true)
    (hm : ∀ t, method = .locked t → t.Clean) (ha : addr.Clean) (hvs : ∀ v ∈ values, v.Clean) : u.Legal Expr.Clean := by
  cases h with
  | primitive _ _ _ hv =>
    subst hv
    exact Stmt.clean_block (blockLegal_cons.2
      ⟨Stmt.legal_atomic.2 ⟨hs, ha, (hvs _ (List.mem_singleton_self _)).castIfNeeded _⟩, blockLegal_nil⟩)
  | compareSwap _ _ _ hv =>
    subst hv
    exact Stmt.clean_block (casLoop_clean _ _ _ hop.combiner hs ha (hvs _ (List.mem_singleton_self _)))
  | locked => exact Stmt.clean_block (lockedUpdate_clean _ _ hop (hm _ rfl) hs ha hvs)

end Updates

/-! ## Generators that get through -/

/-- the generator gets through, the kernels that it writes are clean, and what it returns satisfies `P` -/
def Deploys (E : Emit α) (P : α → Prop) : Prop :=
  ∀ l k, ∃ a l' k', E l k = some ((a, l ++ l'), k') ∧ LaunchesClean l' ∧ P a

theorem launchesClean_of_nil {l : List Stmt} (h : blockKernels l = []) : LaunchesClean l := fun κ hκ => by
  rw [h] at hκ
  exact absurd hκ List.not_mem_nil

theorem LaunchesClean.append {l l' : List Stmt} (h : LaunchesClean l) (h' : LaunchesClean l') : LaunchesClean (l ++ l') := by
  unfold LaunchesClean
  rw [blockKernels_append]
  exact List.forall_mem_append.2 ⟨h, h'⟩

theorem launchesClean_toStmt {κ : Kernel} (h : κ.Clean) (o : Origin) : LaunchesClean [κ.toStmt o] := by
  unfold LaunchesClean
  rw [blockKernels_cons, blockKernels_nil, Kernel.toStmt, Stmt.kernels, List.append_nil]
  exact fun κ' hκ => List.mem_singleton.1 hκ ▸ h

theorem LaunchesClean.ifElse {l l' : List Stmt} (h : LaunchesClean l) (h' : LaunchesClean l') (cond : Expr) (o : Origin) :
    LaunchesClean [.ifElse cond l l' o] := by
  unfold LaunchesClean
  rw [blockKernels_cons, blockKernels_nil, Stmt.kernels, List.append_nil]
  exact List.forall_mem_append.2 ⟨h, h'⟩

instance : Additive LaunchesClean := ⟨launchesClean_of_nil blockKernels_nil, LaunchesClean.append⟩

namespace Deploys

variable {E : Emit α} {F : α → Emit β} {P P' : α → Prop} {Q : β → Prop}

theorem mono (h : Deploys E P) (hP : ∀ a, P a → P' a) : Deploys E P' := Emits.mono h hP

theorem pure {a : α} (h : P a) : Deploys (Pure.pure a) P := Emits.pure h

theorem bind (h : Deploys E P) (hF : ∀ a, P a → Deploys (F a) Q) : Deploys (E >>= F) Q := Emits.bind h hF

theorem gen {g : Gen α} (h : Gives g P) : Deploys (g : Emit α) P := Emits.gen h

theorem stmts {l : List Stmt} {P : Unit → Prop} (hl : LaunchesClean l) (h : P ()) : Deploys (Emit.stmts l) P := Emits.stmts hl h

theorem stmt {x : Stmt} {P : Unit → Prop} (hx : LaunchesClean [x]) (h : P ()) : Deploys (Emit.stmt x) P := stmts hx h

theorem collect {E : Emit Unit} {P : Unit → Prop} (h : Deploys E P) : Gives (Emit.collect E) LaunchesClean := Emits.collect h

theorem mapM_zip {G : α → Emit β} {Q : α → β → Prop} {l : List α} (h : ∀ a ∈ l, Deploys (G a) (Q a)) :
    Deploys (l.mapM G) fun bs => bs.length = l.length ∧ ∀ x ∈ l.zip bs, Q x.1 x.2 := Emits.mapM_zip h

theorem mapM {G : α → Emit β} {l : List α} (h : ∀ a ∈ l, Deploys (G a) Q) :
    Deploys (l.mapM G) fun bs => bs.length = l.length ∧ ∀ b ∈ bs, Q b := Emits.mapM h

/-- a size is a literal or a variable, and clean whatever it is the size of -/
theorem bindSize (label : String) (e : Expr) : Deploys (Emit.bindSize label e) Expr.Clean :=
  Emits.bindSize label (fun _ _ => .literal _ _) .ofName fun _ => launchesClean_of_nil (by simp [Stmt.bind, Stmt.kernels])

end Deploys

/-! ## Plans -/

/-- an operator in a plan, with all that kernels take from it -/
structure Part.Clean (q : Part) : Prop where
  op : q.op.Portable
  contribution : q.contribution.Portable
  values : q.contribution.values.length = q.op.dests.length
  width : q.width.Clean
  bucketSize : q.bucketSize.Clean
  dests : q.subs.dests = q.op.dests
  subs : q.subs.subs.length = q.op.dests.length
  neutral : q.subs.neutral = q.op.neutral
  segments : q.subs.segments.Clean
  size : q.subs.size.Clean

/-- a plan, with all that kernels take from it -/
structure Plan.Clean (p : Plan) : Prop where
  hist : p.hist.Portable
  segmentDims : ∀ x ∈ p.segmentDims, x.2.Clean
  segments : p.segments.Clean
  elements : p.elements.Clean
  parts : ∀ q ∈ p.parts, q.Clean

/-- sizes that a kernel in local memory can use -/
structure LocalShape.Clean (shape : LocalShape) : Prop where
  copies : shape.copies.Clean
  groupsPerSegment : shape.groupsPerSegment.Clean

/-- **Planning** gets through on every histogram that fits together. -/
theorem plan_deploys {h : Histogram} (hv : h.validate = .ok ()) (hp : h.Portable) (o : Options) :
    Deploys (h.plan o) Plan.Clean := by
  refine (plan_emits (R := fun _ => True) hv o (fun label e _ => Deploys.bindSize label e) (.numeral 0) (by simp) (by simp) (by simp)
    (by simp) (by simp)).mono fun p ⟨halign, hsized⟩ => ?_
  have hpart (q : Part) (hq : q ∈ p.parts) : q.Clean := by
    have haligned := halign.parts q hq
    obtain ⟨hwidth, hbucket, hneutral, hsegments, hsize⟩ := hsized.parts q hq
    exact
      { op := hp.operators _ (halign.operators ▸ List.mem_map.2 ⟨q, hq, rfl⟩)
        contribution := hp.contributions _ (halign.contributions ▸ List.mem_map.2 ⟨q, hq, rfl⟩)
        values := haligned.values
        width := hwidth
        bucketSize := hbucket
        dests := haligned.dests
        subs := haligned.subs
        neutral := hneutral
        segments := hsegments ▸ hsized.segments
        size := hsize ▸ hwidth.mul hbucket }
  exact ⟨hsized.hist ▸ hp, hsized.segmentDims, hsized.segments, hsized.elements, hpart⟩

/-! ## The code of an element -/

/-- the chosen methods suit the operators, and a table of locks that is made for them can be used by kernels -/
theorem chooseMethods_gives {count : Expr} {space : Space} (hc : count.Clean) (hs : space.hasAtomics = true) (ops : List Operator) :
    Gives (chooseMethods ops (LockTable.create count space) : Gen _) fun x =>
      (∀ t, x.1 = some t → t.Clean) ∧ ∀ y ∈ ops.zip x.2, y.2.Suits y.1 x.1 :=
  (chooseMethods_spec count space ops).mono fun _ ⟨_, htable, hsuits⟩ =>
    ⟨fun t ht => ⟨(htable t ht).1 ▸ hc, (htable t ht).2 ▸ hs⟩, hsuits⟩

/-- the update of an operator is clean -/
theorem Part.Clean.update_gives {q : Part} (hq : q.Clean) {method : UpdateMethod} {table : Option LockTable}
    (hm : method.Suits q.op table) (ht : ∀ t, table = some t → t.Clean) {space : Space} (hs : space.hasAtomics = true)
    {targets : List Name} (htargets : targets.length = q.op.dests.length) {addr : Expr} (ha : addr.Clean) :
    Gives (q.op.updateCode method space targets addr q.contribution.values) (Stmt.Legal Expr.Clean) :=
  (updateCode_gives hm space htargets addr hq.values).mono fun u ⟨_, _, hu⟩ => by
    refine hu.clean hq.op hs (fun t he => ?_) ha fun v hv => (hq.contribution.values v hv).clean
    subst he
    exact ht t hm

namespace Plan

variable {p : Plan}

instance : Additive (BlockLegal Expr.Clean) := ⟨blockLegal_nil, fun h h' => blockLegal_append.2 ⟨h, h'⟩⟩

theorem bucketUpdate_clean {q : Part} (hq : q.Clean) (bucket : Name) {u : Stmt} (hu : u.Legal Expr.Clean) :
    BlockLegal Expr.Clean (bucketUpdate q bucket u) := by
  have hrange := ((Expr.Clean.ofName bucket).ge (.numeral 0)).and ((Expr.Clean.ofName bucket).lt hq.width)
  unfold bucketUpdate
  simp only [blockLegal_cons, blockLegal_nil, and_true]
  exact ⟨Stmt.clean_bind (hq.contribution.bucket.clean.castIfNeeded _),
    Stmt.clean_ifThen hrange (hq.op.bucketLoops (blockLegal_cons.2 ⟨hu, blockLegal_nil⟩))⟩

/-- the code of an element is clean if the updates are -/
theorem Clean.element_gives (hp : p.Clean) {update : Part → α → Expr → Gen Stmt} {parts : List (Part × α)} {segment index : Expr}
    (hs : segment.Clean) (hi : index.Clean)
    (h : ∀ x ∈ parts, x.1.Clean ∧ ∀ b : Expr, b.Clean → Gives (update x.1 x.2 b) (Stmt.Legal Expr.Clean)) :
    Gives (p.element segment index parts update) (BlockLegal Expr.Clean) := by
  refine Plan.element_gives (defineIndices_clean hs hp.segmentDims)
    (fun n => blockLegal_cons.2 ⟨Stmt.clean_bind hi, blockLegal_nil⟩) (hp.hist.body.mono fun _ he => he.clean)
    (fun n => .map fun m hm => ?_) fun x hx n => ((h x hx).2 _ (.ofName n)).mono fun u hu => bucketUpdate_clean (h x hx).1 n hu
  exact Stmt.clean_store (.element _ _ rfl ((hs.mul hp.elements).add (.ofName n))) (hp.hist.maps m hm).clean

/-- a kernel of a clean body is clean -/
theorem kernel_gives (name stage : String) {body : List Stmt} (hb : CleanBody body) (blocks : List LocalBlock) (groups : Expr) :
    Gives (p.kernel name stage body blocks groups : Gen Kernel) Kernel.Clean :=
  .lift fun _ => ⟨rfl, hb⟩

/-! ## Copies -/

/-- what stands beside a member of one list in another one, where that is put together from two lists -/
theorem mem_zip_map {γ δ : Type} {qs : List α} {ms : List β} {cs : List γ} {f : β × γ → δ} {x : α × δ}
    (hx : x ∈ qs.zip ((ms.zip cs).map f)) : ∃ m c, x.2 = f (m, c) ∧ (x.1, m) ∈ qs.zip ms ∧ (x.1, c) ∈ qs.zip cs := by
  obtain ⟨i, hi⟩ := List.mem_iff_getElem?.1 hx
  obtain ⟨hq, hf⟩ := List.getElem?_zip_eq_some.1 hi
  rw [List.getElem?_map, Option.map_eq_some_iff] at hf
  obtain ⟨y, hy, hxy⟩ := hf
  obtain ⟨hm, hc⟩ := List.getElem?_zip_eq_some.1 hy
  exact ⟨y.1, y.2, hxy.symm, List.mem_of_getElem? (List.getElem?_zip_eq_some.2 ⟨hq, hm⟩),
    List.mem_of_getElem? (List.getElem?_zip_eq_some.2 ⟨hq, hc⟩)⟩

theorem suits_of_mem {methods : List UpdateMethod} {table : Option LockTable}
    (h : ∀ y ∈ p.operators.zip methods, y.2.Suits y.1 table) {q : Part} {m : UpdateMethod} (hq : (q, m) ∈ p.parts.zip methods) :
    m.Suits q.op table := by
  have hmem : (q.op, m) ∈ p.operators.zip methods := by
    rw [operators, List.zip_map_left]
    exact List.mem_map.2 ⟨_, hq, rfl⟩
  exact h _ hmem

theorem allocate_deploys (l : List (Part × Expr)) : Deploys (allocate l) fun _ => True :=
  allocate_emits fun x _ seg hseg => by
    have hfresh : ¬ seg.Before 0 := fun h => by
      obtain ⟨k, hk⟩ := Option.isSome_iff_exists.1 hseg
      exact absurd (h k hk) (Nat.not_lt_zero k)
    exact launchesClean_of_nil (Quiet.cons (x.1.subs.allocate_quiet x.2 hfresh) (.nil 0)).kernels

theorem mergeBody_clean {q : Part} (hq : q.Clean) (ns : MergeNames) {count : Expr} (hc : count.Clean) :
    BlockLegal Expr.Clean (q.subs.mergeBody q.op.combiner ns count) := by
  have hname (n : Name) : (Expr.ofName n).Clean := .ofName n
  have haccess (a : Name × Scalar) {i : Expr} (hi : i.Clean) : (Subhistograms.access a i).Clean := .element _ _ rfl hi
  have hsub {k : Expr} (hk : k.Clean) : (q.subs.subIndex count (.ofName ns.segment) k (.ofName ns.j)).Clean :=
    ((((hname _).mul hc).add hk).mul hq.size).add (hname _)
  have hdest : (q.subs.destIndex (.ofName ns.segment) (.ofName ns.j)).Clean := ((hname _).mul hq.size).add (hname _)
  have haccs : ∀ e ∈ q.subs.accumulators ns, e.Clean := fun e he => by
    obtain ⟨x, -, rfl⟩ := List.mem_map.1 he
    exact .scalarVar _ _
  have hsubs {k : Expr} (hk : k.Clean) :
      ∀ e ∈ q.subs.subAccesses (q.subs.subIndex count (.ofName ns.segment) k (.ofName ns.j)), e.Clean := fun e he => by
    obtain ⟨x, -, rfl⟩ := List.mem_map.1 he
    exact haccess x (hsub hk)
  have hdests : ∀ e ∈ q.subs.destAccesses (q.subs.destIndex (.ofName ns.segment) (.ofName ns.j)), e.Clean := fun e he => by
    obtain ⟨d, -, rfl⟩ := List.mem_map.1 he
    exact haccess _ hdest
  have happly := hq.op.combiner.apply_clean (List.forall_mem_append.2 ⟨haccs, hsubs (hname ns.s)⟩) ns.accs
  have helement : BlockLegal Expr.Clean (q.subs.mergeElement q.op.combiner ns count) := by
    unfold Subhistograms.mergeElement
    simp only [blockLegal_append, blockLegal_cons, blockLegal_nil, and_true]
    exact ⟨⟨⟨⟨Stmt.clean_bind ((hname _).div hq.size), Stmt.clean_bind ((hname _).mod hq.size)⟩,
      .map fun x hx => Stmt.clean_bind (hsubs (.numeral 0) _ (List.of_mem_zip hx).2)⟩,
      Stmt.clean_count (.numeral 1) hc (blockLegal_cons.2 ⟨happly, blockLegal_nil⟩)⟩,
      .map fun x hx => Stmt.clean_store (hdests _ (List.of_mem_zip hx).1) (haccs _ (List.of_mem_zip hx).2)⟩
  unfold Subhistograms.mergeBody
  simp only [blockLegal_cons, blockLegal_nil, and_true]
  exact ⟨Stmt.clean_bind (.place _ _ _), Stmt.clean_ifThen ((hname _).lt (hq.segments.mul hq.size)) helement⟩

theorem finish_deploys {l : List (Part × Expr)} (h : ∀ x ∈ l, x.1.Clean ∧ x.2.Clean) : Deploys (p.finish l) fun _ => True := by
  refine finish_emits fun x hx => ⟨fun k => ?_, ?_⟩
  · obtain ⟨hq, hc⟩ := h x hx
    exact (launchesClean_toStmt ⟨rfl, .of_legal (mergeBody_clean hq _ hc)⟩ _).ifElse (launchesClean_of_nil blockKernels_nil) _ _
  · exact launchesClean_of_nil (Quiet.cons (release_quiet (k := 0) x.1.subs x.2) (.nil 0)).kernels

/-! ## The kernel in global memory -/

theorem globalAddress_clean {q : Part} (hq : q.Clean) (ns : GlobalNames) {g : GlobalPart} (hg : g.count.Clean) {b : Expr} (hb : b.Clean) :
    (globalAddress ns q g b).Clean := by
  refine flatIndex_clean fun x hx => ?_
  simp only [List.mem_cons, List.not_mem_nil, or_false] at hx
  rcases hx with rfl | rfl | rfl | rfl
  · exact ⟨.ofName _, .numeral 1⟩
  · exact ⟨.ofName _, hg⟩
  · exact ⟨hb, hq.width⟩
  · exact ⟨hq.op.bucketIndex, hq.bucketSize⟩

theorem Clean.globalBody (hp : p.Clean) (ns : GlobalNames) {parts : List GlobalPart} (hparts : ∀ g ∈ parts, g.threadsPerCopy.Clean)
    {chunk : Expr} (hchunk : chunk.Clean) {element : List Stmt} (helement : BlockLegal Expr.Clean element) :
    BlockLegal Expr.Clean (p.globalBody ns parts chunk element) := by
  have hname (n : Name) : (Expr.ofName n).Clean := .ofName n
  unfold Plan.globalBody
  simp only [blockLegal_append, blockLegal_cons, blockLegal_nil, and_true]
  refine ⟨⟨Stmt.clean_bind (.place _ _ _), .map fun g hg => Stmt.clean_bind ((hname _).div (hparts g hg))⟩,
    Stmt.clean_count (.numeral 0) hchunk ?_⟩
  simp only [blockLegal_cons, blockLegal_nil, and_true]
  exact ⟨Stmt.clean_bind (((hname _).mul hchunk).add (hname _)),
    Stmt.clean_ifThen ((hname _).lt (hp.segments.mul hp.elements))
      (blockLegal_cons.2 ⟨Stmt.clean_bind ((hname _).div hp.elements), helement⟩)⟩

theorem globalCode_deploys (hp : p.Clean) : Deploys p.globalCode fun _ => True := by
  have hlocks (t : LockTable) : LaunchesClean (allocateLocks t) := launchesClean_of_nil (by simp [allocateLocks, Stmt.kernels])
  have hfree (t : LockTable) : LaunchesClean [.free t.name .unknown] := launchesClean_of_nil (by simp [Stmt.kernels])
  unfold globalCode
  refine .bind (.gen (chooseMethods_gives (.literal _ _) rfl p.operators)) fun x hx => ?_
  obtain ⟨table, methods⟩ := x
  obtain ⟨htable, hsuits⟩ := hx
  refine .bind (.mapM fun q _ => .bindSize _ _) fun counts hcounts => .bind (.mapM fun c _ => .bindSize _ _)
    fun shares hshares => .bind (allocate_deploys _) fun _ _ => ?_
  have hcounted : ∀ x ∈ p.parts.zip counts, x.1.Clean ∧ x.2.Clean := fun x hx =>
    ⟨hp.parts _ (List.of_mem_zip hx).1, hcounts.2 _ (List.of_mem_zip hx).2⟩
  -- the table of locks is made before the kernel and freed after it, if there is one
  cases table
  case' some t => refine .bind (P := fun _ => True) (.stmts (hlocks t) trivial) fun _ _ => ?_
  all_goals
    refine .bind (.bindSize _ _) fun chunk hchunk => .bind (.gen (.lift (P := fun _ => True) fun _ => trivial)) fun ns _ =>
      .bind (.mapM (Q := fun _ => True) fun _ _ => .gen (.lift fun _ => trivial)) fun copies _ => ?_
    refine .bind (.gen (hp.element_gives (.ofName _) ((Expr.Clean.ofName _).mod hp.elements) fun x hx => ?_)) fun element helement =>
      .bind (.gen (kernel_gives _ _ (.of_legal (hp.globalBody ns (fun g hg => ?_) hchunk helement)) _ _)) fun κ hκ =>
        .bind (P := fun _ => True) (.stmt (launchesClean_toStmt hκ _) trivial) fun _ _ => .bind (finish_deploys hcounted) fun _ _ => ?_
    · have hq := hp.parts _ (List.of_mem_zip hx).1
      obtain ⟨m, ⟨c, s, n⟩, hx, hm, hc⟩ := mem_zip_map hx
      refine ⟨hq, fun b hb => ?_⟩
      rw [hx]
      exact hq.update_gives (suits_of_mem hsuits hm) htable rfl hq.subs
        (globalAddress_clean hq ns (hcounts.2 c (List.of_mem_zip (List.of_mem_zip hc).2).1) hb)
    · obtain ⟨y, hy, rfl⟩ := List.mem_map.1 hg
      exact hshares.2 _ (List.of_mem_zip (List.of_mem_zip (List.of_mem_zip hy).2).2).1
  · exact .stmts (P := fun _ => True) (hfree _) trivial
  · exact .pure (P := fun _ => True) trivial

/-! ## The kernel in local memory -/

section LocalKernels

variable {q : Part} {ns : LocalNames} {shape : LocalShape} {blocks : List Name} {j : Expr}

theorem groupLoop_clean (c : ChunkNames) (thread : Name) {size : Expr} (hs : size.Clean) {body : List Stmt}
    (hb : BlockLegal Expr.Clean body) : (groupLoop c thread size body).Legal Expr.Clean := by
  have hname (n : Name) : (Expr.ofName n).Clean := .ofName n
  have hthreads : Expr.localSize.Clean := .place _ _ _
  refine Stmt.clean_count (.numeral 0) (hs.ceilDiv hthreads) ?_
  simp only [blockLegal_cons, blockLegal_nil, and_true]
  exact ⟨Stmt.clean_bind (((hname _).mul hthreads).add (hname _)), Stmt.clean_ifThen ((hname _).lt hs) hb⟩

theorem stores_clean {dsts es : List Expr} (hd : ∀ e ∈ dsts, e.Clean) (he : ∀ e ∈ es, e.Clean) :
    BlockLegal Expr.Clean (Part.stores dsts es) :=
  .map fun _ hx => Stmt.clean_store (hd _ (List.of_mem_zip hx).1) (he _ (List.of_mem_zip hx).2)

theorem localElements_clean (q : Part) (blocks : List Name) (hj : j.Clean) : ∀ e ∈ q.localElements blocks j, e.Clean := by
  intro e he
  obtain ⟨x, -, rfl⟩ := List.mem_map.1 he
  exact .element _ _ rfl hj

theorem published_clean (hq : q.Clean) (ns : LocalNames) (hs : shape.Clean) (hj : j.Clean) :
    ∀ e ∈ q.published ns shape j, e.Clean := by
  have hidx : (q.publishedIndex ns shape j).Clean := by
    refine flatIndex_clean fun x hx => ?_
    simp only [List.mem_cons, List.not_mem_nil, or_false] at hx
    rcases hx with rfl | rfl | rfl
    · exact ⟨.ofName _, .numeral 1⟩
    · exact ⟨.ofName _, hs.groupsPerSegment⟩
    · exact ⟨hj, hq.size⟩
  intro e he
  obtain ⟨x, -, rfl⟩ := List.mem_map.1 he
  exact .element _ _ rfl hidx

theorem initElement_clean (hq : q.Clean) (ns : LocalNames) (hs : shape.Clean) (blocks : List Name) (hj : j.Clean) :
    BlockLegal Expr.Clean (q.initElement ns shape blocks j) := by
  have hlocal := localElements_clean q blocks hj
  have hneutral : ∀ e ∈ q.subs.neutral, e.Clean := fun e he => (hq.op.neutral e (hq.neutral ▸ he)).clean
  exact blockLegal_cons.2 ⟨Stmt.legal_ifElse.2 ⟨hj.lt hq.size, stores_clean hlocal (published_clean hq ns hs hj),
    stores_clean hlocal hneutral⟩, blockLegal_nil⟩

theorem compactElement_clean (hq : q.Clean) (hs : shape.Clean) (blocks : List Name) (s : Name) (accs : List Name) (hj : j.Clean) :
    BlockLegal Expr.Clean (q.compactElement shape blocks s accs j) := by
  have hvars : ∀ e ∈ (accs.zip q.subs.dests).map (fun x => Expr.scalarVar x.1 x.2.elem), e.Clean := fun e he => by
    obtain ⟨x, -, rfl⟩ := List.mem_map.1 he
    exact .scalarVar _ _
  have hother := localElements_clean q blocks (((Expr.Clean.ofName s).mul hq.size).add hj)
  have hlocal := localElements_clean q blocks hj
  have happly := hq.op.combiner.apply_clean (List.forall_mem_append.2 ⟨hvars, hother⟩) accs
  unfold Part.compactElement
  simp only [blockLegal_append, blockLegal_cons, blockLegal_nil, and_true]
  exact ⟨⟨.map fun x hx => Stmt.clean_bind (hlocal _ (List.of_mem_zip hx).2),
    Stmt.clean_count (.numeral 1) hs.copies (blockLegal_cons.2 ⟨happly, blockLegal_nil⟩)⟩, stores_clean hlocal hvars⟩

theorem publishElement_clean (hq : q.Clean) (ns : LocalNames) (hs : shape.Clean) (blocks : List Name) (hj : j.Clean) :
    BlockLegal Expr.Clean (q.publishElement ns shape blocks j) :=
  stores_clean (published_clean hq ns hs hj) (localElements_clean q blocks hj)

theorem localAddress_clean (hq : q.Clean) (ns : LocalNames) {b : Expr} (hb : b.Clean) : (q.localAddress ns b).Clean := by
  refine flatIndex_clean fun x hx => ?_
  simp only [List.mem_cons, List.not_mem_nil, or_false] at hx
  rcases hx with rfl | rfl | rfl
  · exact ⟨.ofName _, .numeral 1⟩
  · exact ⟨hb, hq.width⟩
  · exact ⟨hq.op.bucketIndex, hq.bucketSize⟩

theorem initCopies_clean (ns : LocalNames) (hs : shape.Clean) {l : List (Part × LocalPart)} (h : ∀ x ∈ l, x.1.Clean) (k : ℕ) :
    BlockLegal Expr.Clean (initCopies ns shape l k).1 := by
  induction l generalizing k with
  | nil => exact blockLegal_nil
  | cons x l ih =>
    obtain ⟨hx, hl⟩ := List.forall_mem_cons.1 h
    exact blockLegal_cons.2 ⟨groupLoop_clean _ _ (hs.copies.mul hx.size) (initElement_clean hx ns hs _ (.ofName _)), ih hl _⟩

theorem compactCopies_clean (ns : LocalNames) (hs : shape.Clean) {l : List (Part × LocalPart)} (h : ∀ x ∈ l, x.1.Clean) (k : ℕ) :
    BlockLegal Expr.Clean (compactCopies ns shape l k).1 := by
  induction l generalizing k with
  | nil => exact blockLegal_nil
  | cons x l ih =>
    obtain ⟨hx, hl⟩ := List.forall_mem_cons.1 h
    exact blockLegal_cons.2 ⟨groupLoop_clean _ _ hx.size (compactElement_clean hx hs _ _ _ (.ofName _)), ih hl _⟩

theorem publishCopies_clean (ns : LocalNames) (hs : shape.Clean) {l : List (Part × LocalPart)} (h : ∀ x ∈ l, x.1.Clean) (k : ℕ) :
    BlockLegal Expr.Clean (publishCopies ns shape l k).1 := by
  induction l generalizing k with
  | nil => exact blockLegal_nil
  | cons x l ih =>
    obtain ⟨hx, hl⟩ := List.forall_mem_cons.1 h
    exact blockLegal_cons.2 ⟨groupLoop_clean _ _ hx.size (publishElement_clean hx ns hs _ (.ofName _)), ih hl _⟩

theorem initLocks_clean (ns : LocalNames) (table : Option LockTable) (k : ℕ) : BlockLegal Expr.Clean (initLocks ns table k).1 := by
  cases table with
  | none => exact blockLegal_nil
  | some t =>
    refine blockLegal_cons.2 ⟨groupLoop_clean _ _ (.place _ _ _) ?_, blockLegal_nil⟩
    exact blockLegal_cons.2 ⟨Stmt.clean_store (.element _ _ rfl (.ofName _)) (.literal _ _), blockLegal_nil⟩

end LocalKernels

theorem Clean.sweep (hp : p.Clean) (ns : LocalNames) {shape : LocalShape} (hs : shape.Clean) (sw : SweepNames) {element : List Stmt}
    (helement : BlockLegal Expr.Clean element) : BlockLegal Expr.Clean (p.sweep ns shape sw element) := by
  have hname (n : Name) : (Expr.ofName n).Clean := .ofName n
  have hthreads : Expr.localSize.Clean := .place _ _ _
  have hbody : BlockLegal Expr.Clean
      [ .bind sw.e (.ofName sw.thread * .ofName sw.chunk + .ofName sw.k), .ifThen ((Expr.ofName sw.e).lt p.elements) element ] := by
    simp only [blockLegal_cons, blockLegal_nil, and_true]
    exact ⟨Stmt.clean_bind (((hname _).mul (hname _)).add (hname _)), Stmt.clean_ifThen ((hname _).lt hp.elements) helement⟩
  unfold Plan.sweep
  simp only [blockLegal_cons, blockLegal_nil, and_true]
  exact ⟨Stmt.clean_bind (((hname _).mul hthreads).add (hname _)),
    Stmt.clean_bind (hp.elements.ceilDiv (hs.groupsPerSegment.mul hthreads)), Stmt.clean_count (.numeral 0) (hname _) hbody⟩

theorem localStart_clean (ns : LocalNames) {shape : LocalShape} (hs : shape.Clean) :
    BlockLegal Expr.Clean (localStart ns shape) := by
  have hplace (p : Place) : (Expr.atPlace p .x).Clean := .place _ _ _
  unfold localStart
  simp only [blockLegal_cons, blockLegal_nil, and_true]
  exact ⟨Stmt.clean_bind (hplace _), Stmt.clean_bind ((hplace _).mod hs.groupsPerSegment),
    Stmt.clean_bind ((hplace _).div hs.groupsPerSegment), Stmt.clean_bind ((Expr.Clean.ofName _).mod hs.copies)⟩

/-- the body of the kernel: the phases are clean, and the barriers stand between them -/
theorem Clean.localBody_gives (hp : p.Clean) {shape : LocalShape} (hs : shape.Clean) {table : Option LockTable}
    (htable : ∀ t, table = some t → t.Clean) {parts : List (Part × LocalPart)}
    (hparts : ∀ x ∈ parts, x.1.Clean ∧ x.2.method.Suits x.1.op table ∧ x.2.blocks.length = x.1.op.dests.length) :
    Gives (p.localBody shape table parts) CleanBody := by
  have hclean : ∀ x ∈ parts, x.1.Clean := fun x hx => (hparts x hx).1
  unfold localBody
  refine .bind (.lift (P := fun _ => True) fun _ => trivial) fun ns _ => .bind (.lift (initCopies_clean ns hs hclean)) fun init hinit =>
    .bind (.lift (initLocks_clean ns table)) fun locks hlocks => .bind (.lift (P := fun _ => True) fun _ => trivial) fun sw _ =>
      .bind (hp.element_gives (.ofName _) (.ofName _) fun x hx => ⟨hclean x hx, fun b hb => ?_⟩) fun element helement =>
        .bind (.lift (compactCopies_clean ns hs hclean)) fun compact hcompact =>
          .bind (.lift (publishCopies_clean ns hs hclean)) fun publish hpublish => .pure ?_
  · obtain ⟨hq, hm, hblocks⟩ := hparts x hx
    exact hq.update_gives hm htable rfl hblocks (localAddress_clean hq ns hb)
  · have hstart := CleanBody.of_legal (blockLegal_append.2 ⟨blockLegal_append.2 ⟨localStart_clean ns hs, hinit⟩, hlocks⟩)
    have hsweep := CleanBody.of_legal (hp.sweep ns hs sw helement)
    exact (((((hstart.append (.barrier _ _)).append hsweep).append (.barrier _ _)).append (.of_legal hcompact)).append
      (.barrier _ _)).append (.of_legal hpublish)

theorem localCode_deploys (hp : p.Clean) (copies : Expr) : Deploys (p.localCode copies) fun _ => True := by
  unfold localCode
  refine .bind (.gen (chooseMethods_gives (.place _ _ _) rfl p.operators)) fun x hx => ?_
  obtain ⟨table, methods⟩ := x
  obtain ⟨htable, hsuits⟩ := hx
  refine .bind (.bindSize _ _) fun copies hcopies => .bind (.bindSize _ _) fun groups hgroups => .bind (allocate_deploys _) fun _ _ => ?_
  refine .bind (.mapM_zip (Q := fun q blocks => blocks.length = q.op.dests.length) fun q hq => ?_) fun blocks ⟨_, hblocks⟩ => ?_
  · have hnames : Deploys (q.subs.dests.mapM fun d => (fresh (d.name.text ++ "_local") : Gen Name) : Emit (List Name))
        fun bs => bs.length = q.subs.dests.length ∧ ∀ b ∈ bs, True :=
      .mapM fun d _ => .gen (.lift fun _ => trivial)
    exact hnames.mono fun bs hbs => hbs.1.trans (congrArg List.length (hp.parts q hq).dests)
  refine .bind (.gen (hp.localBody_gives ⟨hcopies, hgroups⟩ htable fun x hx => ?_)) fun body hbody =>
    .bind (.gen (kernel_gives _ _ hbody _ _)) fun κ hκ => .bind (P := fun _ => True) (.stmt (launchesClean_toStmt hκ _) trivial)
      fun _ _ => finish_deploys fun x hx => ?_
  · have hq := hp.parts _ (List.of_mem_zip hx).1
    obtain ⟨m, b, hx, hm, hb⟩ := mem_zip_map hx
    rw [hx]
    exact ⟨hq, suits_of_mem hsuits hm, hblocks _ hb⟩
  · obtain ⟨q, hq, rfl⟩ := List.mem_map.1 hx
    exact ⟨hp.parts q hq, hgroups⟩

end Plan

/-! ## Compilation -/

/-- a decision on numbers is always made -/
theorem Placement.exists_choose? (c : Placement.Costs) : ∃ s, Placement.choose? c = some s := by
  unfold Placement.choose?
  split
  · exact ⟨_, rfl⟩
  · next hbytes =>
    split
    · exact ⟨_, rfl⟩
    · next hpos =>
      rw [not_or, not_le, not_le] at hpos
      obtain ⟨threads, hthreads⟩ := divUp?_of_pos hpos.1 (n := c.histBytes)
      have hpositive : 0 ≤ Word64.saturate (c.groupSize * c.threadBytes) := by
        have hgreatest : 0 ≤ Word64.greatest := by decide
        exact le_max_of_le_right (le_min (Int.mul_pos hpos.2 hpos.1).le hgreatest)
      have hcopies : ∃ copies, localCopies? c.groupSize c.threadBytes c.histBytes = some copies := by
        unfold localCopies? divUp?
        rw [if_neg]
        · exact ⟨_, rfl⟩
        · rintro (h | ⟨h, -⟩)
          · exact hbytes h
          · rw [h] at hpositive
            revert hpositive
            decide
      obtain ⟨copies, hcopies⟩ := hcopies
      rw [cooperation?, hthreads, hcopies]
      simp only [Option.bind_eq_bind, Option.bind_some]
      split <;> exact ⟨_, rfl⟩

namespace Plan

variable {p : Plan}

theorem deferredCode_deploys (hp : p.Clean) (o : Options) (histBytes : Expr) : Deploys (p.deferredCode o histBytes) fun _ => True := by
  have hbranch : Deploys (do
      let threadBytes ← Emit.bindSize "thread_bytes" (memoryLimits o).1
      let maxLocalMemory ← Emit.bindSize "max_local_memory" (memoryLimits o).2
      let useLocal := Placement.localFits histBytes p.groupSize threadBytes maxLocalMemory p.lockBytes
      let inLocal ← Emit.collect (p.localCode (Placement.localCopies p.groupSize threadBytes histBytes))
      let inGlobal ← Emit.collect p.globalCode
      Emit.stmt (.ifElse useLocal inLocal inGlobal .unknown)) fun _ => True :=
    .bind (.bindSize _ _) fun threadBytes _ => .bind (.bindSize _ _) fun maxLocalMemory _ =>
      .bind (.gen (localCode_deploys hp _).collect) fun inLocal hl => .bind (.gen (globalCode_deploys hp).collect)
        fun inGlobal hg => .stmt (hl.ifElse hg _ _) trivial
  exact .bind (.gen hbranch.collect) fun branch hb => .stmt (hb.ifElse (launchesClean_of_nil blockKernels_nil) _ _) trivial

theorem code_deploys (hp : p.Clean) (o : Options) (histBytes : Expr) : Deploys (p.code o histBytes) fun _ => True := by
  unfold code
  split
  · next _ _ c _ =>
    obtain ⟨s, hs⟩ := Placement.exists_choose? c
    rw [hs]
    cases s with
    | skip => exact .pure trivial
    | localMemory copies => exact localCode_deploys hp _
    | globalMemory => exact globalCode_deploys hp
  · exact .pure trivial
  · exact deferredCode_deploys hp o histBytes

end Plan

namespace Histogram

/-- **Deployment.** A histogram that fits together and is made of portable parts compiles for all options; the program has device
code for every target, and in every kernel that it launches the barriers stand at the top of the body, which they divide into phases. -/
theorem compile_deploys {h : Histogram} (hv : h.validate = .ok ()) (hp : h.Portable) (o : Options) (k : ℕ) :
    ∃ gen p k', h.compile o = .ok gen ∧ gen.run k = some (p, k') ∧ (∀ t, ∃ d, p.deviceCode t = .ok d) ∧
      ∀ κ, p.Launches κ → κ.Deployable := by
  have hcode : Gives (h.hostCode o) LaunchesClean :=
    (Deploys.bind (plan_deploys hv hp o) fun p hp => .bind (.bindSize _ _) fun histBytes _ => Plan.code_deploys hp o histBytes).collect
  obtain ⟨l, k', hl, hclean⟩ := hcode k
  have hlaunched : ∀ κ, Program.Launches ⟨foldBlock l, h.openSizes o⟩ κ → κ.Deployable := fun κ hκ =>
    hclean.deployable κ (Program.launches_iff.1 hκ)
  refine ⟨h.generate o, ⟨foldBlock l, h.openSizes o⟩, k', ?_, ?_, fun t => ?_, hlaunched⟩
  · exact compile_eq_ok.2 ⟨hv, rfl⟩
  · change (h.hostCode o k).bind (fun r => some (({ body := foldBlock r.1, sizes := h.openSizes o } : Program), r.2)) = _
    rw [hl]
    rfl
  · exact Program.exists_deviceCode fun κ hκ => (hlaunched κ hκ).accepted

/-- the greatest root in each of four buckets, under locks: an operator on two arrays -/
def greatestRoots : Histogram where
  name := "roots"
  space := [(.plain "i", .ofName (.plain "n"))]
  operators := [
    { width := 4
      shape := []
      bucketIndices := []
      combiner :=
        { params := [(.plain "a", .f64), (.plain "k", .i64), (.plain "b", .f64), (.plain "l", .i64)]
          body := []
          results := [.max (.scalarVar (.plain "a") .f64) (.scalarVar (.plain "b") .f64), .ofName (.plain "l")] }
      neutral := [.float 0 (.scalar .f64) .unknown, 0]
      dests := [⟨.plain "root", .f64⟩, ⟨.plain "last", .i64⟩] }]
  body := [.bind (.plain "x") (.element (.plain "xs") .f64 .device (.ofName (.plain "i")))]
  contributions := [
    { bucket := .ofName (.plain "i") % 4
      values := [.unary .sqrt (.scalarVar (.plain "x") .f64) (.scalar .f64) .unknown, .ofName (.plain "i")] }]
  maps := []
  origin := .unknown

/-- it is deployed without any size being known -/
theorem compile_deploys_greatestRoots : greatestRoots.validate = .ok () ∧ greatestRoots.Portable ∧
    ∃ gen p k', greatestRoots.compile {} = .ok gen ∧ gen.run 0 = some (p, k') ∧ (∀ t, ∃ d, p.deviceCode t = .ok d) ∧
      ∀ κ, p.Launches κ → κ.Deployable := by
  have hv : greatestRoots.validate = .ok () := rfl
  have hp : greatestRoots.Portable :=
    { body := by decide
      operators := List.forall_mem_singleton.2 ⟨by decide, ⟨by decide, by decide⟩, by decide⟩
      contributions := List.forall_mem_singleton.2 ⟨by decide, by decide⟩
      maps := fun m hm => absurd hm List.not_mem_nil }
  exact ⟨hv, hp, compile_deploys hv hp {} 0⟩

end Histogram

end GpuHistogram
