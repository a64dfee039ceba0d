/-
The body of the kernel that accumulates in local memory. `LocalLayout.Code` is the code of its phases as it is generated
(`localBody_spec`). Each phase sets new variables and names of the histogram's own and stores to the arrays of the kernel
(`Code.sets`, `Code.stores`), and it reads nothing but what can be captured (`Code.over`).
-/
import GpuHistogram.Proofs.Groups
import GpuHistogram.Proofs.Sweep

namespace GpuHistogram

open Machine

variable {f : Form} {L : LaunchSpec → List Stmt → Exec Unit} {c c' : Context} {s t u : State}

theorem Gen.bind_of {α β : Type} {x : Gen α} {F : α → Gen β} {a : α} {k k' : ℕ} (hx : x k = some (a, k')) :
    (x >>= F) k = F a k' := by
  change (x k).bind (fun r => F r.1 r.2) = _
  rw [hx]
  rfl

theorem Gen.lift_of {α : Type} {x : Fresh α} {a : α} {k k' : ℕ} (hx : x k = (a, k')) : (x : Gen α) k = some (a, k') :=
  congrArg some hx

namespace LocalLayout

variable {K : LocalLayout} {k k₀ k' j g n i l e : ℕ} {X A R : List Name} {h : Histogram} {M : Histogram.Meaning} {o : Options}
  {p : Plan} {m₁ : Memory} {mlen : ℕ → ℕ} {gm : ℕ → ℕ → Value} {q : Part × LocalPart} {x : Name}
  {prior : (q : Part) → ℕ → Tuple q.op.scalars}

/-! ## The code -/

/-- the code of the phases, with names from `j` up to `k'`; that for an element has those from `first` on -/
structure Code (K : LocalLayout) (h : Histogram) (j k' : ℕ) where
  init : List Stmt
  locks : List Stmt
  sweep : SweepNames
  index : Name
  updates : List Stmt
  compact : List Stmt
  publish : List Stmt
  first : ℕ
  last : ℕ
  inits : List.Forall₂ (K.IsLoop (fun q => K.shape.copies * q.1.subs.size) K.InitBody j k') K.parts init
  frees : K.FreesLocks j k' locks
  compacts : List.Forall₂ (K.IsLoop (fun q => q.1.subs.size) (K.CompactBody j k') j k') K.parts compact
  publishes : List.Forall₂ (K.IsLoop (fun q => q.1.subs.size) K.PublishBody j k') K.parts publish
  bucketed : Bucketed K.updating.update K.parts first updates last
  older : j ≤ first
  names : ∀ y ∈ [sweep.thread, sweep.k, sweep.e, sweep.chunk], y.Within j first
  nodup : [sweep.thread, sweep.k, sweep.e, sweep.chunk].Nodup
  indices : h.segmentDims.map (·.1) ++ [index] = h.indexNames

namespace Code

variable (C : K.Code h j k') (p : Plan)

/-- the code before the first barrier -/
def start : List Stmt := Plan.localStart K.ns K.shape ++ C.init ++ C.locks

/-- the code for the chunk of a thread -/
def chunk : List Stmt := p.sweep K.ns K.shape C.sweep (K.element p C.sweep C.index C.updates)

/-- the phases after the first -/
def rest : List (BarrierScope × List Stmt) := [(.shared, C.chunk p), (.shared, C.compact), (.device, C.publish)]

end Code

theorem sweepNames_create (k : ℕ) : ∃ sw : SweepNames, (SweepNames.create : Fresh _) k = (sw, k + 4) ∧
    [sw.thread, sw.k, sw.e, sw.chunk] = freshNames ["stid", "k", "e", "chunk"] k := ⟨_, rfl, rfl⟩

theorem localNames_create (k : ℕ) : ∃ ns : LocalNames, (LocalNames.create : Fresh _) k = (ns, k + 4) ∧
    ns.all = freshNames ["ltid", "gid", "seg_flat", "slot"] k := ⟨_, rfl, rfl⟩

theorem IsLoop.forall_mono {size : Part × LocalPart → Expr} {body body' : Part × LocalPart → Name → List Stmt → Prop}
    {parts : List (Part × LocalPart)} {stmts : List Stmt} {k₁ k₂ : ℕ} (hl : List.Forall₂ (K.IsLoop size body k₁ k₂) parts stmts)
    (hj : j ≤ k₁) (hk : k₂ ≤ k') (hb : ∀ q n b, body q n b → body' q n b) :
    List.Forall₂ (K.IsLoop size body' j k') parts stmts :=
  hl.imp fun q _ hx => hx.mono hj hk (hb q)

/-- **Generating the body.** Its phases are in order, with barriers between them. -/
theorem localBody_spec (hst : K.Stage p h M o R A X c k₀ k j g n mlen s)
    (hns : (LocalNames.create : Fresh _) k = (K.ns, j)) : ∃ (k' : ℕ) (C : K.Code h j k'), j ≤ k' ∧
    p.localBody K.shape K.table K.parts k = some (withBarriers C.start (C.rest p), k') := by
  have hnewer := hst.newer
  obtain ⟨init, k₁, hinit, hk₁, hinits⟩ := K.initCopies_spec K.parts j
  obtain ⟨locks, k₂, hlocks, hk₂, hfrees⟩ := K.initLocks_spec k₁
  obtain ⟨sw, hsw, hnames⟩ := sweepNames_create k₂
  obtain ⟨x, updates, k₃, helement, hb, hindices⟩ := Plan.elementBody_spec hst.plan.hist hst.regular hst.fits
    (.ofName K.ns.segment) (.ofName sw.e) (k₂ + 4)
  have hk₃ : k₂ + 4 ≤ k₃ := hb.le
  obtain ⟨compact, k₄, hcompact, hk₄, hcompacts⟩ := K.compactCopies_spec K.parts k₃ fun q hq =>
    ⟨(hst.regular.typed (hst.op_mem hq)).body, fun x hx => by
      have hx := (hst.locals (Histogram.Regular.mem_locals (hst.op_mem hq) (List.mem_append_right _ hx))).2
      exact hx.mono (by omega)⟩
  obtain ⟨publish, k₅, hpublish, hk₅, hpublishes⟩ := K.publishCopies_spec K.parts k₄ fun q hq =>
    ⟨hst.perSegment.arrays, (hst.fits q hq).part.size.arrays⟩
  refine ⟨k₅,
    { init
      locks
      sweep := sw
      index := x
      updates
      compact
      publish
      first := k₂ + 4
      last := k₃
      inits := IsLoop.forall_mono hinits (Nat.le_refl j) (by omega) fun _ _ _ hb => hb
      frees := ?_
      compacts := IsLoop.forall_mono hcompacts (by omega) hk₅ fun _ _ _ hb => hb.mono (by omega) hk₅
      publishes := IsLoop.forall_mono hpublishes (by omega) (Nat.le_refl _) fun _ _ _ hb => hb
      bucketed := hb
      older := by omega
      names := fun y hy => (within_freshNames (hnames ▸ hy)).mono (by omega) (Nat.le_refl _)
      nodup := hnames ▸ nodup_freshNames _ _
      indices := hindices }, by omega, ?_⟩
  · refine hfrees.imp_right ?_
    rintro ⟨tb, cn, htable, he, hc, hj, hne⟩
    exact ⟨tb, cn, htable, he, hc.mono hk₁ (by omega), hj.mono hk₁ (by omega), hne⟩
  · rw [K.update_eq] at helement
    unfold Plan.localBody
    rw [Gen.bind_of (Gen.lift_of hns), Gen.bind_of (Gen.lift_of hinit), Gen.bind_of (Gen.lift_of hlocks),
      Gen.bind_of (Gen.lift_of hsw), Gen.bind_of helement, Gen.bind_of (Gen.lift_of hcompact),
      Gen.bind_of (Gen.lift_of hpublish)]
    simp only [Code.start, Code.rest, Code.chunk, withBarriers, element, List.append_assoc, List.singleton_append]
    rfl

/-! ## What the code touches -/

section Loops

variable {size : Part × LocalPart → Expr} {body : Part × LocalPart → Name → List Stmt → Prop} {stmts : List Stmt}

theorem loops_sets (hl : List.Forall₂ (K.IsLoop size body j k') K.parts stmts) (hb : K.Confined h body j k') {y : Name}
    (hy : y ∈ blockSets stmts) : y.Within j k' ∨ y ∈ h.locals := by
  obtain ⟨x, hx, hy⟩ := mem_blockUses.1 hy
  obtain ⟨q, hq, hloop⟩ := exists_of_mem_right hl hx
  exact hloop.sets hb hq hy

theorem loops_stores (hl : List.Forall₂ (K.IsLoop size body j k') K.parts stmts) (hb : K.Confined h body j k') :
    blockStores stmts ⊆ K.written h := fun y hy => by
  obtain ⟨x, hx, hy⟩ := mem_blockUses.1 hy
  obtain ⟨q, hq, hloop⟩ := exists_of_mem_right hl hx
  exact own_subset hq (hloop.stores hb hq hy)

theorem loops_over {V Arr : Name → Prop} (hl : List.Forall₂ (K.IsLoop size body j k') K.parts stmts) (hthread : V K.ns.thread)
    (hsize : ∀ q ∈ K.parts, (size q).Over V Arr)
    (hbody : ∀ q ∈ K.parts, ∀ n b, body q n b → blockOver (fun m => m = n ∨ V m) Arr b) : blockOver V Arr stmts := by
  refine blockOver_of_forall fun x hx => ?_
  obtain ⟨q, hq, cn, b, rfl, -, -, -, -, hb⟩ := exists_of_mem_right hl hx
  refine groupLoop_over hthread (hsize q hq) (blockOver_mono (fun _ h => h) (hbody q hq _ _ hb) ?_)
  rintro m (hm | hm)
  · exact .inl hm
  · exact .inr (.inr hm)

end Loops

theorem uses_localStart (ns : LocalNames) (shape : LocalShape) : blockSets (Plan.localStart ns shape) = ns.all ∧
    blockStores (Plan.localStart ns shape) = [] ∧ blockBinders (Plan.localStart ns shape) = ns.all := by
  simp [Plan.localStart, blockSets, blockStores, Stmt.bind, Stmt.uses, Use.among, Stmt.binders, LocalNames.all]

namespace Code

variable (C : K.Code h j k') (hst : K.Stage p h M o R A X c k₀ k j g n mlen s)

theorem joined_eq (p : Plan) : joined C.start (C.rest p) = C.start ++ (C.chunk p ++ (C.compact ++ C.publish)) := by
  simp [joined, rest]

include hst

/-- the variables that the kernel sets are its own, new ones, and names of the histogram's own -/
theorem sets {y : Name} (hy : y ∈ blockSets (joined C.start (C.rest p))) (hyk : y.Before k) : y ∈ X := by
  have hnew {y : Name} {i i' : ℕ} (hy : y.Within i i') (hi : k ≤ i) (hyk : y.Before k) : y ∈ X :=
    absurd (hyk.mono hi) hy.not_before
  have hloop {y : Name} (hy : y.Within j k' ∨ y ∈ h.locals) (hyk : y.Before k) : y ∈ X :=
    hst.mem_of_before hy hyk
  rw [joined_eq, start] at hy
  simp only [blockSets, blockUses_append, List.mem_append] at hy
  rcases hy with ((hy | hy) | hy) | hy | hy | hy
  · rw [show blockUses .sets _ = _ from (uses_localStart K.ns K.shape).1] at hy
    exact hnew (hst.names y hy) (Nat.le_refl k) hyk
  · exact hloop (loops_sets C.inits initLoops_confined hy) hyk
  · exact hloop (.inl (C.frees.sets hy)) hyk
  · exact hst.mem_of_before (sweep_sets hst C.indices C.bucketed C.names hy (hyk.mono (hst.newer.trans C.older))) hyk
  · exact hloop (loops_sets C.compacts (compactLoops_confined hst) hy) hyk
  · exact hloop (loops_sets C.publishes (publishLoops_confined hst) hy) hyk

/-- the kernel stores to its arrays only -/
theorem stores : blockStores (joined C.start (C.rest p)) ⊆ K.written h := by
  have hlocks : lockNames K.table ⊆ K.written h := fun x hx => List.mem_append_left _ (List.mem_append_right _ hx)
  rw [joined_eq, start]
  simp only [blockStores, blockUses_append]
  rw [show blockUses .stores (Plan.localStart K.ns K.shape) = _ from (uses_localStart K.ns K.shape).2.1, List.nil_append]
  refine List.append_subset.2 ⟨List.append_subset.2 ⟨loops_stores C.inits initLoops_confined,
    List.Subset.trans C.frees.stores hlocks⟩, List.append_subset.2 ⟨?_, List.append_subset.2
    ⟨loops_stores C.compacts (compactLoops_confined hst), loops_stores C.publishes (publishLoops_confined hst)⟩⟩⟩
  exact sweep_stores hst C.bucketed

end Code

/-! ## What the code reads -/

section Over

variable {V Arr : Name → Prop}

theorem own_over (hArr : ∀ x ∈ K.written h, Arr x) (hq : q ∈ K.parts) :
    (∀ a ∈ q.1.localArrays q.2.blocks, Arr a.1) ∧ ∀ a ∈ q.1.subs.arrays, Arr a.1 :=
  ⟨fun _ ha => hArr _ (own_subset hq (List.mem_append_left _ (localArrays_subset q (List.mem_map_of_mem ha)))),
    fun _ ha => hArr _ (own_subset hq (List.mem_append_right _ (subArrays_subset q (List.mem_map_of_mem ha))))⟩

variable (hst : K.Stage p h M o R A X c k₀ k j g n mlen s) (hV : ∀ x, Visible k X s x → V x)
include hst hV

theorem compactBody_over (hArr : ∀ x ∈ K.written h, Arr x) (hA : ∀ x ∈ A, Arr x) (hq : q ∈ K.parts) {m : Name}
    {b : List Stmt} (hb : K.CompactBody j k' q m b) : blockOver (fun x => x = m ∨ V x) Arr b := by
  obtain ⟨sn, accs, rfl, hlen, -, -⟩ := hb
  obtain ⟨hblocks, -, hss⟩ := hst.lengths hq
  have hquantity {e : Expr} {a : ℕ} {U : Name → Prop} (he : Quantity k X s e a) (hU : ∀ x, V x → U x) : e.Over U Arr :=
    he.scope.mono (fun x hx => hU x (hV x hx)) fun _ h => h.elim
  have hm {U : Name → Prop} (hU : U m) : (Expr.ofName m).Over U Arr := over_ofName.2 hU
  have harr := own_over hArr hq
  have haccs : accs.length = q.1.op.scalars.length := by rw [hlen, hblocks, ← hss, List.length_map]
  obtain ⟨hcombine, hbinders⟩ := combineCopies_over (V := fun x => x = m ∨ V x) (n := sn) .shared
    (hst.regular.typed (hst.op_mem hq)) (hst.localArrays hq).2 haccs harr.1
    (hm (.inl rfl)) (over_add.2 ⟨over_mul.2 ⟨over_ofName.2 (.inl rfl), hquantity (hst.fits q hq).part.size
      fun _ h => .inr (.inr h)⟩, hm (.inr (.inl rfl))⟩) (hquantity hst.slots fun _ => .inr)
    fun e he => (hst.scope.results_over hst.regular (hst.op_mem hq) hA e he).mono (fun x => Or.imp_right fun hx => .inr (hV x hx))
      fun _ h => h
  rw [Part.compactElement_eq, hss, blockOver_append]
  refine ⟨hcombine, stores_over harr.1 (hm (.inr (.inl rfl))) fun e he => ?_⟩
  obtain ⟨a, ha, rfl⟩ := List.mem_map.1 he
  exact over_scalarVar.2 (.inl (hbinders (List.of_mem_zip ha).1))

theorem published_over (hns : ∀ x ∈ K.ns.all, V x) (hq : q ∈ K.parts) {idx : Expr} {U : Name → Prop}
    (hU : ∀ x, V x → U x) (hidx : idx.Over U Arr) : (q.1.publishedIndex K.ns K.shape idx).Over U Arr := by
  have hquantity {e : Expr} {a : ℕ} (he : Quantity k X s e a) : e.Over U Arr :=
    he.scope.mono (fun x hx => hU x (hV x hx)) fun _ h => h.elim
  have hname {x : Name} (hx : x ∈ K.ns.all) : (Expr.ofName x).Over U Arr := over_ofName.2 (hU x (hns x hx))
  refine flatIndex_over fun x hx => ?_
  simp only [List.mem_cons, List.not_mem_nil, or_false] at hx
  rcases hx with rfl | rfl | rfl
  · exact ⟨hname (by simp [LocalNames.all]), over_numeral⟩
  · exact ⟨hname (by simp [LocalNames.all]), hquantity hst.perSegment⟩
  · exact ⟨hidx, hquantity (hst.fits q hq).part.size⟩

variable (hns : ∀ x ∈ K.ns.all, V x) (hArr : ∀ x ∈ K.written h, Arr x)
include hns hArr

theorem publishBody_over (hq : q ∈ K.parts) {m : Name} {b : List Stmt} (hb : K.PublishBody q m b) :
    blockOver (fun x => x = m ∨ V x) Arr b := by
  have hm : (Expr.ofName m).Over (fun x => x = m ∨ V x) Arr := over_ofName.2 (.inl rfl)
  have harr := own_over hArr hq
  rw [hb]
  refine stores_over harr.2 (published_over hst hV hns hq (fun _ => .inr) hm) fun e he => ?_
  obtain ⟨a, ha, rfl⟩ := List.mem_map.1 he
  exact over_element.2 ⟨harr.1 a ha, hm⟩

variable (hA : ∀ x ∈ A, Arr x)
include hA

theorem initBody_over (hq : q ∈ K.parts) {m : Name} {b : List Stmt} (hb : K.InitBody q m b) :
    blockOver (fun x => x = m ∨ V x) Arr b := by
  have hm : (Expr.ofName m).Over (fun x => x = m ∨ V x) Arr := over_ofName.2 (.inl rfl)
  have harr := own_over hArr hq
  rw [hb, Part.initElement, blockOver_cons]
  refine ⟨?_, blockOver_nil⟩
  rw [Stmt.Over]
  refine ⟨over_lt.2 ⟨hm, ?_⟩, stores_over harr.1 hm fun e he => ?_, stores_over harr.1 hm fun e he => ?_⟩
  · exact (hst.fits q hq).part.size.scope.mono (fun x hx => .inr (hV x hx)) fun _ h => h.elim
  · obtain ⟨a, ha, rfl⟩ := List.mem_map.1 he
    exact over_element.2 ⟨harr.2 a ha, published_over hst hV hns hq (fun _ => .inr) hm⟩
  · rw [(hst.fits q hq).part.neutral] at he
    exact (hst.regular.readsNeutral _ (hst.op_mem hq) e he).2.mono (fun x hx => .inr (hV x (hst.scope.reads x hx))) hA

theorem element_over {C : K.Code h j k'} {U : Name → Prop} (hU : ∀ x, V x → U x) (he : U C.sweep.e) :
    blockOver U Arr (K.element p C.sweep C.index C.updates) := by
  have hquantity {e : Expr} {a : ℕ} (he : Quantity k X s e a) : e.Over U Arr :=
    he.scope.mono (fun x hx => hU x (hV x hx)) fun _ h => h.elim
  refine Plan.elementBody_over (fun e he => ?_) (hquantity hst.plan.elements) hst.plan.hist (hst.indexNames C.indices)
    hst.regular hst.scope C.bucketed hst.fits (fun x hx => hU x (hV x hx)) hA
    (fun x hx => hArr x (List.mem_append_left _ (List.mem_append_left _ hx)))
    (fun q hq x hx => hArr x (own_subset hq (List.mem_append_left _ hx)))
    (fun q _ => over_ofName.2 (hU _ (hns _ (by simp [LocalNames.all])))) (fun t ht => ⟨?_, ?_⟩)
    (over_ofName.2 (hU _ (hns _ (by simp [LocalNames.all])))) (over_ofName.2 he)
  · obtain ⟨x, hx⟩ := List.mem_iff_getElem?.1 he
    have hlt := (List.getElem?_eq_some_iff.1 hx).1
    have hq := hst.plan.sizes.get hlt (hst.plan.sizes.length_eq ▸ hlt)
    rw [List.get_eq_getElem, (List.getElem?_eq_some_iff.1 hx).2] at hq
    exact hquantity hq
  · exact hArr _ (List.mem_append_left _ (List.mem_append_right _ (by simp [lockNames, ht])))
  · rw [(hst.locks t ht).1]
    trivial

/-- the phases after the definitions at the start -/
theorem phases_over (C : K.Code h j k') : ∀ l ∈ [C.init, C.locks, C.chunk p, C.compact, C.publish], blockOver V Arr l := by
  have hthread : V K.ns.thread := hns _ (by simp [LocalNames.all])
  have hquantity {e : Expr} {a : ℕ} {U : Name → Prop} (he : Quantity k X s e a) (hU : ∀ x, V x → U x) : e.Over U Arr :=
    he.scope.mono (fun x hx => hU x (hV x hx)) fun _ h => h.elim
  have hsize : ∀ q ∈ K.parts, q.1.subs.size.Over V Arr := fun q hq => hquantity (hst.fits q hq).part.size fun _ h => h
  intro l hl
  simp only [List.mem_cons, List.not_mem_nil, or_false] at hl
  rcases hl with rfl | rfl | rfl | rfl | rfl
  · exact loops_over C.inits hthread (fun q hq => over_mul.2 ⟨hquantity hst.slots fun _ h => h, hsize q hq⟩)
      fun q hq m b hb => initBody_over hst hV hns hArr hA hq hb
  · obtain ⟨-, he⟩ | ⟨tb, cn, htable, he, -, -, -⟩ := C.frees
    · rw [he]
      exact blockOver_nil
    · rw [he, blockOver_cons]
      refine ⟨groupLoop_over hthread trivial ?_, blockOver_nil⟩
      rw [blockOver_cons, over_store, over_element, over_ofName]
      exact ⟨⟨⟨hArr _ (List.mem_append_left _ (List.mem_append_right _ (by simp [lockNames, htable]))), .inl rfl⟩,
        over_literal⟩, blockOver_nil⟩
  · have hP {U : Name → Prop} (hU : ∀ x, V x → U x) := hquantity (U := U) hst.perSegment hU
    have hE {U : Name → Prop} (hU : ∀ x, V x → U x) := hquantity (U := U) hst.plan.elements hU
    have hgroup : V K.ns.group := hns _ (by simp [LocalNames.all])
    unfold Code.chunk Plan.sweep
    rw [blockOver_cons, over_bind, binders_bind, blockOver_cons, over_bind, binders_bind, blockOver_cons]
    refine ⟨over_add.2 ⟨over_mul.2 ⟨over_ofName.2 hgroup, trivial⟩, over_ofName.2 hthread⟩,
      over_div.2 ⟨⟨over_add.2 ⟨hE fun _ => .inr, hP fun _ => .inr, trivial⟩, trivial⟩, hP fun _ => .inr, trivial⟩,
      over_count over_numeral (over_ofName.2 (.inl (by simp))) ?_, blockOver_nil⟩
    rw [blockOver_cons, over_bind, binders_bind, blockOver_cons, over_ifThen, over_lt]
    refine ⟨?_, ⟨⟨over_ofName.2 (.inl (by simp)), hE fun _ h => .inr (.inr (.inr (.inr h)))⟩,
      element_over hst hV hns hArr hA (fun _ h => .inr (.inr (.inr (.inr h)))) (.inl (by simp))⟩, blockOver_nil⟩
    exact over_add.2 ⟨over_mul.2 ⟨over_ofName.2 (.inr (.inr (.inl (by simp)))), over_ofName.2 (.inr (.inl (by simp)))⟩,
      over_ofName.2 (.inl rfl)⟩
  · exact loops_over C.compacts hthread hsize fun q hq m b hb => compactBody_over hst hV hArr hA hq hb
  · exact loops_over C.publishes hthread hsize fun q hq m b hb => publishBody_over hst hV hns hArr hq hb

end Over

/-- **The body.** It reads the variables of the host and its own, and the arrays of the kernel and those that a histogram
reads. -/
theorem Code.over {V Arr : Name → Prop} (C : K.Code h j k') (hst : K.Stage p h M o R A X c k₀ k j g n mlen s)
    (hV : ∀ x, Visible k X s x → V x) (hArr : ∀ x ∈ K.written h, Arr x) (hA : ∀ x ∈ A, Arr x) :
    blockOver V Arr (joined C.start (C.rest p)) := by
  have hphases := phases_over (V := fun x => x ∈ K.ns.all ∨ V x) hst (fun x hx => .inr (hV x hx)) (fun _ => .inl) hArr hA C
  have happend {l l' : List Stmt} (hl : blockOver (fun x => x ∈ K.ns.all ∨ V x) Arr l)
      (hl' : blockOver (fun x => x ∈ K.ns.all ∨ V x) Arr l') : blockOver (fun x => x ∈ K.ns.all ∨ V x) Arr (l ++ l') :=
    blockOver_append.2 ⟨hl, blockOver_mono (fun _ h => h) hl' fun _ => .inr⟩
  have hquantity {e : Expr} {a : ℕ} {U : Name → Prop} (he : Quantity k X s e a) (hU : ∀ x, V x → U x) : e.Over U Arr :=
    he.scope.mono (fun x hx => hU x (hV x hx)) fun _ h => h.elim
  rw [joined_eq, start, List.append_assoc, List.append_assoc, blockOver_append, (uses_localStart K.ns K.shape).2.2]
  refine ⟨?_, happend (hphases _ (by simp)) (happend (hphases _ (by simp)) (happend (hphases _ (by simp))
    (happend (hphases _ (by simp)) (hphases _ (by simp)))))⟩
  simp only [Plan.localStart, blockOver_cons, blockOver_nil, over_bind, binders_bind, over_mod, over_div, over_ofName, and_true]
  exact ⟨trivial, ⟨trivial, hquantity hst.perSegment fun _ => .inr⟩,
    ⟨trivial, hquantity hst.perSegment fun _ h => .inr (.inr h)⟩, by simp, hquantity hst.slots fun _ h => .inr (.inr (.inr h))⟩

end LocalLayout

end GpuHistogram
