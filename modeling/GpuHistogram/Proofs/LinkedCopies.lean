/-
Arrays of copies in two linked programs: how they are made, combined into the destinations and freed. Where the first
program knows the number of copies, folding decides in it whether there is anything to combine; the second program decides
the same when it runs (`allocate_tracks`, `finish_tracks`).
-/
import GpuHistogram.Proofs.LinkedUpdates

namespace GpuHistogram

open Machine

namespace Machine

/-! ## Code without barriers at its top -/

namespace Flat

variable {l l' : List Stmt} {x y : Stmt} {n : Name} {e : Expr}

theorem nil : Flat [] := fun _ hx => absurd hx (by rw [foldBlock]; exact List.not_mem_nil)

theorem append (h : Flat l) (h' : Flat l') : Flat (l ++ l') := by
  unfold Flat
  rw [foldBlock_append]
  exact List.forall_mem_append.2 ⟨h, h'⟩

theorem cons (h : Flat [x]) (h' : Flat l) : Flat (x :: l) := append (l := [x]) h h'

theorem single (hx : foldBlock [x] = [y]) (hy : isBarrier y = false) : Flat [x] := by
  unfold Flat
  rw [hx]
  exact List.forall_mem_singleton.2 hy

theorem map {α : Type} {f : α → Stmt} (h : ∀ a, Flat [f a]) (as : List α) : Flat (as.map f) := by
  induction as with
  | nil => exact nil
  | cons a as ih => exact cons (h a) ih

theorem bind (n : Name) (e : Expr) : Flat [.bind n e] := single (Form.folded.block_define ..) rfl

theorem count (n : Name) (e b : Expr) (l : List Stmt) : Flat [.count n e b l] := single (Form.folded.block_forLoop ..) rfl

theorem ifThen (h : e.fold.isTruth = false) (l : List Stmt) : Flat [.ifThen e l] := single (Form.folded.block_ifElse h ..) rfl

end Flat

namespace Link

variable {H : Hosts} {K L M : Link H} {n m : Name} {e e' i i' j j' l l' r r' c c' : Expr} {sc : Scalar} {sp : Space} {p q : Plan}
  {x y : Part} {h : Histogram} {body body' : List Stmt} {P : Int → Prop}

/-! ## Sizes of arrays -/

theorem SameNumber.ceilDiv (hl : L.SameNumber l l') (hr : L.SameNumber r r') : L.SameNumber (.ceilDiv l r) (.ceilDiv l' r') :=
  ((hl.op2 .add rfl hr nofun).op2 .sub rfl (.literal (k := 1) rfl) nofun).op2 .div rfl hr nofun

/-! ## Elements of arrays -/

/-- the same elements of corresponding arrays -/
inductive SameElement (L : Link H) : Expr → Expr → Prop
  | mk {n m : Name} {i i' : Expr} (hr : L.rel n m) (hi : L.Same i i') (sc : Scalar) (sp : Space) :
    SameElement L (.element n sc sp i) (.element m sc sp i')

theorem SameElement.open (he : L.SameElement e e') : L.SameOpen e e' := by
  cases he with
  | mk hr hi sc sp => exact sameOpen_element hr hi sc sp

theorem SameCode.storeTo (he : L.SameElement e e') (hi : L.Same i i') : L.SameCode [.store e i] [.store e' i'] := by
  cases he with
  | mk hr hidx sc sp => exact .storeElement hidx hi hr

/-- a value is bound to a variable that need not hold 64-bit numbers -/
theorem SameCode.bindOpen (he : L.SameOpen e e') (hn : L.SameVar n m) : L.SameCode [.bind n e] [.bind m e'] :=
  .bind he.same he.ty hn.1 fun hw => absurd hw hn.2

/-- elements are stored one by one -/
theorem stores_same {ds ds' es es' : List Expr} (hd : List.Forall₂ L.SameElement ds ds') (he : List.Forall₂ L.Same es es') :
    L.SameCode (Part.stores ds es) (Part.stores ds' es') :=
  .map ((forall₂_zip hd he).imp fun _ _ h => .storeTo h.1 h.2)

/-- elements are bound to variables one by one -/
theorem binds_same {ns ms : List Name} {es es' : List Expr} (hn : List.Forall₂ L.SameVar ns ms)
    (he : List.Forall₂ L.SameElement es es') :
    L.SameCode ((ns.zip es).map fun (n, e) => .bind n e) ((ms.zip es').map fun (n, e) => .bind n e) :=
  .map ((forall₂_zip hn he).imp fun _ _ h => .bindOpen h.2.open h.1)

/-- variables with the types of destinations -/
theorem accumulators_open {ns ms : List Name} (hn : List.Forall₂ L.SameVar ns ms) (dests : List Destination) :
    List.Forall₂ L.SameOpen ((ns.zip dests).map fun (n, d) => .scalarVar n d.elem)
      ((ms.zip dests).map fun (n, d) => .scalarVar n d.elem) := by
  rw [List.forall₂_map_left_iff, List.forall₂_map_right_iff]
  refine (forall₂_zip hn (forall₂_eq dests)).imp ?_
  rintro ⟨n, d⟩ ⟨m, _⟩ ⟨hn, rfl⟩
  exact sameOpen_var hn.1 d.elem

/-- the arrays under corresponding names, with the types of the destinations -/
theorem elements_same {ns ms : List Name} (hn : List.Forall₂ L.rel ns ms) (dests : List Destination) (hi : L.Same i i') :
    List.Forall₂ L.SameElement (((ns.zip dests).map fun (n, d) => (n, d.elem)).map fun a => .element a.1 a.2 sp i)
      (((ms.zip dests).map fun (n, d) => (n, d.elem)).map fun a => .element a.1 a.2 sp i') := by
  rw [List.map_map, List.map_map, List.forall₂_map_left_iff, List.forall₂_map_right_iff]
  refine (forall₂_zip hn (forall₂_eq dests)).imp ?_
  rintro ⟨n, d⟩ ⟨m, _⟩ ⟨hn, rfl⟩
  exact .mk hn hi d.elem sp

namespace SamePart

theorem subAccesses (hx : L.SamePart x y) (hi : L.Same i i') :
    List.Forall₂ L.SameElement (x.subs.subAccesses i) (y.subs.subAccesses i') := by
  unfold Subhistograms.subAccesses Subhistograms.arrays
  rw [hx.dests, hx.dests']
  exact elements_same hx.subs _ hi

theorem destAccesses (hx : L.SamePart x y) (hi : L.Same i i') :
    List.Forall₂ L.SameElement (x.subs.destAccesses i) (y.subs.destAccesses i') := by
  unfold Subhistograms.destAccesses
  rw [hx.dests, hx.dests', List.forall₂_map_left_iff, List.forall₂_map_right_iff, List.forall₂_same]
  exact fun d hd => .mk (L.shared (hx.operatorNames.dests d hd)) hi d.elem .device

/-! ## Making copies -/

variable (hx : L.SamePart x y) (hc : L.Loose (0 < ·) c c')

include hx

theorem aliases : L.SameHost x.subs.aliases y.subs.aliases := by
  unfold Subhistograms.aliases
  rw [hx.dests, hx.dests']
  refine .map ((forall₂_zip hx.subs (forall₂_diagonal hx.operatorNames.dests)).imp ?_)
  rintro ⟨n, d⟩ ⟨m, _⟩ ⟨hn, rfl, hd⟩
  exact .rebind hn (L.shared hd)

include hc

theorem allocation (hn : L.SameWord n m) {a b : Name} (hab : L.rel a b) {d : Destination} (hd : H.Shared d.name)
    (he : H.SharedExpr e) : L.SameHost (x.subs.allocation c n a d e) (y.subs.allocation c' m b d e) := by
  have htotal := (hx.segments.sameSize.mul hc.sameSize).mul hx.size.sameSize
  have hsub := (hn.index.sameSize.mul hc.sameSize).mul hx.size.sameSize
  have hdest := hn.index.sameSize.mul hx.size.sameSize
  refine .cons (.alloc htotal.number.same hab) (.cons ?_ ?_)
  · exact .fill (same_shared sharedExpr_int) htotal.number.same (same_shared he) hab
  · exact .count (same_shared sharedExpr_int) hx.segments.number hn.1 hn.2
      (.copy hsub.number.same hdest.number.same hx.size.number.same hab (L.shared hd))

theorem allocate (hn : L.SameWord n m) : L.SameHost [x.subs.allocate c n] [y.subs.allocate c' m] := by
  refine .ifElse (hc.number.compare .eq rfl (.literal (k := 1) rfl)) hx.aliases (.flatMap ?_)
  rw [hx.dests, hx.dests', hx.neutral, hx.neutral']
  refine (forall₂_zip (forall₂_zip hx.subs (forall₂_diagonal hx.operatorNames.dests))
    (forall₂_diagonal hx.operatorNames.neutral)).imp ?_
  rintro ⟨⟨a, d⟩, e⟩ ⟨⟨b, _⟩, _⟩ ⟨⟨hab, rfl, hd⟩, rfl, he⟩
  exact hx.allocation hc hn hab hd he

theorem release : L.SameHost [x.subs.release c] [y.subs.release c'] :=
  .ifThen (hc.number.compare .ne rfl (.literal (k := 1) rfl)) (.map (hx.subs.imp fun _ _ => .free))

end SamePart

/-- operators with their numbers of copies -/
def SameCount (L : Link H) (a b : Part × Expr) : Prop := L.SamePart a.1 b.1 ∧ L.Loose (0 < ·) a.2 b.2

theorem SameCount.mono {a b : Part × Expr} (h : L ≤ M) (hab : L.SameCount a b) : M.SameCount a b :=
  ⟨hab.1.mono h, hab.2.mono h⟩

/-- the copies of all operators are made alike -/
theorem allocate_tracks {as bs : List (Part × Expr)} (h : List.Forall₂ L.SameCount as bs) :
    L.Tracks (Plan.allocate as) (Plan.allocate bs) fun _ _ _ => True := by
  suffices hall : ∀ M, L ≤ M → M.Tracks (Plan.allocate as) (Plan.allocate bs) fun _ _ _ => True from hall L le_rfl
  induction h with
  | nil => exact fun M _ => .pure trivial
  | @cons a b as bs hab _ ih =>
    intro M hM
    refine .bind (.lift (.liftBind (freshWord "seg") fun N n m hN hn => .liftPure
      (P := fun N s s' => N.SameHost [s] [s']) ?_)) fun N s s' hN hs => ?_
    · exact (hab.1.mono (hM.trans hN)).allocate (hab.2.mono (hM.trans hN)) hn
    · exact .bind (.stmt hs) fun O _ _ hO _ => ih O (hM.trans (hN.trans hO))

/-! ## Combining copies -/

/-- the variables of a merge -/
structure SameMergeNames (L : Link H) (ns ns' : MergeNames) : Prop where
  thread : L.SameWord ns.thread ns'.thread
  segment : L.SameWord ns.segment ns'.segment
  j : L.SameWord ns.j ns'.j
  s : L.SameWord ns.s ns'.s
  accs : List.Forall₂ L.SameVar ns.accs ns'.accs

theorem mergeNames_draws (dests : List Destination) :
    L.Draws (MergeNames.create dests : Gen MergeNames) (MergeNames.create dests : Gen MergeNames) SameMergeNames :=
  .liftWords _ _ fun _ _ _ _ _ _ h₁ h₂ => .liftWords _ _ fun _ _ _ _ _ hM h₃ h₄ =>
    .liftBind (.liftMapM (forall₂_eq dests) (Q := SameVar) (fun h => .mono h) fun _ _ _ _ heq => heq ▸ freshVar _)
      fun _ _ _ hN h₅ => .liftPure
        { thread := h₁.mono (hM.trans hN)
          segment := h₂.mono (hM.trans hN)
          j := h₃.mono hN
          s := h₄.mono hN
          accs := h₅ }

theorem SameWord.element (hn : L.SameWord n m) (hs : L.SameSize i i') (hr : L.SameIndex r r') :
    L.SameIndex (.ofName n * i + r) (.ofName m * i' + r') := hn.index.step hs hr

/-- the place of an element in the first copy of a segment -/
theorem SameWord.first (hn : L.SameWord n m) (hc : L.Loose (0 < ·) c c') : L.SameIndex (.ofName n * c + 0) (.ofName m * c' + 0) where
  number := (hn.index.sameSize.mul hc.sameSize).number.op2 .add rfl (.literal (k := 0) rfl) nofun
  unknown := by
    refine Option.eq_none_iff_forall_ne_some.2 fun v hv => ?_
    obtain ⟨a, b, ha, -, -⟩ := Expr.constant?_add hv
    rcases Expr.constant?_mul ha with ⟨a, b, ha, -, -⟩ | ⟨-, ha | hb⟩
    · cases ha
    · cases ha
    · exact absurd (hc.known hb) (by decide)
  unknown' := by
    refine Option.eq_none_iff_forall_ne_some.2 fun v hv => ?_
    obtain ⟨a, b, ha, -, -⟩ := Expr.constant?_add hv
    rcases Expr.constant?_mul ha with ⟨a, b, ha, -, -⟩ | ⟨-, ha | hb⟩
    · cases ha
    · cases ha
    · cases hc.unknown.symm.trans hb

variable {ns ns' : MergeNames}

theorem mergeElement_same (hx : L.SamePart x y) (hc : L.Loose (0 < ·) c c') (hns : L.SameMergeNames ns ns') :
    L.SameCode (x.subs.mergeElement x.op.combiner ns c) (y.subs.mergeElement y.op.combiner ns' c') := by
  have hsize := hx.size.sameSize
  have hsub {k k' : Expr} (hk : L.SameIndex (.ofName ns.segment * c + k) (.ofName ns'.segment * c' + k')) :=
    hx.subAccesses (hk.step hsize hns.j.index).number.same
  have hdest := hx.destAccesses (hns.segment.element hsize hns.j.index).number.same
  have haccs : List.Forall₂ L.SameOpen (x.subs.accumulators ns) (y.subs.accumulators ns') := by
    unfold Subhistograms.accumulators
    rw [hx.dests, hx.dests']
    exact accumulators_open hns.accs _
  have hargs := List.rel_append haccs ((hsub (hns.segment.element hc.sameSize hns.s.index)).imp fun _ _ h => h.open)
  unfold Subhistograms.mergeElement
  rw [hx.op]
  refine (((SameCode.cons ?_ ?_).append (binds_same hns.accs (hsub (hns.segment.first hc)))).append ?_).append
    (stores_same hdest (haccs.imp fun _ _ h => h.same))
  · exact .bindNumber (hns.thread.number.op2 .div rfl hsize.number nofun) hns.segment.1
  · exact .bindNumber (hns.thread.number.op2 .rem rfl hsize.number nofun) hns.j.1
  · exact .count (same_shared sharedExpr_int) hc.number hns.s.1 hns.s.2
      (.apply (sharedCombiner hx.operatorNames) hargs hns.accs)

theorem mergeBody_same (hx : L.SamePart x y) (hc : L.Loose (0 < ·) c c') (hns : L.SameMergeNames ns ns') :
    L.SameBody (x.subs.mergeBody x.op.combiner ns c) (y.subs.mergeBody y.op.combiner ns' c') := by
  have htotal := hx.segments.sameSize.mul hx.size.sameSize
  have hopen (n : Name) (e : Expr) : ((Expr.ofName n).lt e).fold.isTruth = false := isTruth_fold_compare rfl rfl _
  refine .last (.cons (.bindNumber (.place .globalId .x) hns.thread.1) ?_) ?_ ?_
  · exact .ifLess hns.thread htotal.number (mergeElement_same hx hc hns) .nil
  · exact .cons (.bind _ _) (.ifThen (hopen _ _) _)
  · exact .cons (.bind _ _) (.ifThen (hopen _ _) _)

/-- kernels over a grid of one axis -/
theorem kernel_draws (hp : L.SamePlan h p q) (name stage : String) (hbody : L.SameBody body body') {blocks blocks' : List LocalBlock}
    (hblocks : List.Forall₂ L.SameLocal blocks blocks') (hgroups : L.Same e e') :
    L.Draws (p.kernel name stage body blocks e : Gen Kernel) (q.kernel name stage body' blocks' e' : Gen Kernel) SameKernel := by
  have htext : (p.hist.name ++ name) = q.hist.name ++ name := by rw [hp.hist, hp.hist']
  intro j k a b j' k' hb hx hy
  cases hx
  cases hy
  obtain ⟨M, hM, hb, -⟩ := exists_pair hb (p.hist.name ++ name) (q.hist.name ++ name) False
  exact ⟨M, hM, hb,
    { name := htext
      body := hbody.mono hM.le
      captures := rfl
      captures' := rfl
      blocks := hblocks.imp fun _ _ => .mono hM.le
      groups := .cons (hgroups.mono hM.le) .nil
      groupSize := .cons (hp.groupSize.number.same.mono hM.le) .nil }⟩

/-- the launch that combines the copies of one operator, if there are several -/
theorem merge_draws (hp : L.SamePlan h p q) (hx : L.SamePart x y) (hc : L.Loose (0 < ·) c c') :
    L.Draws (p.merge x c : Gen Stmt) (q.merge y c' : Gen Stmt) fun M s s' => M.SameHost [s] [s'] := by
  unfold Plan.merge
  rw [hx.dests, hx.dests']
  refine .liftBind (mergeNames_draws _) fun M ns ns' hM hns => ?_
  have hp := hp.mono hM
  have hx := hx.mono hM
  have hgroups := (hx.segments.sameSize.mul hx.size.sameSize).number.ceilDiv hp.groupSize.number
  refine .liftBind (kernel_draws hp _ _ (mergeBody_same hx (hc.mono hM) hns) .nil hgroups.same) fun N k k' hN hk => .liftPure ?_
  exact .ifThen ((hc.mono (hM.trans hN)).number.compare .ne rfl (.literal (k := 1) rfl)) (.launch hk)

/-- **Results.** The copies of all operators are combined and freed alike. -/
theorem finish_tracks (hp : L.SamePlan h p q) {as bs : List (Part × Expr)} (hab : List.Forall₂ L.SameCount as bs) :
    L.Tracks (p.finish as) (q.finish bs) fun _ _ _ => True := by
  suffices hall : ∀ M, L ≤ M → M.Tracks (p.finish as) (q.finish bs) fun _ _ _ => True from hall L le_rfl
  induction hab with
  | nil => exact fun M _ => .pure trivial
  | @cons a b as bs hab _ ih =>
    intro M hM
    refine .bind (.lift (merge_draws (hp.mono hM) (hab.1.mono hM) (hab.2.mono hM))) fun N s s' hN hs => ?_
    refine .bind (.stmt hs) fun O _ _ hO _ => ?_
    have hab := hab.mono (hM.trans (hN.trans hO))
    exact .bind (.stmt (hab.1.release hab.2)) fun O' _ _ hO' _ => ih O' (hM.trans (hN.trans (hO.trans hO')))

end Link

end Machine

end GpuHistogram
