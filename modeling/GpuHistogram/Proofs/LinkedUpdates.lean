/-
The code for one element in two linked programs. Both programs draw the names of this code one by one, from supplies of
their own, and put the same statements together; so the generators give code that is the same on every thread
(`element_draws`). What the histogram itself says, its body and its values, has shared names. Places in arrays are sums and
products that folding leaves open in both programs, as they start from variables (`SameIndex`).
-/
import GpuHistogram.Proofs.LinkedSizes

namespace GpuHistogram

open Machine

namespace Machine.Link

variable {H : Hosts} {K L M : Link H} {n m : Name} {e e' i i' l l' r r' addr addr' : Expr} {o : Origin} {sc : Scalar} {sp : Space}
  {body body' : List Stmt} {op : Operator}

theorem isTruth_fold_compare {op : Binary} (hop : op.isComparison = true) (h : l.constant? = none) (r : Expr) :
    (Expr.op2 op l r).fold.isTruth = false := by
  rw [fold_compare hop h]
  rfl

/-! ## Places -/

/-- the same number, which folding leaves open in both programs -/
structure SameIndex (L : Link H) (e e' : Expr) : Prop where
  number : L.SameNumber e e'
  unknown : e.constant? = none
  unknown' : e'.constant? = none

namespace SameIndex

theorem mono (h : L ≤ M) (he : L.SameIndex e e') : M.SameIndex e e' := ⟨he.number.mono h, he.unknown, he.unknown'⟩

theorem ofName (hr : L.rel n m) (hw : L.word n) : L.SameIndex (.ofName n) (.ofName m) := ⟨.ofName hr hw, rfl, rfl⟩

theorem zeros (he : L.SameIndex e e') : Zeros e e' := fun h => by cases he.unknown.symm.trans h

theorem zeros' (he : L.SameIndex e e') : Zeros e' e := fun h => by cases he.unknown'.symm.trans h

theorem sameSize (he : L.SameIndex e e') : L.SameSize e e' := ⟨he.number, he.zeros⟩

/-- the number of a place in one dimension more -/
theorem step (he : L.SameIndex e e') (hi : L.SameSize i i') (hr : L.SameIndex r r') : L.SameIndex (e * i + r) (e' * i' + r') where
  number := (he.sameSize.mul hi).number.op2 .add rfl hr.number nofun
  unknown := Expr.constant?_op2_open .add rfl nofun (.inr hr.unknown)
  unknown' := Expr.constant?_op2_open .add rfl nofun (.inr hr.unknown')

/-- the number of a place, the last index of which the histogram names -/
theorem last (he : L.SameIndex e e') (hi : L.Fixed i i') (hr : H.SharedExpr r) (hopen : r = 0 ∨ r.constant? = none) :
    L.Same (e * i + r) (e' * i' + r) :=
  have hproduct := he.sameSize.mul hi.sameSize
  hproduct.number.add_shared hproduct.zeros (he.zeros'.mul (zeros_of_eq hi.strict.twins.constant?.symm) he.number.ty) hr hopen

end SameIndex

/-! ## Indices -/

/-- a loop over indices that the histogram names -/
theorem SameCode.countShared (hn : H.Shared n) (he : H.SharedExpr e) (h : L.SameCode body body') :
    L.SameCode [.count n 0 e body] [.count n 0 e body'] := by
  have hvar : H.SharedExpr (.ofName n) := sharedExpr_var.2 hn
  exact .forLoop (same_shared sharedExpr_int) (same_shared (sharedExpr_binary.2 ⟨hvar, he⟩))
    (same_shared (sharedExpr_binary.2 ⟨hvar, sharedExpr_int⟩)) (L.shared hn) (fun _ => rfl) h

theorem mem_bucketDims {x : Name × Expr} (hop : op.Names H.Shared) (hx : x ∈ op.bucketDims) : H.Shared x.1 ∧ H.SharedExpr x.2 :=
  ⟨hop.bucketIndices _ (List.of_mem_zip hx).1, hop.shape _ (List.of_mem_zip hx).2⟩

theorem bucketLoops_same (hop : op.Names H.Shared) (h : L.SameCode body body') :
    L.SameCode (op.bucketLoops body) (op.bucketLoops body') := by
  have hdims := fun x hx => mem_bucketDims (x := x) hop hx
  unfold Operator.bucketLoops
  generalize op.bucketDims = dims at hdims
  induction dims with
  | nil => exact h
  | cons x dims ih =>
    rw [List.forall_mem_cons] at hdims
    exact .countShared hdims.1.1 hdims.1.2 (ih hdims.2)

/-- the number of the current index over a bucket, which folding leaves open unless there is only one -/
theorem bucketIndex_shared (hop : op.Names H.Shared) :
    H.SharedExpr op.bucketIndex ∧ (op.bucketIndex = 0 ∨ op.bucketIndex.constant? = none) := by
  have hdims := fun x hx => mem_bucketDims (x := x) hop hx
  unfold Operator.bucketIndex
  generalize op.bucketDims = dims at hdims
  cases dims with
  | nil => exact ⟨sharedExpr_int, .inl rfl⟩
  | cons x dims =>
    rw [List.forall_mem_cons] at hdims
    have hfold (e : Expr) (he : H.SharedExpr e ∧ e.constant? = none) :
        H.SharedExpr ((dims.map fun x => (Expr.ofName x.1, x.2)).foldl (fun acc x => acc * x.2 + x.1) e) ∧
          ((dims.map fun x => (Expr.ofName x.1, x.2)).foldl (fun acc x => acc * x.2 + x.1) e).constant? = none := by
      obtain ⟨-, hdims⟩ := hdims
      induction dims generalizing e with
      | nil => exact he
      | cons y dims ih =>
        rw [List.forall_mem_cons] at hdims
        refine ih _ ⟨?_, Expr.constant?_op2_open .add rfl nofun (.inr rfl)⟩ hdims.2
        exact sharedExpr_binary.2 ⟨sharedExpr_binary.2 ⟨he.1, hdims.1.2⟩, sharedExpr_var.2 hdims.1.1⟩
    exact (hfold _ ⟨sharedExpr_var.2 hdims.1.1, rfl⟩).imp_right .inr

/-- the sizes of segments in both plans, under the names that the histogram gives -/
def SameDims (L : Link H) (x y : Name × Expr) : Prop := x.1 = y.1 ∧ H.Shared x.1 ∧ L.Fixed x.2 y.2

theorem product_strict {dims dims' : List (Name × Expr)} (h : List.Forall₂ L.SameDims dims dims') :
    L.Strict (.product (dims.map (·.2))) (.product (dims'.map (·.2))) :=
  .product (List.rel_map (fun _ _ h => h.2.2.strict) h)

/-- an index of a segment is defined -/
theorem bindIndex_same {x y : Name × Expr} (h : L.SameDims x y) (he : L.SameNumber e e') :
    L.SameCode [.bind x.1 e] [.bind y.1 e'] := by
  rw [← h.1]
  exact .bindNumber he (L.shared h.2.1)

theorem defineIndicesRest_same {dims dims' : List (Name × Expr)} (h : List.Forall₂ L.SameDims dims dims')
    (he : L.SameNumber e e') : L.SameCode (defineIndicesRest e dims) (defineIndicesRest e' dims') := by
  induction h with
  | nil => exact .nil
  | cons hx hrest ih =>
    have hdiv : L.SameNumber (e / _) (e' / _) := he.op2 .div rfl (product_strict hrest).number nofun
    exact .cons (bindIndex_same hx (hdiv.op2 .rem rfl hx.2.2.number nofun)) ih

/-- the indices of a segment -/
theorem defineIndices_same {dims dims' : List (Name × Expr)} (h : List.Forall₂ L.SameDims dims dims') (he : L.SameNumber e e') :
    L.SameCode (defineIndices e dims) (defineIndices e' dims') := by
  cases h with
  | nil => exact .nil
  | cons hx hrest =>
    exact .cons (bindIndex_same hx (he.op2 .div rfl (product_strict hrest).number nofun)) (defineIndicesRest_same hrest he)

/-! ## Methods -/

/-- tables of locks with corresponding names -/
structure SameTable (L : Link H) (t t' : LockTable) : Prop where
  name : L.rel t.name t'.name
  count : L.SameNumber t.count t'.count
  space : t'.space = t.space

/-- the same way of updating -/
inductive SameMethod (L : Link H) : UpdateMethod → UpdateMethod → Prop
  | primitive (a : Atomic) : SameMethod L (.primitive a) (.primitive a)
  | compareSwap (s : Scalar) : SameMethod L (.compareSwap s) (.compareSwap s)
  | locked {t t' : LockTable} (h : L.SameTable t t') : SameMethod L (.locked t) (.locked t')

theorem SameTable.mono {t t' : LockTable} (h : L ≤ M) (ht : L.SameTable t t') : M.SameTable t t' :=
  ⟨rel_mono h ht.name, ht.count.mono h, ht.space⟩

theorem SameMethod.mono {u u' : UpdateMethod} (h : L ≤ M) (hu : L.SameMethod u u') : M.SameMethod u u' := by
  cases hu with
  | primitive a => exact .primitive a
  | compareSwap s => exact .compareSwap s
  | locked ht => exact .locked (ht.mono h)

theorem methodWith_same {t t' : LockTable} (h : op.needsLock = true → L.SameTable t t') :
    L.SameMethod (op.methodWith t) (op.methodWith t') := by
  unfold Operator.methodWith
  cases hm : op.lockFree? with
  | none => exact .locked (h (Operator.needsLock_iff.2 hm))
  | some u =>
    cases u with
    | primitive a => exact .primitive a
    | compareSwap s => exact .compareSwap s
    | locked t => exact absurd hm Operator.lockFree?_ne_locked

/-- the operators of two plans are updated in the same ways -/
theorem chooseMethods_draws (ops : List Operator) {count : Expr} (hcount : ∀ M : Link H, M.SameNumber count count) :
    L.Draws (chooseMethods ops (LockTable.create count sp) : Gen _) (chooseMethods ops (LockTable.create count sp) : Gen _)
      fun M x y => Option.Rel M.SameTable x.1 y.1 ∧ List.Forall₂ M.SameMethod x.2 y.2 := by
  intro j k a b j' k' hb hx hy
  have hx : chooseMethods ops (LockTable.create count sp) j = (a, j') := Option.some.inj hx
  have hy : chooseMethods ops (LockTable.create count sp) k = (b, k') := Option.some.inj hy
  rw [chooseMethods_eq _ _ _ default] at hx hy
  split_ifs at hx hy with hany
  · cases hx
    cases hy
    obtain ⟨M, hM, hb, hr, -⟩ := exists_pair hb "locks" "locks" False
    have htable : M.SameTable ⟨⟨"locks", some j⟩, count, sp⟩ ⟨⟨"locks", some k⟩, count, sp⟩ := ⟨hr, hcount M, rfl⟩
    exact ⟨M, hM, hb, .some htable, List.rel_map (R := Eq) (fun op _ h => h ▸ methodWith_same fun _ => htable) (List.forall₂_refl ops)⟩
  · cases hx
    cases hy
    refine ⟨L, .refl L, hb, .none, ?_⟩
    rw [List.forall₂_map_left_iff, List.forall₂_map_right_iff, List.forall₂_same]
    intro op hop
    exact methodWith_same fun h => absurd (List.any_eq_true.2 ⟨op, hop, h⟩) hany

/-! ## Updates -/

/-- names that correspond and need not hold 64-bit numbers -/
def SameVar (L : Link H) (n m : Name) : Prop := L.rel n m ∧ ¬ L.word n

/-- names that correspond and hold 64-bit numbers only -/
def SameWord (L : Link H) (n m : Name) : Prop := L.rel n m ∧ L.word n

theorem SameVar.mono (h : L ≤ M) (hn : L.SameVar n m) : M.SameVar n m :=
  ⟨rel_mono h hn.1, fun hw => hn.2 ((word_mono h hn.1).1 hw)⟩

theorem SameWord.mono (h : L ≤ M) (hn : L.SameWord n m) : M.SameWord n m := ⟨rel_mono h hn.1, (word_mono h hn.1).2 hn.2⟩

theorem SameWord.number (hn : L.SameWord n m) : L.SameNumber (.ofName n) (.ofName m) := .ofName hn.1 hn.2

theorem SameWord.index (hn : L.SameWord n m) : L.SameIndex (.ofName n) (.ofName m) := .ofName hn.1 hn.2

/-- both threads compare a variable with a number -/
theorem SameCode.ifLess {thn thn' els els' : List Stmt} (hn : L.SameWord n m) (he : L.SameNumber e e') (ht : L.SameCode thn thn')
    (hels : L.SameCode els els') :
    L.SameCode [.ifElse ((Expr.ofName n).lt e) thn els o] [.ifElse ((Expr.ofName m).lt e') thn' els' o] :=
  .ifElse (hn.number.compare .lt rfl he) (isTruth_fold_compare rfl rfl _) (isTruth_fold_compare rfl rfl _) ht hels

theorem freshVar (text : String) :
    L.Draws (GpuHistogram.fresh text : Gen Name) (GpuHistogram.fresh text : Gen Name) SameVar :=
  (Draws.fresh text text False).imp fun _ _ _ _ h => ⟨h.1, h.2.1⟩

theorem freshWord (text : String) :
    L.Draws (GpuHistogram.fresh text : Gen Name) (GpuHistogram.fresh text : Gen Name) SameWord :=
  (Draws.fresh text text True).imp fun _ _ _ _ h => ⟨h.1, h.2.2 trivial⟩

/-- two names at once -/
theorem Draws.liftWords {α β : Type} {P : Link H → α → β → Prop} {f : Name → Name → GpuHistogram.Fresh α}
    {g : Name → Name → GpuHistogram.Fresh β} (a b : String) (hf : ∀ M n m n' m', L ≤ M → M.SameWord n m → M.SameWord n' m' →
      M.Draws (f n n' : Gen α) (g m m' : Gen β) P) :
    L.Draws ((GpuHistogram.fresh a >>= fun n => GpuHistogram.fresh b >>= f n : GpuHistogram.Fresh α) : Gen α)
      ((GpuHistogram.fresh a >>= fun m => GpuHistogram.fresh b >>= g m : GpuHistogram.Fresh β) : Gen β) P :=
  .liftBind (freshWord a) fun _ _ _ hL₁ h₁ => .liftBind (freshWord b) fun M _ _ hM h₂ => hf M _ _ _ _ (hL₁.trans hM) (h₁.mono hM) h₂

theorem Draws.failure {α β : Type} {P : Link H → α → β → Prop} : L.Draws (failure : Gen α) (failure : Gen β) P :=
  fun _ _ _ _ _ _ _ hx => nomatch hx

/-- a truth value is bound or stored -/
theorem bindTruth_same (h : L.SameVar n m) (b : Bool) : L.SameCode [.bind n (.truth b)] [.bind m (.truth b)] :=
  .bind (same_shared sharedExpr_bool) rfl h.1 fun hw => absurd hw h.2

theorem updateTruth_same (h : L.SameVar n m) (b : Bool) : L.SameCode [.update n (.truth b)] [.update m (.truth b)] :=
  .update (same_shared sharedExpr_bool) rfl h.1 fun hw => absurd hw h.2

theorem sharedCombiner (hop : op.Names H.Shared) : SharedCombiner H op.combiner :=
  ⟨hop.combiner.params, hop.combiner.body, hop.combiner.results⟩

/-- the variables of a loop that compares and swaps -/
structure SameCasNames (L : Link H) (ns ns' : CasNames) : Prop where
  idx : L.SameWord ns.idx ns'.idx
  y : L.SameVar ns.y ns'.y
  assumed : L.SameVar ns.assumed ns'.assumed
  old : L.SameVar ns.old ns'.old
  x : L.SameVar ns.x ns'.x
  done : L.SameVar ns.done ns'.done

theorem casNames_draws : L.Draws (CasNames.create : Gen CasNames) (CasNames.create : Gen CasNames) SameCasNames :=
  .liftBind (freshWord _) fun _ _ _ _ h₁ => .liftBind (freshVar _) fun _ _ _ hL₂ h₂ =>
    .liftBind (freshVar _) fun _ _ _ hL₃ h₃ => .liftBind (freshVar _) fun _ _ _ hL₄ h₄ =>
      .liftBind (freshVar _) fun _ _ _ hL₅ h₅ => .liftBind (freshVar _) fun _ _ _ hL₆ h₆ => .liftPure
        { idx := h₁.mono (hL₂.trans (hL₃.trans (hL₄.trans (hL₅.trans hL₆))))
          y := h₂.mono (hL₃.trans (hL₄.trans (hL₅.trans hL₆)))
          assumed := h₃.mono (hL₄.trans (hL₅.trans hL₆))
          old := h₄.mono (hL₅.trans hL₆)
          x := h₅.mono hL₆
          done := h₆ }

theorem casAttempt_same {ns ns' : CasNames} {f : Combiner} (hns : L.SameCasNames ns ns') (hf : SharedCombiner H f) (hr : L.rel n m) :
    L.SameCode (casAttempt ns sc sp f n) (casAttempt ns' sc sp f m) := by
  have hvar {x x' : Name} (h : L.SameVar x x') (s : Scalar) : L.Same (.scalarVar x s) (.scalarVar x' s) := same_var h.1 _
  refine .cons (.bind ((hvar hns.assumed _).sameBits sc) rfl hns.x.1 fun hw => absurd hw hns.x.2) (.cons ?_ (.cons ?_ ?_))
  · exact .apply hf (.cons (sameOpen_var hns.x.1 sc) (.cons (sameOpen_var hns.y.1 sc) .nil)) (.cons hns.x .nil)
  · exact .compareSwap hns.idx.number.same (hvar hns.assumed _) ((hvar hns.x sc).sameBits _) hr hns.old.1 hns.old.2
  · have hcond : L.Same _ _ := (hvar hns.old sc.bitPattern).compare .eq rfl (hvar hns.assumed sc.bitPattern) rfl rfl
    refine .ifElse hcond (isTruth_fold_compare rfl rfl _) (isTruth_fold_compare rfl rfl _) (updateTruth_same hns.done true) ?_
    exact .update (hvar hns.old _) rfl hns.assumed.1 fun hw => absurd hw hns.assumed.2

theorem casLoop_same {ns ns' : CasNames} {f : Combiner} (hns : L.SameCasNames ns ns') (hf : SharedCombiner H f) (hr : L.rel n m)
    (ha : L.Same addr addr') (hty : addr.ty = .i64) (hty' : addr'.ty = .i64) (he : H.SharedExpr e) :
    L.SameCode (casLoop ns sc sp f n addr e) (casLoop ns' sc sp f m addr' e) := by
  have hword := (hns.idx.number.same.element hr sc sp).sameBits sc.bitPattern
  refine .cons (.bind ha (hty'.trans hty.symm) hns.idx.1 fun _ => hty) (.cons ?_ (.cons ?_ (.cons ?_ ?_)))
  · exact .bind (same_shared he) rfl hns.y.1 fun hw => absurd hw hns.y.2
  · exact .bind hword rfl hns.assumed.1 fun hw => absurd hw hns.assumed.2
  · exact bindTruth_same hns.done false
  · exact .whileLoop (same_not hns.done.1) (casAttempt_same hns hf hr)

/-- the variables of an update under a lock -/
structure SameLockNames (L : Link H) (ns ns' : LockNames) : Prop where
  idx : L.SameWord ns.idx ns'.idx
  lock : L.SameWord ns.lock ns'.lock
  prev : L.SameVar ns.prev ns'.prev
  done : L.SameVar ns.done ns'.done
  ys : List.Forall₂ L.SameVar ns.ys ns'.ys
  xs : List.Forall₂ L.SameVar ns.xs ns'.xs

theorem freshVars (texts : List String) : L.Draws ((texts.mapM GpuHistogram.fresh : GpuHistogram.Fresh _) : Gen (List Name))
    ((texts.mapM GpuHistogram.fresh : GpuHistogram.Fresh _) : Gen (List Name)) fun M ns ms => List.Forall₂ M.SameVar ns ms :=
  .liftMapM (forall₂_diagonal fun _ hx => hx) (Q := SameVar) (fun h => .mono h) fun _ _ _ _ hxy => hxy.1 ▸ freshVar _

theorem lockNames_draws (count : ℕ) :
    L.Draws (LockNames.create count : Gen LockNames) (LockNames.create count : Gen LockNames) SameLockNames :=
  .liftWords _ _ fun _ _ _ _ _ _ h₁ h₂ =>
    .liftBind (freshVar _) fun _ _ _ hL₃ h₃ => .liftBind (freshVar _) fun _ _ _ hL₄ h₄ =>
      .liftBind (freshVars _) fun _ _ _ hL₅ h₅ => .liftBind (freshVars _) fun _ _ _ hL₆ h₆ => .liftPure
        { idx := h₁.mono (hL₃.trans (hL₄.trans (hL₅.trans hL₆)))
          lock := h₂.mono (hL₃.trans (hL₄.trans (hL₅.trans hL₆)))
          prev := h₃.mono (hL₄.trans (hL₅.trans hL₆))
          done := h₄.mono (hL₅.trans hL₆)
          ys := h₅.imp fun _ _ h => h.mono hL₆
          xs := h₆ }

theorem forall₂_eq {α : Type} (l : List α) : List.Forall₂ Eq l l := List.forall₂_refl l

variable {t t' : LockTable} {targets targets' : List Name} {ns ns' : LockNames}

theorem criticalSection_same (hns : L.SameLockNames ns ns') (ht : L.SameTable t t') (hop : op.Names H.Shared)
    (htargets : List.Forall₂ L.rel targets targets') :
    L.SameCode (criticalSection ns t sp op targets) (criticalSection ns' t' sp op targets') := by
  have hplaces := forall₂_zip hns.xs (forall₂_zip htargets (forall₂_eq op.scalars))
  have hargs := forall₂_zip (List.rel_append hns.xs hns.ys) (forall₂_eq (op.scalars ++ op.scalars))
  have hopen : List.Forall₂ L.SameOpen (((ns.xs ++ ns.ys).zip (op.scalars ++ op.scalars)).map fun x => Expr.scalarVar x.1 x.2)
      (((ns'.xs ++ ns'.ys).zip (op.scalars ++ op.scalars)).map fun x => Expr.scalarVar x.1 x.2) := by
    rw [List.forall₂_map_left_iff, List.forall₂_map_right_iff]
    refine hargs.imp ?_
    rintro ⟨n, s⟩ ⟨m, _⟩ ⟨hr, rfl⟩
    exact sameOpen_var hr.1 s
  have happly := SameCode.apply (sharedCombiner hop) hopen hns.xs
  unfold criticalSection
  refine (((SameCode.map (hplaces.imp ?_)).append happly).append (.map (hplaces.imp ?_))).append ?_
  · rintro ⟨x, target, s⟩ ⟨x', target', _⟩ ⟨hx, htarget, rfl⟩
    exact .bind (hns.idx.number.same.element htarget s sp) rfl hx.1 fun hw => absurd hw hx.2
  · rintro ⟨x, target, s⟩ ⟨x', target', _⟩ ⟨hx, htarget, rfl⟩
    exact .storeElement hns.idx.number.same (same_var hx.1 _) htarget
  · rw [ht.space]
    exact .cons .fence (.cons (.atomic hns.lock.number.same (same_shared sharedExpr_int) ht.name) (updateTruth_same hns.done true))

theorem lockAttempt_same (hns : L.SameLockNames ns ns') (ht : L.SameTable t t') (hop : op.Names H.Shared)
    (htargets : List.Forall₂ L.rel targets targets') :
    L.SameCode (lockAttempt ns t sp op targets) (lockAttempt ns' t' sp op targets') := by
  have hcond : L.Same ((Expr.scalarVar ns.prev Scalar.i32.bitPattern).eq (.literal unlocked Scalar.i32.bitPattern))
      ((Expr.scalarVar ns'.prev Scalar.i32.bitPattern).eq (.literal unlocked Scalar.i32.bitPattern)) :=
    (same_var hns.prev.1 _).compare .eq rfl (same_shared sharedExpr_int) rfl rfl
  unfold lockAttempt
  rw [ht.space]
  refine .cons ?_ (.ifThen hcond (isTruth_fold_compare rfl rfl _) (isTruth_fold_compare rfl rfl _)
    (criticalSection_same hns ht hop htargets))
  exact .compareSwap hns.lock.number.same (same_shared sharedExpr_int) (same_shared sharedExpr_int) ht.name hns.prev.1 hns.prev.2

theorem lockedUpdate_same (hns : L.SameLockNames ns ns') (ht : L.SameTable t t') (hop : op.Names H.Shared)
    (htargets : List.Forall₂ L.rel targets targets') (ha : L.Same addr addr') (hty : addr.ty = .i64) (hty' : addr'.ty = .i64)
    {values : List Expr} (hvalues : ∀ e ∈ values, H.SharedExpr e) :
    L.SameCode (lockedUpdate ns t sp op targets addr values) (lockedUpdate ns' t' sp op targets' addr' values) := by
  have hhash : L.SameNumber (t.hash (.ofName ns.idx)) (t'.hash (.ofName ns'.idx)) :=
    hns.idx.number.op2 .rem rfl ht.count nofun
  unfold lockedUpdate
  refine ((SameCode.bind ha (hty'.trans hty.symm) hns.idx.1 fun _ => hty).append
    (.map ((forall₂_zip hns.ys (forall₂_diagonal hvalues)).imp ?_))).append ?_
  · rintro ⟨y, e⟩ ⟨y', _⟩ ⟨hy, rfl, he⟩
    exact .bind (same_shared he) rfl hy.1 fun hw => absurd hw hy.2
  · exact .cons (.bindNumber hhash hns.lock.1) (.cons (bindTruth_same hns.done false)
      (.whileLoop (same_not hns.done.1) (lockAttempt_same hns ht hop htargets)))

/-- **Updates.** However an operator is updated, both programs do the same. -/
theorem updateCode_draws {u u' : UpdateMethod} (hu : L.SameMethod u u') (hop : op.Names H.Shared)
    (htargets : List.Forall₂ L.rel targets targets') (ha : L.Same addr addr') (hty : addr.ty = .i64) (hty' : addr'.ty = .i64)
    {values : List Expr} (hvalues : ∀ e ∈ values, H.SharedExpr e) :
    L.Draws (op.updateCode u sp targets addr values) (op.updateCode u' sp targets' addr' values) fun M x y => M.SameCode [x] [y] := by
  cases hu with
  | primitive a =>
    unfold Operator.updateCode
    cases htargets with
    | nil => cases op.dests <;> cases values <;> exact .failure
    | cons hr _ =>
      cases op.dests with
      | nil => cases values <;> exact .failure
      | cons d _ =>
        cases values with
        | nil => exact .failure
        | cons e _ =>
          have he := hvalues e (List.mem_cons_self ..)
          exact .pure (.block (.atomic ha (same_shared (he.castIfNeeded d.elem)) hr))
  | compareSwap s =>
    unfold Operator.updateCode
    cases htargets with
    | nil => cases values <;> exact .failure
    | cons hr _ =>
      cases values with
      | nil => exact .failure
      | cons e _ =>
        exact casNames_draws.bind fun M ns ns' hM hns => .pure (.block (casLoop_same hns (sharedCombiner hop) (rel_mono hM hr)
          (ha.mono hM) hty hty' (hvalues e (List.mem_cons_self ..))))
  | locked ht =>
    unfold Operator.updateCode
    exact (lockNames_draws _).bind fun M ns ns' hM hns => .pure (.block (lockedUpdate_same hns (ht.mono hM) hop
      (htargets.imp fun _ _ => rel_mono hM) (ha.mono hM) hty hty' hvalues))

/-! ## Elements -/

/-- how one operator is updated in both programs: for every bucket the generators write the same code -/
def SameUpdate {α : Type} (L : Link H) (update update' : Part → α → Expr → Gen Stmt) (x y : Part × α) : Prop :=
  ∀ M, L ≤ M → ∀ n m, M.SameWord n m →
    M.Draws (update x.1 x.2 (.ofName n)) (update' y.1 y.2 (.ofName m)) fun N a b => N.SameCode [a] [b]

theorem bucketUpdate_same {p q : Part} (h : L.SamePart p q) (hn : L.SameWord n m) {x y : Stmt} (hxy : L.SameCode [x] [y]) :
    L.SameCode (Plan.bucketUpdate p n x) (Plan.bucketUpdate q m y) := by
  have hge : L.Same ((Expr.ofName n).ge 0) ((Expr.ofName m).ge 0) := hn.number.compare .ge rfl (.literal (k := 0) rfl)
  have hlt : L.Same ((Expr.ofName n).lt p.width) ((Expr.ofName m).lt q.width) := hn.number.compare .lt rfl h.width.number
  have hcond := hge.and hlt (truth_compare rfl _ _) (truth_compare rfl _ _)
  have htruth (n : Name) (e : Expr) : (((Expr.ofName n).ge 0).and ((Expr.ofName n).lt e)).fold.isTruth = false :=
    Expr.isTruth_fold_and (isTruth_fold_compare rfl rfl _) (isTruth_fold_compare rfl rfl _)
  have hbucket := h.contributionNames.bucket
  unfold Plan.bucketUpdate
  rw [h.contribution, h.op]
  refine .cons (.bind (same_shared (Hosts.SharedExpr.castIfNeeded hbucket .i64)) rfl hn.1 fun _ => Expr.ty_castIfNeeded ..) ?_
  exact .ifThen hcond (htruth _ _) (htruth _ _) (bucketLoops_same h.operatorNames hxy)

theorem bucketUpdates_draws {α : Type} {update update' : Part → α → Expr → Gen Stmt} {parts parts' : List (Part × α)}
    (h : List.Forall₂ (fun x y => L.SamePart x.1 y.1 ∧ L.SameUpdate update update' x y) parts parts') :
    L.Draws (Plan.bucketUpdates update parts) (Plan.bucketUpdates update' parts') fun M a b => M.SameCode a b := by
  suffices hall : ∀ M, L ≤ M → M.Draws (Plan.bucketUpdates update parts) (Plan.bucketUpdates update' parts')
      fun M a b => M.SameCode a b from hall L le_rfl
  induction h with
  | nil => exact fun M _ => .pure .nil
  | cons hx _ ih =>
    intro M hM
    refine .bind (freshWord "bucket") fun M₁ n m h₁ hn => .bind (hx.2 M₁ (hM.trans h₁) n m hn) fun M₂ a b h₂ hab => ?_
    refine .bind (ih M₂ (hM.trans (h₁.trans h₂))) fun M₃ as bs h₃ hrest => .pure (.append ?_ hrest)
    exact bucketUpdate_same (hx.1.mono (hM.trans (h₁.trans (h₂.trans h₃)))) (hn.mono (h₂.trans h₃)) (hab.mono h₃)

variable {p q : Plan} {h : Histogram} {seg seg' idx idx' : Expr}

/-- the map results of an element -/
theorem mapStores_same (hp : L.SamePlan h p q) (hnames : h.Names H.Shared) (hseg : L.SameIndex seg seg') (hn : H.Shared n) :
    L.SameCode (p.mapStores (seg * p.elements + .ofName n)) (q.mapStores (seg' * q.elements + .ofName n)) := by
  have hplace := hseg.last hp.elements (sharedExpr_var.2 hn : H.SharedExpr (.ofName n)) (.inr rfl)
  unfold Plan.mapStores
  rw [hp.hist, hp.hist']
  refine .map (List.forall₂_same.2 fun x hx => ?_)
  exact .storeElement hplace (same_shared (hnames.maps x hx).2) (L.shared (hnames.maps x hx).1)

/-- **Elements.** The code for one element is the same in both programs, if the updates are. -/
theorem element_draws {α : Type} {update update' : Part → α → Expr → Gen Stmt} {parts parts' : List (Part × α)}
    (hp : L.SamePlan h p q) (hnames : h.Names H.Shared) (hdim : h.elementDim? ≠ none) (hseg : L.SameIndex seg seg')
    (hidx : L.SameNumber idx idx')
    (hparts : List.Forall₂ (fun x y => L.SamePart x.1 y.1 ∧ L.SameUpdate update update' x y) parts parts') :
    L.Draws (p.element seg idx parts update) (q.element seg' idx' parts' update') fun M a b => M.SameCode a b := by
  obtain ⟨⟨n, size⟩, hx⟩ := Option.ne_none_iff_exists'.1 hdim
  have hn : H.Shared n := (hnames.space _ (List.mem_of_getLast? hx)).1
  have hname (r : Plan) (hr : r.hist = h) : r.elementName = Pure.pure n := by
    unfold Plan.elementName
    rw [hr, hx]
  unfold Plan.element
  rw [hname p hp.hist, hname q hp.hist']
  refine .bind (.liftPure (P := fun _ a b => a = n ∧ b = n) ⟨rfl, rfl⟩) fun M₁ a b h₁ hab => ?_
  obtain ⟨rfl, rfl⟩ := hab
  refine .bind (bucketUpdates_draws (hparts.imp fun _ _ hxy => ⟨hxy.1.mono h₁, fun N hN => hxy.2 N (h₁.trans hN)⟩))
    fun M₂ as bs h₂ hupdates => .pure ?_
  have hM := h₁.trans h₂
  have hp := hp.mono hM
  have hbody : M₂.SameCode p.hist.body q.hist.body := by
    rw [hp.hist, hp.hist']
    exact sameCode_shared hnames.body
  refine ((((defineIndices_same hp.segmentDims (hseg.number.mono hM)).append ?_).append hbody).append ?_).append hupdates
  · exact .bindNumber (hidx.mono hM) (M₂.shared hn)
  · exact mapStores_same hp hnames (hseg.mono hM) hn

end Machine.Link

end GpuHistogram
