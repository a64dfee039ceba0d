/-
Code of threads in two linked programs. `L.SameCode l l'` says that `l'` does on corresponding names what `l` does, on
every thread, and that a pass over the two meets corresponding variables. There is one rule for each way of writing code:
the parts of generated code are put together from these, and the code of the histogram itself, whose names are all shared,
is the same as itself (`sameCode_shared`).

Code that folding drops or decides must be dropped and decided in both programs, so the rules for conditionals ask for
conditions that folding leaves open. A loop up to a number that is not positive never gets to its body
(`SameCode.deadLoop`): then it does not matter what the body does.
-/
import GpuHistogram.Proofs.LinkedValues
import GpuHistogram.Proofs.LockTables

namespace GpuHistogram

open Machine

theorem Occurrences.stmts_append (u : Occurrences) (l l' : List Stmt) : u.stmts (l ++ l') = (u.stmts l).stmts l' := by
  induction l generalizing u with
  | nil => rfl
  | cons x l ih => exact ih _

/-- every name that the code uses is shared -/
def Machine.Hosts.SharedCode (H : Hosts) (l : List Stmt) : Prop := ∀ u, ∀ n ∈ blockUses u l, H.Shared n

namespace Machine.Link

variable {H : Hosts} {K L M : Link H} {n m : Name} {th : Option ThreadPlace} {N : Name → Prop} {e e' i i' : Expr} {ty : Ty}
  {l l' r r' body body' : List Stmt} {o o' : Origin} {sc : Scalar}

/-! ## Expressions that are evaluated -/

namespace Follows

variable (he : L.Follows e e') (hL : L ≤ M) (hN : ∀ n ∈ e'.scalars, N n)

include he hL hN

theorem value_mirrors :
    Mirrors (L.Tied M N) (Machine.value (H.first.within th) e.fold) (Machine.value (H.second.within th) e'.fold)
      fun v w => v = w ∧ v.Fits v.scalar :=
  .observe fun _ _ v hI hv =>
    ⟨v, he th _ _ v (hI.1.mono hL) (hI.2.subset hN) hv, rfl, eval_own hI.1.sound hv⟩

theorem number_mirrors :
    Mirrors (L.Tied M N) (Machine.number (H.first.within th) e.fold) (Machine.number (H.second.within th) e'.fold) Eq :=
  (he.value_mirrors hL hN).bind fun _ _ ⟨hv, _⟩ => .pure (congrArg Value.toInt64 hv)

theorem holds_mirrors :
    Mirrors (L.Tied M N) (Machine.holds (H.first.within th) e.fold) (Machine.holds (H.second.within th) e'.fold) Eq :=
  (he.value_mirrors hL hN).bind fun _ _ ⟨hv, _⟩ => .pure (congrArg Value.truth hv)

end Follows

/-! ## Code -/

theorem fits_own_of_atomic {op : Atomic} {x v w : Value} (hv : v.Fits v.scalar) (h : op.eval x v sc = .ok w) :
    w.Fits w.scalar := by
  unfold Atomic.eval at h
  split at h
  · exact fits_own_of_binary h
  · cases h
    exact (hv.convert sc).own

theorem iterate_stops {cond : Exec Bool} {round : Exec Unit} {limit : Int} {s : State} (h : cond s = .ok false s) (left : ℕ) :
    iterate cond round limit o left s = .ok () s := by
  cases left with
  | zero => exact iterate_zero_eq_ok.2 h
  | succ left => exact iterate_succ_eq_ok.2 ⟨false, s, h, rfl⟩

/-- loops may make as many rounds in the second program -/
theorem rounds_eq (th : Option ThreadPlace) : (H.second.within th).rounds = (H.first.within th).rounds :=
  congrArg Int.toNat H.loopLimit

section Steps

variable {c d : Context} (hL : L ≤ M)

include hL

theorem execDefine_mirrors
    (he : Mirrors (L.Tied M N) (Machine.value c e) (Machine.value d e') fun v w => v = w ∧ v.Fits v.scalar)
    (hr : L.rel n m) (hw : L.word n → ty = .i64) :
    Mirrors (L.Tied M N) (execDefine c ty n e o) (execDefine d ty m e' o') fun _ _ => True := by
  cases ty with
  | pointer => exact .fail _ _
  | scalar sc =>
    refine he.bind fun v w hv => ?_
    obtain ⟨rfl, hv⟩ := hv
    exact setVar_mirrors hL hr (hv.convert sc).own fun h => by
      cases hw h
      exact hv.convert .i64

theorem forLoop_mirrors {f g : LaunchSpec → List Stmt → Exec Unit} {x x' y y' : Expr}
    (he : Mirrors (L.Tied M N) (Machine.value (H.first.within th) e) (Machine.value (H.second.within th) e') fun v w =>
      v = w ∧ v.Fits v.scalar)
    (hc : Mirrors (L.Tied M N) (Machine.holds (H.first.within th) x) (Machine.holds (H.second.within th) x') Eq)
    (hi : Mirrors (L.Tied M N) (Machine.value (H.first.within th) y) (Machine.value (H.second.within th) y') fun v w =>
      v = w ∧ v.Fits v.scalar)
    (hl : Mirrors (L.Tied M N) (execAll f (H.first.within th) l) (execAll g (H.second.within th) l') fun _ _ => True)
    (hr : L.rel n m) (hw : L.word n → ty = .i64) :
    Mirrors (L.Tied M N) (exec f (H.first.within th) (.forLoop ty n e x y l o))
      (exec g (H.second.within th) (.forLoop ty m e' x' y' l' o')) fun _ _ => True := by
  have hset {v : Value} (hv : v.Fits v.scalar) : Mirrors (L.Tied M N) (setVar n (v.convert ty.elem))
      (setVar m (v.convert ty.elem)) fun _ _ => True :=
    setVar_mirrors hL hr (hv.convert ty.elem).own fun h => by
      cases hw h
      exact hv.convert .i64
  simp only [exec, rounds_eq]
  refine he.bind fun v w hv => ?_
  obtain ⟨rfl, hv⟩ := hv
  refine (hset hv).bind fun _ _ _ => .iterate hc ?_ _ _ _ _ _
  refine hl.bind fun _ _ _ => hi.bind fun v w hv => ?_
  obtain ⟨rfl, hv⟩ := hv
  exact hset hv

variable (hi : Mirrors (L.Tied M N) (number c i) (number d i') Eq) (hr : L.rel n m)

include hi hr

theorem execAtomic_mirrors {op : Atomic} {old old' : Option Name}
    (he : Mirrors (L.Tied M N) (Machine.value c e) (Machine.value d e') fun v w => v = w ∧ v.Fits v.scalar)
    (ho : Option.Rel (fun a b => L.rel a b ∧ ¬ L.word a) old old') :
    Mirrors (L.Tied M N) (execAtomic c op sc n i e old o) (execAtomic d op sc m i' e' old' o') fun _ _ => True := by
  refine hi.bind fun k k' hk => ?_
  subst hk
  refine he.bind fun v w hv => ?_
  obtain ⟨rfl, hv⟩ := hv
  refine (read_mirrors hL hr k).bind fun x y hx => ?_
  obtain ⟨rfl, hx⟩ := hx
  refine Mirrors.bind (R := fun a b => a = b ∧ a.Fits a.scalar) (.observe fun s t a hI h => ?_) fun a b hab => ?_
  · have ha := liftArithmetic_eq_ok.1 h
    exact ⟨a, liftArithmetic_eq_ok.2 ha, rfl, fits_own_of_atomic hv ha⟩
  · obtain ⟨rfl, ha⟩ := hab
    refine (write_mirrors hL hr k ha).bind fun _ _ _ => ?_
    cases ho with
    | none => exact .pure trivial
    | some h => exact setVar_mirrors hL h.1 (hx.convert sc).own fun hw => absurd hw h.2

theorem execCompareSwap_mirrors {old old' : Name} {cmp cmp' : Expr}
    (hc : Mirrors (L.Tied M N) (Machine.value c cmp) (Machine.value d cmp') fun v w => v = w ∧ v.Fits v.scalar)
    (he : Mirrors (L.Tied M N) (Machine.value c e) (Machine.value d e') fun v w => v = w ∧ v.Fits v.scalar)
    (ho : L.rel old old') (hw : ¬ L.word old) :
    Mirrors (L.Tied M N) (execCompareSwap c old sc n i cmp e o) (execCompareSwap d old' sc m i' cmp' e' o') fun _ _ => True := by
  refine hi.bind fun k k' hk => ?_
  subst hk
  refine hc.bind fun v w hv => ?_
  obtain ⟨rfl, -⟩ := hv
  refine he.bind fun v' w hv => ?_
  obtain ⟨rfl, -⟩ := hv
  refine (read_mirrors hL hr k).bind fun x y hx => ?_
  obtain ⟨rfl, -⟩ := hx
  have hset (x : ℕ) : Mirrors (L.Tied M N) (setVar old (Value.ofBits x sc.bitPattern))
      (setVar old' (Value.ofBits x sc.bitPattern)) fun _ _ => True :=
    setVar_mirrors hL ho (Value.fits_ofBits _ _).own fun h => absurd h hw
  exact .ite Iff.rfl ((write_mirrors hL hr k (Value.fits_ofBits _ sc).own).bind fun _ _ _ => hset _) (hset _)

end Steps

/-- a thread does not get past what only the host may do -/
theorem exec_hostOnly {x : Stmt} (hx : x.isHostOnly = true) {c : Context} (hc : c.thread.isSome = true) :
    exec noLaunch c x = fail .hostStatementInKernel x.origin := by
  cases x <;> first | (cases hx; done) | (rw [exec, if_pos hc]; rfl)

/-- the two lists of statements do the same on every thread -/
def Echoes (L : Link H) (l l' : List Stmt) : Prop :=
  ∀ M, L ≤ M → ∀ th N, (∀ n ∈ blockUses (.reads .scalar) l', N n) →
    Mirrors (L.Tied M N) (execAll noLaunch (H.first.within (some th)) (foldBlock l))
      (execAll noLaunch (H.second.within (some th)) (foldBlock l')) fun _ _ => True

/-- the code does the same on every thread, and uses corresponding variables; barriers in the second are in the first too -/
structure SameCode (L : Link H) (l l' : List Stmt) : Prop where
  echoes : ∀ K, L ≤ K → K.Echoes l l'
  uses : ∀ M, L ≤ M → ∀ u u', M.Passed u u' → M.Passed (u.stmts l) (u'.stmts l')
  calm : anyBarrier (foldBlock l) = false → anyBarrier (foldBlock l') = false

theorem foldBlock_single (x : Stmt) : foldBlock [x] = x.fold := by
  rw [foldBlock, foldBlock, List.append_nil]

namespace SameCode

theorem mono (h : L ≤ M) (hl : L.SameCode l l') : M.SameCode l l' :=
  ⟨fun _ hK => hl.echoes _ (h.trans hK), fun _ hM => hl.uses _ (h.trans hM), hl.calm⟩

theorem nil : L.SameCode [] [] where
  echoes K hK M hM th N hN := by
    rw [foldBlock, execAll, execAll]
    exact .pure trivial
  uses M hM u u' hu := hu
  calm _ := by rw [foldBlock, anyBarrier]

theorem append (h : L.SameCode l l') (h' : L.SameCode r r') : L.SameCode (l ++ r) (l' ++ r') where
  echoes K hK M hM th N hN := by
    rw [blockUses_append, List.forall_mem_append] at hN
    intro s t a s' hI hs
    rw [foldBlock_append, execAll_append_eq_ok] at hs
    obtain ⟨u, hu, hs⟩ := hs
    obtain ⟨_, w, hw, -, hI⟩ := h.echoes K hK M hM th N hN.1 _ _ _ _ hI hu
    obtain ⟨_, t', ht', -, hI⟩ := h'.echoes K hK M hM th N hN.2 _ _ _ _ hI hs
    refine ⟨(), t', ?_, trivial, hI⟩
    rw [foldBlock_append, execAll_append_eq_ok]
    exact ⟨w, hw, ht'⟩
  uses M hM u u' hu := by
    rw [Occurrences.stmts_append, Occurrences.stmts_append]
    exact h'.uses M hM _ _ (h.uses M hM u u' hu)
  calm hl := by
    rw [foldBlock_append, anyBarrier_append, Bool.or_eq_false_iff] at hl ⊢
    exact ⟨h.calm hl.1, h'.calm hl.2⟩

theorem cons {x y : Stmt} (h : L.SameCode [x] [y]) (h' : L.SameCode r r') : L.SameCode (x :: r) (y :: r') :=
  h.append h'

/-- pairs of statements one after the other -/
theorem map {α β : Type} {f : α → Stmt} {g : β → Stmt} {as : List α} {bs : List β}
    (h : List.Forall₂ (fun a b => L.SameCode [f a] [g b]) as bs) : L.SameCode (as.map f) (bs.map g) := by
  induction h with
  | nil => exact .nil
  | cons hx _ ih => exact hx.cons ih

/-- a statement that folding replaces by one statement -/
theorem single {x y x₁ y₁ : Stmt} (hx : foldBlock [x] = [x₁]) (hy : foldBlock [y] = [y₁])
    (hcalm : hasBarrier x₁ = false → hasBarrier y₁ = false)
    (huses : ∀ M, L ≤ M → ∀ u u', M.Passed u u' → M.Passed (u.stmt x) (u'.stmt y))
    (h : ∀ K M, L ≤ K → K ≤ M → ∀ th N, (∀ n ∈ y.uses (.reads .scalar), N n) →
      Mirrors (K.Tied M N) (exec noLaunch (H.first.within (some th)) x₁) (exec noLaunch (H.second.within (some th)) y₁)
        fun _ _ => True) : L.SameCode [x] [y] where
  echoes K hK M hM th N hN := by
    rw [blockUses_cons, blockUses_nil, List.append_nil] at hN
    intro s t a s' hI hs
    rw [hx, execAll_singleton] at hs
    obtain ⟨_, t', ht', -, hI⟩ := h K M hK hM th N hN _ _ _ _ hI hs
    refine ⟨(), t', ?_, trivial, hI⟩
    rw [hy, execAll_singleton]
    exact ht'
  uses := huses
  calm hl := by
    rw [hx] at hl
    rw [hy]
    simp only [anyBarrier, Bool.or_false] at hl ⊢
    exact hcalm hl

/-! ### Variables and elements -/

theorem define (he : L.Same e e') (hr : L.rel n m) (hw : L.word n → ty = .i64) :
    L.SameCode [.define ty n e o] [.define ty m e' o'] := by
  refine single (Form.folded.block_define ty n e o) (Form.folded.block_define ty m e' o') (fun _ => rfl)
    (fun M hM u u' hu => (he.uses M hM u u' hu).bind (rel_mono hM hr)) fun K M hK hM th N hN => ?_
  simp only [exec]
  exact execDefine_mirrors hM ((he.follows.mono hK).value_mirrors hM fun x hx => hN x (by simpa [Stmt.uses, Use.among] using hx))
    (rel_mono hK hr) fun h => hw ((word_mono hK hr).1 h)

theorem bind (he : L.Same e e') (hty : e'.ty = e.ty) (hr : L.rel n m) (hw : L.word n → e.ty = .i64) :
    L.SameCode [.bind n e] [.bind m e'] := by
  unfold Stmt.bind
  rw [hty]
  exact define he hr hw

theorem bindNumber (he : L.SameNumber e e') (hr : L.rel n m) : L.SameCode [.bind n e] [.bind m e'] :=
  bind he.same (he.ty'.trans he.ty.symm) hr fun _ => he.ty

theorem storeVar (he : L.Same e e') (hr : L.rel n m) (hw : L.word n → ty = .i64) :
    L.SameCode [.store (.typed n ty) e] [.store (.typed m ty) e'] := by
  refine single (Form.folded.block_assign _ e _) (Form.folded.block_assign _ e' _) (fun _ => rfl)
    (fun M hM u u' hu => he.uses M hM _ _ (hu.use (rel_mono hM hr) ty)) fun K M hK hM th N hN => ?_
  simp only [exec]
  refine ((he.follows.mono hK).value_mirrors hM fun x hx => hN x ?_).bind fun v w hv => ?_
  · simp [Stmt.store, Stmt.uses, Use.among, hx]
  · obtain ⟨rfl, hv⟩ := hv
    exact setVar_mirrors hM (rel_mono hK hr) (hv.convert ty.elem).own fun h => by
      cases hw ((word_mono hK hr).1 h)
      exact hv.convert .i64

theorem update (he : L.Same e e') (hty : e'.ty = e.ty) (hr : L.rel n m) (hw : L.word n → e.ty = .i64) :
    L.SameCode [.update n e] [.update m e'] := by
  unfold Stmt.update
  rw [hty]
  exact storeVar he hr hw

theorem storeElement {sp : Space} (hi : L.Same i i') (he : L.Same e e') (hr : L.rel n m) :
    L.SameCode [.store (.element n sc sp i) e] [.store (.element m sc sp i') e'] := by
  refine single (Form.folded.block_assign _ e _) (Form.folded.block_assign _ e' _) (fun _ => rfl)
    (fun M hM u u' hu => he.uses M hM _ _ (hi.uses M hM _ _ (hu.use (rel_mono hM hr) _))) fun K M hK hM th N hN => ?_
  simp only [exec]
  have hNe : ∀ x ∈ e'.scalars, N x := fun x hx => hN x (by simp [Stmt.store, Stmt.uses, Use.among, hx])
  have hNi : ∀ x ∈ i'.scalars, N x := fun x hx => hN x (List.mem_append_left _ hx)
  refine ((he.follows.mono hK).value_mirrors hM hNe).bind fun v w hv => ?_
  obtain ⟨rfl, hv⟩ := hv
  refine Mirrors.bind (R := fun a b => a = n ∧ b = m) (.pure ⟨rfl, rfl⟩) fun a b hab => ?_
  obtain ⟨rfl, rfl⟩ := hab
  refine ((hi.follows.mono hK).number_mirrors hM hNi).bind fun k k' hk => ?_
  subst hk
  exact (write_mirrors hM (rel_mono hK hr) k hv).bind fun _ _ _ => .pure trivial

/-! ### Loops and conditionals -/

theorem scope (h : L.SameCode l l') : L.SameCode [.scope l o] [.scope l' o'] := by
  refine single (Form.folded.block_scope l o) (Form.folded.block_scope l' o') (fun hl => ?_) h.uses fun K M hK hM th N hN => ?_
  · simp only [hasBarrier] at hl ⊢
    exact h.calm hl
  · simp only [exec]
    exact h.echoes K hK M hM th N fun x hx => hN x (by rwa [Stmt.uses])

theorem block (h : L.SameCode l l') : L.SameCode [.block l] [.block l'] := h.scope

theorem ifElse (he : L.Same e e') (ht : e.fold.isTruth = false) (ht' : e'.fold.isTruth = false) (h : L.SameCode l l')
    (h' : L.SameCode r r') : L.SameCode [.ifElse e l r o] [.ifElse e' l' r' o'] := by
  refine single (Form.folded.block_ifElse ht l r o) (Form.folded.block_ifElse ht' l' r' o') (fun hl => ?_)
    (fun M hM u u' hu => h'.uses M hM _ _ (h.uses M hM _ _ (he.uses M hM u u' hu))) fun K M hK hM th N hN => ?_
  · simp only [hasBarrier, Bool.or_eq_false_iff] at hl ⊢
    exact ⟨h.calm hl.1, h'.calm hl.2⟩
  · simp only [Stmt.uses, Use.among, List.forall_mem_append] at hN
    simp only [exec]
    refine ((he.follows.mono hK).holds_mirrors hM fun x hx => hN.1 x (by simpa using hx)).bind fun b b' hb => ?_
    subst hb
    exact .ite Iff.rfl (h.echoes K hK M hM th N hN.2.1) (h'.echoes K hK M hM th N hN.2.2)

theorem ifThen (he : L.Same e e') (ht : e.fold.isTruth = false) (ht' : e'.fold.isTruth = false) (h : L.SameCode l l') :
    L.SameCode [.ifThen e l] [.ifThen e' l'] := ifElse he ht ht' h .nil

theorem whileLoop (he : L.Same e e') (h : L.SameCode l l') : L.SameCode [.whileLoop e l o] [.whileLoop e' l' o'] := by
  refine single (Form.folded.block_whileLoop e l o) (Form.folded.block_whileLoop e' l' o') (fun hl => ?_)
    (fun M hM u u' hu => h.uses M hM _ _ (he.uses M hM u u' hu)) fun K M hK hM th N hN => ?_
  · simp only [hasBarrier] at hl ⊢
    exact h.calm hl
  · simp only [Stmt.uses, Use.among, List.forall_mem_append] at hN
    simp only [exec, rounds_eq]
    exact .iterate ((he.follows.mono hK).holds_mirrors hM fun x hx => hN.1 x (by simpa using hx))
      (h.echoes K hK M hM th N hN.2) _ _ _ _ _

theorem forLoop {c c' : Expr} (he : L.Same e e') (hc : L.Same c c') (hi : L.Same i i') (hr : L.rel n m)
    (hw : L.word n → ty = .i64) (h : L.SameCode l l') :
    L.SameCode [.forLoop ty n e c i l o] [.forLoop ty m e' c' i' l' o'] := by
  refine single (Form.folded.block_forLoop ty n e c i l o) (Form.folded.block_forLoop ty m e' c' i' l' o') (fun hl => ?_)
    (fun M hM u u' hu => ?_) fun K M hK hM th N hN => ?_
  · simp only [hasBarrier] at hl ⊢
    exact h.calm hl
  · exact h.uses M hM _ _ (hi.uses M hM _ _ (hc.uses M hM _ _ ((he.uses M hM u u' hu).bind (rel_mono hM hr))))
  · simp only [Stmt.uses, Use.among, List.forall_mem_append, List.flatMap_cons, List.flatMap_nil, List.append_nil] at hN
    obtain ⟨⟨hNe, hNc, hNi⟩, hNl⟩ := hN
    exact forLoop_mirrors hM ((he.follows.mono hK).value_mirrors hM hNe) ((hc.follows.mono hK).holds_mirrors hM hNc)
      ((hi.follows.mono hK).value_mirrors hM hNi) (h.echoes K hK M hM th N hNl) (rel_mono hK hr)
      fun h => hw ((word_mono hK hr).1 h)

theorem count {b b' : Expr} (he : L.Same e e') (hb : L.SameNumber b b') (hr : L.rel n m) (hw : L.word n) (h : L.SameCode l l') :
    L.SameCode [.count n e b l] [.count m e' b' l'] := by
  have hn := SameNumber.ofName hr hw
  exact forLoop he (hn.compare .lt rfl hb) (hn.op2 .add rfl (.literal (k := 1) rfl) nofun).same hr (fun _ => rfl) h

/-- a loop up to a number that is not positive: what its body does makes no difference -/
theorem deadLoop {b b' : Expr} {k : Int} (hb : L.SameNumber b b') (hk : b.constant? = some k) (hk0 : k ≤ 0) (hr : L.rel n m)
    (hw : L.word n) (huses : ∀ M, L ≤ M → ∀ u u', M.Passed u u' → M.Passed (u.stmts l) (u'.stmts l'))
    (hcalm : anyBarrier (foldBlock l) = false → anyBarrier (foldBlock l') = false) :
    L.SameCode [.count n 0 b l] [.count m 0 b' l'] := by
  have hn := SameNumber.ofName hr hw
  refine single (Form.folded.block_forLoop .i64 n 0 _ _ l _) (Form.folded.block_forLoop .i64 m 0 _ _ l' _) (fun hl => ?_)
    (fun M hM u u' hu => ?_) fun K M hK hM th N hN => ?_
  · simp only [hasBarrier] at hl ⊢
    exact hcalm hl
  · have hstep : L.SameNumber (.ofName n + 1) (.ofName m + 1) := hn.op2 .add rfl (.literal (k := 1) rfl) nofun
    exact huses M hM _ _ (hstep.uses M hM _ _ ((hn.compare .lt rfl hb).uses M hM _ _ (hu.bind (rel_mono hM hr))))
  · have hNb : ∀ x ∈ b'.scalars, N x := fun x hx => hN x (by
      simp only [Stmt.count, Stmt.countBy, Stmt.uses, Use.among, List.mem_append, List.flatMap_cons]
      exact .inl (.inr (.inl (List.mem_append_right _ hx))))
    intro s t a s' hI hx
    simp only [exec, rounds_eq] at hx ⊢
    obtain ⟨v, u, hv, hx⟩ := bind_eq_ok.1 hx
    obtain ⟨hv, rfl⟩ := value_eq_ok.1 hv
    cases hv
    obtain ⟨_, u, hu, hx⟩ := bind_eq_ok.1 hx
    obtain rfl := setVar_eq_ok.1 hu
    have hI' : K.Tied M N (s.set n (.word 0)) (t.set m (.word 0)) :=
      ⟨hI.1.set (rel_mono (hK.trans hM) hr) (by decide) fun _ => by decide, hI.2.set (K.apart (rel_mono hK hr)) _⟩
    have hset {w : State} {x : Name} : (w.set x (.word 0)).vars.get? x = some (.word 0) := by
      rw [State.get?_set, if_pos rfl]
    -- neither program enters the loop
    obtain ⟨x, hx'⟩ := eval_of_isLiteral (isLiteral_of_constant? hk) (H.first.within (some th)) (s.set n (.word 0))
    obtain ⟨k', ha, ha'⟩ := (hb.mono hK).computes .folded (some th) _ _ x (hI'.1.mono hM) (hI'.2.subset hNb) hx'
    obtain rfl := ha.word.of_isLiteral (isLiteral_of_constant? hk)
    have hend : decide (0 < k') = false := decide_eq_false (by omega)
    have hc := Evals.lt (.ofName (f := .folded) (n := n) hset rfl) ha
    have hc' := Evals.lt (.ofName (f := .folded) (n := m) hset rfl) ha'
    rw [hend] at hc hc'
    obtain ⟨-, rfl⟩ := EStateM.Result.ok.inj ((iterate_stops (holds_run hc) _).symm.trans hx)
    exact ⟨(), _, bind_eq_ok.2 ⟨_, t, value_run (by rw [Form.expr, show (0 : Expr).fold = 0 from rfl]; rfl),
      bind_eq_ok.2 ⟨(), _, rfl, iterate_stops (holds_run hc') _⟩⟩, trivial, hI'⟩

theorem fence {sp : Space} : L.SameCode [.fence sp o] [.fence sp o'] := by
  refine single (Form.folded.block_fence sp o) (Form.folded.block_fence sp o') (fun _ => rfl) (fun M hM u u' hu => hu)
    fun K M hK hM th N hN => ?_
  simp only [exec]
  exact .pure trivial

/-! ### Updates in one step -/

theorem atomic {op : Atomic} {sp : Space} (hi : L.Same i i') (he : L.Same e e') (hr : L.rel n m) :
    L.SameCode [.atomic op sp sc n i e none o] [.atomic op sp sc m i' e' none o'] := by
  refine single (Form.folded.block_atomic op sp sc n i e none o) (Form.folded.block_atomic op sp sc m i' e' none o')
    (fun _ => rfl) (fun M hM u u' hu => he.uses M hM _ _ (hi.uses M hM _ _ (hu.use (rel_mono hM hr) _)))
    fun K M hK hM th N hN => ?_
  simp only [Stmt.uses, Use.among, List.flatMap_cons, List.flatMap_nil, List.append_nil, List.forall_mem_append] at hN
  simp only [exec]
  exact execAtomic_mirrors hM ((hi.follows.mono hK).number_mirrors hM hN.1) (rel_mono hK hr)
    ((he.follows.mono hK).value_mirrors hM hN.2) .none

theorem compareSwap {old old' : Name} {sp : Space} {c c' : Expr} (hi : L.Same i i') (hc : L.Same c c') (he : L.Same e e')
    (hr : L.rel n m) (ho : L.rel old old') (hw : ¬ L.word old) :
    L.SameCode [.compareSwap old sp sc n i c e o] [.compareSwap old' sp sc m i' c' e' o'] := by
  refine single (Form.folded.block_compareSwap old sp sc n i c e o) (Form.folded.block_compareSwap old' sp sc m i' c' e' o')
    (fun _ => rfl) (fun M hM u u' hu => ?_) fun K M hK hM th N hN => ?_
  · exact (he.uses M hM _ _ (hc.uses M hM _ _ (hi.uses M hM _ _ (hu.use (rel_mono hM hr) _)))).bind (rel_mono hM ho)
  simp only [Stmt.uses, Use.among, List.flatMap_cons, List.flatMap_nil, List.append_nil, List.forall_mem_append] at hN
  simp only [exec]
  exact execCompareSwap_mirrors hM ((hi.follows.mono hK).number_mirrors hM hN.1) (rel_mono hK hr)
    ((hc.follows.mono hK).value_mirrors hM hN.2.1) ((he.follows.mono hK).value_mirrors hM hN.2.2) (rel_mono hK ho)
    fun h => hw ((word_mono hK ho).1 h)

end SameCode

/-! ## Code of the histogram -/

/-- every name that the statement uses is shared -/
def SharedStmt (H : Hosts) (x : Stmt) : Prop := ∀ u, ∀ n ∈ x.uses u, H.Shared n

theorem sharedCode_cons {x : Stmt} : H.SharedCode (x :: l) ↔ SharedStmt H x ∧ H.SharedCode l := by
  simp only [Hosts.SharedCode, SharedStmt, blockUses_cons, List.forall_mem_append, forall_and]

namespace SharedStmt

variable {cond init incr c k v dst : Expr} {old : Name} {op : Atomic} {sp : Space}

/-- an expression of a statement, given where it is read -/
theorem expr {x : Stmt} (h : SharedStmt H x) (he : ∀ k, e.reads k ⊆ x.uses (.reads k)) : H.SharedExpr e :=
  fun k n hn => h (.reads k) n (he k hn)

/-- statements of a statement, given where they are used -/
theorem code {x : Stmt} (h : SharedStmt H x) (hl : ∀ u, blockUses u l ⊆ x.uses u) : H.SharedCode l :=
  fun u n hn => h u n (hl u hn)

theorem define (h : SharedStmt H (.define ty n e o)) : H.Shared n ∧ H.SharedExpr e :=
  ⟨h .sets n (by simp [Stmt.uses, Use.among]), h.expr fun k => by simp [Stmt.uses, Use.among]⟩

theorem assign (h : SharedStmt H (.assign dst e o)) : H.SharedExpr dst ∧ H.SharedExpr e :=
  ⟨h.expr fun k => by simp [Stmt.uses, Use.among], h.expr fun k => by simp [Stmt.uses, Use.among]⟩

theorem forLoop (h : SharedStmt H (.forLoop ty n init cond incr body o)) :
    H.Shared n ∧ H.SharedExpr init ∧ H.SharedExpr cond ∧ H.SharedExpr incr ∧ H.SharedCode body :=
  ⟨h .sets n (by simp [Stmt.uses, Use.among]), h.expr fun k x hx => by simp [Stmt.uses, Use.among, hx],
    h.expr fun k x hx => by simp [Stmt.uses, Use.among, hx], h.expr fun k x hx => by simp [Stmt.uses, Use.among, hx],
    h.code fun u x hx => by simp [Stmt.uses, hx]⟩

theorem ifElse (h : SharedStmt H (.ifElse cond l r o)) : H.SharedExpr cond ∧ H.SharedCode l ∧ H.SharedCode r :=
  ⟨h.expr fun k x hx => by simp [Stmt.uses, Use.among, hx], h.code fun u x hx => by simp [Stmt.uses, hx],
    h.code fun u x hx => by simp [Stmt.uses, hx]⟩

theorem whileLoop (h : SharedStmt H (.whileLoop cond body o)) : H.SharedExpr cond ∧ H.SharedCode body :=
  ⟨h.expr fun k x hx => by simp [Stmt.uses, Use.among, hx], h.code fun u x hx => by simp [Stmt.uses, hx]⟩

theorem scope (h : SharedStmt H (.scope body o)) : H.SharedCode body :=
  h.code fun u => by simp [Stmt.uses]

theorem atomic {x : Option Name} (h : SharedStmt H (.atomic op sp sc n i e x o)) :
    H.Shared n ∧ H.SharedExpr i ∧ H.SharedExpr e ∧ ∀ y, x = some y → H.Shared y :=
  ⟨h .stores n (by simp [Stmt.uses, Use.among]), h.expr fun k x hx => by simp [Stmt.uses, Use.among, hx],
    h.expr fun k x hx => by simp [Stmt.uses, Use.among, hx], fun y hy => h .sets y (by simp [Stmt.uses, Use.among, hy])⟩

theorem compareSwap (h : SharedStmt H (.compareSwap old sp sc n i c e o)) :
    H.Shared n ∧ H.Shared old ∧ H.SharedExpr i ∧ H.SharedExpr c ∧ H.SharedExpr e :=
  ⟨h .stores n (by simp [Stmt.uses, Use.among]), h .sets old (by simp [Stmt.uses, Use.among]),
    h.expr fun k x hx => by simp [Stmt.uses, Use.among, hx], h.expr fun k x hx => by simp [Stmt.uses, Use.among, hx],
    h.expr fun k x hx => by simp [Stmt.uses, Use.among, hx]⟩

end SharedStmt

theorem value_shared (he : H.SharedExpr e) :
    Mirrors (L.Tied M N) (Machine.value (H.first.within th) e) (Machine.value (H.second.within th) e) fun v w =>
      v = w ∧ v.Fits v.scalar :=
  .observe fun _ _ v hI hv => ⟨v, eval_shared he hI.1 hv, rfl, eval_own hI.1.sound hv⟩

theorem number_shared (he : H.SharedExpr e) :
    Mirrors (L.Tied M N) (Machine.number (H.first.within th) e) (Machine.number (H.second.within th) e) Eq :=
  (value_shared he).bind fun _ _ ⟨hv, _⟩ => .pure (congrArg Value.toInt64 hv)

theorem holds_shared (he : H.SharedExpr e) :
    Mirrors (L.Tied M N) (Machine.holds (H.first.within th) e) (Machine.holds (H.second.within th) e) Eq :=
  (value_shared he).bind fun _ _ ⟨hv, _⟩ => .pure (congrArg Value.truth hv)

theorem setVar_shared (hL : L ≤ M) (hn : H.Shared n) {v : Value} (hv : v.Fits v.scalar) :
    Mirrors (L.Tied M N) (setVar n v) (setVar n v) fun _ _ => True :=
  setVar_mirrors hL (L.shared hn) hv fun h => absurd h (not_word_of_shared hn)

mutual

/-- a statement of shared names does the same on every thread of the two programs -/
theorem exec_shared (hL : L ≤ M) : ∀ {x : Stmt}, SharedStmt H x → ∀ {th : ThreadPlace},
    Mirrors (L.Tied M N) (exec noLaunch (H.first.within (some th)) x) (exec noLaunch (H.second.within (some th)) x)
      fun _ _ => True
  | .define ty n e o, hx, th => by
    obtain ⟨hn, he⟩ := hx.define
    simp only [exec]
    exact execDefine_mirrors hL (value_shared he) (L.shared hn) fun h => absurd h (not_word_of_shared hn)
  | .assign dst e o, hx, th => by
    obtain ⟨hd, he⟩ := hx.assign
    simp only [exec]
    refine (value_shared he).bind fun v w hv => ?_
    obtain ⟨rfl, hv⟩ := hv
    cases dst with
    | var n ty o' => exact setVar_shared hL (sharedExpr_var.1 hd) (hv.convert ty.elem).own
    | access t i ty o' =>
      rw [sharedExpr_access] at hd
      refine Mirrors.bind (R := fun a b => a = b ∧ H.Shared a) (.observe fun s u a hI h => ?_) fun a b hab => ?_
      · cases t <;> cases h
        exact ⟨_, rfl, rfl, sharedExpr_var.1 hd.1⟩
      · obtain ⟨rfl, ha⟩ := hab
        refine (number_shared hd.2).bind fun k k' hk => ?_
        subst hk
        exact (write_mirrors hL (L.shared ha) k hv).bind fun _ _ _ => .pure trivial
    | _ => exact .fail _ _
  | .forLoop ty n init cond incr body o, hx, th => by
    obtain ⟨hn, hi, hc, hs, hb⟩ := hx.forLoop
    exact forLoop_mirrors hL (value_shared hi) (holds_shared hc) (value_shared hs) (execAll_shared hL hb) (L.shared hn)
      fun h => absurd h (not_word_of_shared hn)
  | .ifElse cond thn els o, hx, th => by
    obtain ⟨hc, ht, he⟩ := hx.ifElse
    simp only [exec]
    refine (holds_shared hc).bind fun b b' hb => ?_
    subst hb
    exact .ite Iff.rfl (execAll_shared hL ht) (execAll_shared hL he)
  | .whileLoop cond body o, hx, th => by
    obtain ⟨hc, hb⟩ := hx.whileLoop
    simp only [exec, rounds_eq]
    exact .iterate (holds_shared hc) (execAll_shared hL hb) _ _ _ _ _
  | .scope body o, hx, th => by
    simp only [exec]
    exact execAll_shared hL hx.scope
  | .barrier b o, hx, th => by
    simp only [exec]
    exact .fail _ _
  | .fence sp o, hx, th => by
    simp only [exec]
    exact .pure trivial
  | .atomic op sp sc n i e old o, hx, th => by
    obtain ⟨hn, hi, he, ho⟩ := hx.atomic
    simp only [exec]
    refine execAtomic_mirrors hL (number_shared hi) (L.shared hn) (value_shared he) ?_
    cases old with
    | none => exact .none
    | some x => exact .some ⟨L.shared (ho x rfl), not_word_of_shared (ho x rfl)⟩
  | .compareSwap old sp sc n i c e o, hx, th => by
    obtain ⟨hn, ho, hi, hc, he⟩ := hx.compareSwap
    simp only [exec]
    exact execCompareSwap_mirrors hL (number_shared hi) (L.shared hn) (value_shared hc) (value_shared he) (L.shared ho)
      (not_word_of_shared ho)
  | .alloc .., _, _ | .free .., _, _ | .copy .., _, _ | .fill .., _, _ | .rebind .., _, _ | .table .., _, _
  | .launch .., _, _ => by
    rw [exec_hostOnly rfl rfl]
    exact .fail _ _

theorem execAll_shared (hL : L ≤ M) : ∀ {l : List Stmt}, H.SharedCode l → ∀ {th : ThreadPlace},
    Mirrors (L.Tied M N) (execAll noLaunch (H.first.within (some th)) l) (execAll noLaunch (H.second.within (some th)) l)
      fun _ _ => True
  | [], _, _ => by
    simp only [execAll]
    exact .pure trivial
  | x :: l, h, th => by
    rw [sharedCode_cons] at h
    simp only [execAll]
    exact (exec_shared hL h.1).bind fun _ _ _ => execAll_shared hL h.2

end

theorem passed_expr {u u' : Occurrences} (he : H.SharedExpr e) (hu : L.Passed u u') : L.Passed (u.expr e) (u'.expr e) :=
  uses_shared he L le_rfl u u' hu

theorem passed_exprs (es : List Expr) (h : ∀ e ∈ es, H.SharedExpr e) {u u' : Occurrences} (hu : L.Passed u u') :
    L.Passed (Id.run (es.foldlM (fun u e => pure (u.expr e)) u)) (Id.run (es.foldlM (fun u e => pure (u.expr e)) u')) := by
  induction es generalizing u u' with
  | nil => exact hu
  | cons e es ih =>
    rw [List.forall_mem_cons] at h
    rw [List.foldlM_cons, List.foldlM_cons]
    exact ih h.2 (passed_expr h.1 hu)

mutual

/-- passes over the same statement of shared names meet corresponding variables -/
theorem passed_stmt : ∀ {x : Stmt}, SharedStmt H x → ∀ {u u' : Occurrences}, L.Passed u u' →
    L.Passed (u.stmt x) (u'.stmt x)
  | .define ty n e o, hx, _, _, hu => (passed_expr hx.define.2 hu).bind (L.shared hx.define.1)
  | .assign dst e o, hx, _, _, hu => passed_expr hx.assign.2 (passed_expr hx.assign.1 hu)
  | .forLoop ty n init cond incr body o, hx, _, _, hu => by
    obtain ⟨hn, hi, hc, hs, hb⟩ := hx.forLoop
    exact passed_stmts hb (passed_expr hs (passed_expr hc ((passed_expr hi hu).bind (L.shared hn))))
  | .ifElse cond thn els o, hx, _, _, hu => by
    obtain ⟨hc, ht, he⟩ := hx.ifElse
    exact passed_stmts he (passed_stmts ht (passed_expr hc hu))
  | .whileLoop cond body o, hx, _, _, hu => passed_stmts hx.whileLoop.2 (passed_expr hx.whileLoop.1 hu)
  | .scope body o, hx, _, _, hu => passed_stmts hx.scope hu
  | .atomic op sp sc n i e old o, hx, _, _, hu => by
    obtain ⟨hn, hi, he, ho⟩ := hx.atomic
    have h := passed_expr he (passed_expr hi (hu.use (L.shared hn) (.pointer sc sp)))
    cases old with
    | none => exact h
    | some x => exact h.bind (L.shared (ho x rfl))
  | .compareSwap old sp sc n i c e o, hx, _, _, hu => by
    obtain ⟨hn, ho, hi, hc, he⟩ := hx.compareSwap
    exact (passed_expr he (passed_expr hc (passed_expr hi (hu.use (L.shared hn) (.pointer sc sp))))).bind (L.shared ho)
  | .alloc n sc count o, hx, _, _, hu => passed_expr (hx.expr fun k => by simp [Stmt.uses, Use.among]) hu
  | .copy dst i src j k o, hx, _, _, hu =>
    passed_exprs [i, j, k] (fun e he => hx.expr fun _ y hy => List.mem_flatMap.2 ⟨e, he, hy⟩) hu
  | .fill n i k e o, hx, _, _, hu =>
    passed_exprs [i, k, e] (fun e he => hx.expr fun _ y hy => List.mem_flatMap.2 ⟨e, he, hy⟩) hu
  | .table n sc values o, hx, _, _, hu =>
    passed_exprs values (fun e he => hx.expr fun _ y hy => List.mem_flatMap.2 ⟨e, he, hy⟩) hu
  | .barrier .., _, _, _, hu | .fence .., _, _, _, hu | .free .., _, _, _, hu | .rebind .., _, _, _, hu
  | .launch .., _, _, _, hu => hu

theorem passed_stmts : ∀ {l : List Stmt}, H.SharedCode l → ∀ {u u' : Occurrences}, L.Passed u u' →
    L.Passed (u.stmts l) (u'.stmts l)
  | [], _, _, _, hu => hu
  | _ :: _, h, _, _, hu => by
    rw [sharedCode_cons] at h
    exact passed_stmts h.2 (passed_stmt h.1 hu)

end

/-- **Code of shared names is the same in both programs.** -/
theorem sameCode_shared (h : H.SharedCode l) : L.SameCode l l where
  echoes _ _ _ hM _ _ _ := execAll_shared hM fun u n hn => h u n (foldBlock_uses u l hn)
  uses _ _ _ _ hu := passed_stmts h hu
  calm := id

/-! ## Combiners -/

/-- every name in the combiner is shared -/
structure SharedCombiner (H : Hosts) (f : Combiner) : Prop where
  params : ∀ p ∈ f.params, H.Shared p.1
  body : H.SharedCode f.body
  results : ∀ e ∈ f.results, H.SharedExpr e

/-- the two expressions have the same values and types, and folding does not compute them -/
structure SameOpen (L : Link H) (e e' : Expr) : Prop where
  same : L.Same e e'
  ty : e'.ty = e.ty
  unknown : e.constant? = none
  unknown' : e'.constant? = none

theorem sameOpen_var (h : L.rel n m) (sc : Scalar) : L.SameOpen (.scalarVar n sc) (.scalarVar m sc) :=
  ⟨same_var h _, rfl, rfl, rfl⟩

theorem sameOpen_element (h : L.rel n m) (hi : L.Same i i') (sc : Scalar) (sp : Space) :
    L.SameOpen (.element n sc sp i) (.element m sc sp i') :=
  ⟨hi.element h sc sp, rfl, rfl, rfl⟩

/-- a value is bound to a variable of a type -/
theorem SameCode.bindCast (he : L.SameOpen e e') (hr : L.rel n m) (hw : L.word n → sc = .i64) :
    L.SameCode [.bind n (e.castIfNeeded sc)] [.bind m (e'.castIfNeeded sc)] :=
  .bind (he.same.castIfNeeded he.unknown he.unknown' he.ty sc) (by rw [Expr.ty_castIfNeeded, Expr.ty_castIfNeeded]) hr
    fun h => by rw [Expr.ty_castIfNeeded, hw h]; rfl

/-- the pairs of two lists that are related member by member -/
theorem forall₂_zip {α β γ δ : Type} {R : α → β → Prop} {S : γ → δ → Prop} {as : List α} {bs : List β} {cs : List γ}
    {ds : List δ} (h : List.Forall₂ R as bs) (h' : List.Forall₂ S cs ds) :
    List.Forall₂ (fun x y => R x.1 y.1 ∧ S x.2 y.2) (as.zip cs) (bs.zip ds) := by
  induction h generalizing cs ds with
  | nil => exact .nil
  | cons hx _ ih =>
    cases h' with
    | nil => exact .nil
    | cons hy hrest => exact .cons ⟨hx, hy⟩ (ih hrest)

/-- members of one list that satisfy a property -/
theorem forall₂_diagonal {α : Type} {P : α → Prop} {as : List α} (h : ∀ a ∈ as, P a) :
    List.Forall₂ (fun a b => a = b ∧ P a) as as :=
  List.forall₂_same.2 fun a ha => ⟨rfl, h a ha⟩

/-- a combiner of shared names, on corresponding arguments and variables -/
theorem SameCode.apply {f : Combiner} (hf : SharedCombiner H f) {args args' : List Expr} {outs outs' : List Name}
    (hargs : List.Forall₂ L.SameOpen args args') (houts : List.Forall₂ (fun n m => L.rel n m ∧ ¬ L.word n) outs outs') :
    L.SameCode [f.apply args outs] [f.apply args' outs'] := by
  have hparams := forall₂_zip (forall₂_diagonal hf.params) hargs
  have hresults := forall₂_zip (forall₂_zip (forall₂_diagonal hf.results) houts) (forall₂_diagonal hf.params)
  refine (((SameCode.map (hparams.imp ?_)).append (sameCode_shared hf.body)).append (.map (hresults.imp ?_))).block
  · rintro ⟨⟨n, sc⟩, e⟩ ⟨⟨_, _⟩, e'⟩ ⟨⟨heq, hn⟩, he⟩
    cases heq
    exact .bindCast he (L.shared hn) fun h => absurd h (not_word_of_shared hn)
  · rintro ⟨⟨e, n⟩, p⟩ ⟨⟨_, m⟩, _⟩ ⟨⟨⟨heq, he⟩, hr, hw⟩, heq', -⟩
    cases heq
    cases heq'
    exact .storeVar (same_shared he) hr fun h => absurd h hw

end Machine.Link

end GpuHistogram
