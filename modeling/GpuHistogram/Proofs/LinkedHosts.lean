/-
Host code of two linked programs, and the generators that write it. `L.SameHost l l'` says that the hosts do the same.
Where the second host has to bind a variable that stands for a number of the first, the code brings linked states to states
that are linked by a later link (`L.Brings M l l'`); code after which nothing follows need only keep what was linked before
(`L.Concludes l l'`), so its branches may draw names of their own.

`L.Draws x y P` relates two generators of names, `L.Tracks x y P` two generators of host code: wherever both get through,
the names that they draw can be added to the link, and under the later link `P` holds of what they return.
-/
import GpuHistogram.Proofs.Emission
import GpuHistogram.Proofs.LinkedLaunches

namespace GpuHistogram

open Machine

/-- a conditional that has run is the branch that its condition decided on -/
theorem Machine.execAll_ifElse_eq_ok {f : Form} {L : LaunchSpec → List Stmt → Exec Unit} {c : Context} {s t : State} {cond : Expr}
    {thn els : List Stmt} {o : Origin} : execAll L c (f.block [.ifElse cond thn els o]) s = .ok () t ↔
      ∃ v, Evals f c s cond v ∧ execAll L c (f.block (if v.truth then thn else els)) s = .ok () t := by
  refine ⟨fun h => ?_, fun ⟨v, hv, h⟩ => (Runs.execAll_ifElse hv).trans h⟩
  suffices hv : ∃ v, Evals f c s cond v by
    obtain ⟨v, hv⟩ := hv
    exact ⟨v, hv, (Runs.execAll_ifElse hv).symm.trans h⟩
  by_cases hc : cond.fold.isTruth = true
  · cases f with
    | plain =>
      rw [Form.block, execAll_singleton, exec] at h
      obtain ⟨b, u, hb, -⟩ := bind_eq_ok.1 h
      obtain ⟨v, hv, -⟩ := holds_eq_ok.1 hb
      exact ⟨v, hv⟩
    | folded =>
      obtain ⟨b, ty, o', hb⟩ : ∃ b ty o', cond.fold = .bool b ty o' := by
        cases he : cond.fold <;> rw [he] at hc <;> first | exact ⟨_, _, _, rfl⟩ | cases hc
      exact ⟨.bool b, by rw [Evals, Form.expr, hb, eval]⟩
  · rw [Bool.not_eq_true] at hc
    rw [f.block_ifElse hc, execAll_singleton, exec] at h
    obtain ⟨b, u, hb, -⟩ := bind_eq_ok.1 h
    obtain ⟨v, hv, -⟩ := holds_eq_ok.1 hb
    exact ⟨v, hv⟩

namespace Machine.Link

variable {α β γ δ : Type} {H : Hosts} {K L M N : Link H} {n m n' m' : Name} {s t : State} {e e' i i' j j' b b' : Expr}
  {l l' r r' : List Stmt} {o o' : Origin} {sc : Scalar}

/-! ## Kernels under later links -/

theorem SameBody.mono (h : L ≤ M) (hl : L.SameBody l l') : M.SameBody l l' := by
  induction hl with
  | last hl hf hf' => exact .last (hl.mono h) hf hf'
  | barrier b hl hf hf' _ ih => exact .barrier b (hl.mono h) hf hf' ih

theorem SameLocal.mono {x y : LocalBlock} (h : L ≤ M) (hx : L.SameLocal x y) : M.SameLocal x y :=
  ⟨rel_mono h hx.name, hx.elem, fun s t k hs ht => hx.size s t k (hs.mono h) (ht.mono h)⟩

theorem SameKernel.mono {x y : Kernel} (h : L ≤ M) (hx : L.SameKernel x y) : M.SameKernel x y where
  name := hx.name
  body := hx.body.mono h
  captures := hx.captures
  captures' := hx.captures'
  blocks := hx.blocks.imp fun _ _ => .mono h
  groups := hx.groups.imp fun _ _ => .mono h
  groupSize := hx.groupSize.imp fun _ _ => .mono h

/-! ## Code of the hosts -/

/-- the two lists of statements do the same on the hosts -/
def SameHost (L : Link H) (l l' : List Stmt) : Prop := ∀ K O, L ≤ K → K ≤ O →
  Mirrors (K.Tied O fun _ => True) (execAll (launch H.first) (H.first.within none) (foldBlock l))
    (execAll (launch H.second) (H.second.within none) (foldBlock l')) fun _ _ => True

namespace SameHost

theorem nil : L.SameHost [] [] := fun K O _ _ => by
  rw [foldBlock, execAll, execAll]
  exact .pure trivial

theorem append (h : L.SameHost l l') (h' : L.SameHost r r') : L.SameHost (l ++ r) (l' ++ r') := by
  intro K O hK hO s t a s' hI hs
  rw [foldBlock_append, execAll_append_eq_ok] at hs
  obtain ⟨u, hu, hs⟩ := hs
  obtain ⟨_, w, hw, -, hI⟩ := h K O hK hO _ _ _ _ hI hu
  obtain ⟨_, t', ht', -, hI⟩ := h' K O hK hO _ _ _ _ hI hs
  refine ⟨(), t', ?_, trivial, hI⟩
  rw [foldBlock_append, execAll_append_eq_ok]
  exact ⟨w, hw, ht'⟩

theorem cons {x y : Stmt} (h : L.SameHost [x] [y]) (h' : L.SameHost r r') : L.SameHost (x :: r) (y :: r') :=
  h.append h'

/-- lists of statements for the members of two lists, one after the other -/
theorem flatMap {f : α → List Stmt} {g : β → List Stmt} {as : List α} {bs : List β}
    (h : List.Forall₂ (fun a b => L.SameHost (f a) (g b)) as bs) : L.SameHost (as.flatMap f) (bs.flatMap g) := by
  induction h with
  | nil => exact .nil
  | cons hx _ ih => exact hx.append ih

theorem map {f : α → Stmt} {g : β → Stmt} {as : List α} {bs : List β}
    (h : List.Forall₂ (fun a b => L.SameHost [f a] [g b]) as bs) : L.SameHost (as.map f) (bs.map g) := by
  rw [List.map_eq_flatMap, List.map_eq_flatMap]
  exact flatMap h

/-- a statement that folding replaces by one statement -/
theorem single {x y x₁ y₁ : Stmt} (hx : foldBlock [x] = [x₁]) (hy : foldBlock [y] = [y₁])
    (h : ∀ K O, L ≤ K → K ≤ O → Mirrors (K.Tied O fun _ => True) (exec (launch H.first) (H.first.within none) x₁)
      (exec (launch H.second) (H.second.within none) y₁) fun _ _ => True) : L.SameHost [x] [y] := by
  intro K O hK hO s t a s' hI hs
  rw [hx, execAll_singleton] at hs
  rw [hy, execAll_singleton]
  exact h K O hK hO s t a s' hI hs

theorem define {ty : Ty} (he : L.Same e e') (hr : L.rel n m) (hw : L.word n → ty = .i64) :
    L.SameHost [.define ty n e o] [.define ty m e' o'] := by
  refine single (Form.folded.block_define ty n e o) (Form.folded.block_define ty m e' o') fun K O hK hO => ?_
  simp only [exec]
  exact execDefine_mirrors hO ((he.follows.mono hK).value_mirrors hO fun _ _ => trivial) (rel_mono hK hr)
    fun h => hw ((word_mono hK hr).1 h)

theorem bind (he : L.Same e e') (hty : e'.ty = e.ty) (hr : L.rel n m) (hw : L.word n → e.ty = .i64) :
    L.SameHost [.bind n e] [.bind m e'] := by
  unfold Stmt.bind
  rw [hty]
  exact define he hr hw

theorem alloc (he : L.Same e e') (hr : L.rel n m) : L.SameHost [.alloc n sc e o] [.alloc m sc e' o'] := by
  refine single (Form.folded.block_alloc n sc e o) (Form.folded.block_alloc m sc e' o') fun K O hK hO => ?_
  simp only [exec]
  refine ((he.follows.mono hK).number_mirrors hO fun _ _ => trivial).bind fun k k' hk => ?_
  subst hk
  exact .ite Iff.rfl (.fail _ _) (allocate_mirrors hO (rel_mono hK hr) sc k.toNat)

theorem free (hr : L.rel n m) : L.SameHost [.free n o] [.free m o'] := by
  refine single (Form.folded.block_free n o) (Form.folded.block_free m o') fun K O hK hO => ?_
  simp only [exec]
  exact (remove_mirrors hO (rel_mono hK hr)).mono fun _ _ _ => trivial

theorem rebind (hr : L.rel n m) (hr' : L.rel n' m') : L.SameHost [.rebind n n' o] [.rebind m m' o'] := by
  refine single (Form.folded.block_rebind n n' o) (Form.folded.block_rebind m m' o') fun K O hK hO => ?_
  simp only [exec]
  exact (rebind_mirrors hO (rel_mono hK hr) (rel_mono hK hr')).mono fun _ _ _ => trivial

theorem fill (hi : L.Same i i') (hb : L.Same b b') (he : L.Same e e') (hr : L.rel n m) :
    L.SameHost [.fill n i b e o] [.fill m i' b' e' o'] := by
  refine single (Form.folded.block_fill n i b e o) (Form.folded.block_fill m i' b' e' o') fun K O hK hO => ?_
  simp only [exec]
  refine ((hi.follows.mono hK).number_mirrors hO fun _ _ => trivial).bind fun p p' hp => ?_
  refine ((hb.follows.mono hK).number_mirrors hO fun _ _ => trivial).bind fun q q' hq => ?_
  refine ((he.follows.mono hK).value_mirrors hO fun _ _ => trivial).bind fun v w hv => ?_
  obtain ⟨rfl, hv⟩ := hv
  subst hp hq
  exact (fill_mirrors hO (rel_mono hK hr) p q hv).mono fun _ _ _ => trivial

theorem copy (hi : L.Same i i') (hj : L.Same j j') (hb : L.Same b b') (hr : L.rel n m) (hr' : L.rel n' m') :
    L.SameHost [.copy n i n' j b o] [.copy m i' m' j' b' o'] := by
  refine single (Form.folded.block_copy n i n' j b o) (Form.folded.block_copy m i' m' j' b' o') fun K O hK hO => ?_
  simp only [exec]
  refine ((hi.follows.mono hK).number_mirrors hO fun _ _ => trivial).bind fun p p' hp => ?_
  refine ((hj.follows.mono hK).number_mirrors hO fun _ _ => trivial).bind fun q q' hq => ?_
  refine ((hb.follows.mono hK).number_mirrors hO fun _ _ => trivial).bind fun x x' hx => ?_
  subst hp hq hx
  exact (copy_mirrors hO (rel_mono hK hr) (rel_mono hK hr') p q x).mono fun _ _ _ => trivial

theorem count (he : L.Same e e') (hb : L.SameNumber b b') (hr : L.rel n m) (hw : L.word n) (h : L.SameHost l l') :
    L.SameHost [.count n e b l] [.count m e' b' l'] := by
  refine single (Form.folded.block_forLoop ..) (Form.folded.block_forLoop ..) fun K O hK hO => ?_
  have hn := SameNumber.ofName hr hw
  have hcond := (hn.compare .lt rfl hb).follows
  have hstep := (hn.op2 .add rfl (.literal (k := 1) rfl) nofun).same.follows
  exact forLoop_mirrors hO ((he.follows.mono hK).value_mirrors hO fun _ _ => trivial)
    ((hcond.mono hK).holds_mirrors hO fun _ _ => trivial) ((hstep.mono hK).value_mirrors hO fun _ _ => trivial)
    (h K O hK hO) (rel_mono hK hr) fun _ => rfl

theorem launch {x y : Kernel} (h : L.SameKernel x y) : L.SameHost [x.toStmt o] [y.toStmt o'] := by
  refine single ((foldBlock_single _).trans (Stmt.fold.eq_2 ..)) ((foldBlock_single _).trans (Stmt.fold.eq_2 ..)) fun K O hK hO => ?_
  simp only [exec]
  exact launch_mirrors (h.mono hK) hO

/-- conditions with the same values decide alike, also where folding has decided one of them -/
theorem ifElse (he : L.Same e e') (h : L.SameHost l l') (h' : L.SameHost r r') :
    L.SameHost [.ifElse e l r o] [.ifElse e' l' r' o'] := by
  intro K O hK hO s t a s' hI hs
  obtain ⟨v, hv, hs⟩ := execAll_ifElse_eq_ok (f := .folded).1 hs
  have hv' := (he.follows.mono hK) none s t v (hI.1.mono hO) (hI.2.subset fun _ _ => trivial) hv
  have hbranch : ∃ b t', execAll (Machine.launch H.second) (H.second.within none) (foldBlock (if v.truth then l' else r')) t =
      .ok b t' ∧ True ∧ K.Tied O (fun _ => True) s' t' := by
    cases hb : v.truth <;> rw [hb] at hs
    · exact h' K O hK hO s t _ s' hI hs
    · exact h K O hK hO s t _ s' hI hs
  obtain ⟨_, t', ht', -, hI⟩ := hbranch
  exact ⟨(), t', execAll_ifElse_eq_ok (f := .folded).2 ⟨v, hv', ht'⟩, trivial, hI⟩

theorem ifThen (he : L.Same e e') (h : L.SameHost l l') : L.SameHost [.ifThen e l] [.ifThen e' l'] := ifElse he h .nil

end SameHost

/-! ## Code that binds numbers -/

/-- the states are linked, under whatever is drawn later as well -/
def Ready (L : Link H) (s t : State) : Prop := ∀ O, L ≤ O → L.Tied O (fun _ => True) s t

theorem Ready.linked (h : L.Ready s t) : L.Linked s t := (h L le_rfl).1

theorem Ready.holds (h : L.Ready s t) : L.Holds (fun _ => True) t := (h L le_rfl).2

theorem Ready.extends (h : L.Ready s t) (hM : L.Extends M) : M.Ready s t := fun O hO =>
  ⟨(h O (hM.le.trans hO)).1, fun m v _ hv => h.holds m v trivial (hM.value hv)⟩

/-- the code brings linked states to states that the later link links -/
def Brings (L M : Link H) (l l' : List Stmt) : Prop := ∀ s t s', L.Ready s t →
  execAll (launch H.first) (H.first.within none) (foldBlock l) s = .ok () s' →
    ∃ t', execAll (launch H.second) (H.second.within none) (foldBlock l') t = .ok () t' ∧ M.Ready s' t'

/-- the code keeps what is linked -/
def Concludes (L : Link H) (l l' : List Stmt) : Prop := ∀ s t s', L.Ready s t →
  execAll (launch H.first) (H.first.within none) (foldBlock l) s = .ok () s' →
    ∃ t', execAll (launch H.second) (H.second.within none) (foldBlock l') t = .ok () t' ∧ L.Linked s' t'

theorem Brings.trans (h : L.Brings M l l') (h' : M.Brings N r r') : L.Brings N (l ++ r) (l' ++ r') := by
  intro s t s' hI hs
  rw [foldBlock_append, execAll_append_eq_ok] at hs
  obtain ⟨u, hu, hs⟩ := hs
  obtain ⟨w, hw, hI⟩ := h s t u hI hu
  obtain ⟨t', ht', hI⟩ := h' u w s' hI hs
  refine ⟨t', ?_, hI⟩
  rw [foldBlock_append, execAll_append_eq_ok]
  exact ⟨w, hw, ht'⟩

theorem SameHost.brings (h : M.SameHost l l') (hM : L.Extends M) : L.Brings M l l' := by
  intro s t s' hI hs
  have hI := hI.extends hM
  obtain ⟨_, t', ht', -, -⟩ := h M M le_rfl le_rfl _ _ _ _ (hI M le_rfl) hs
  refine ⟨t', ht', fun O hO => ?_⟩
  obtain ⟨_, t'', ht'', -, hO⟩ := h M O le_rfl hO _ _ _ _ (hI O hO) hs
  obtain ⟨-, rfl⟩ := EStateM.Result.ok.inj (ht'.symm.trans ht'')
  exact hO

theorem Extends.brings (h : L.Extends M) : L.Brings M [] [] := SameHost.nil.brings h

theorem Brings.concludes (h : L.Brings M l l') (hM : L ≤ M) : L.Concludes l l' := fun s t s' hI hs =>
  (h s t s' hI hs).imp fun _ ⟨ht', hI⟩ => ⟨ht', hI.linked.mono hM⟩

theorem Brings.then (h : L.Brings M l l') (hM : L ≤ M) (h' : M.Concludes r r') : L.Concludes (l ++ r) (l' ++ r') := by
  intro s t s' hI hs
  rw [foldBlock_append, execAll_append_eq_ok] at hs
  obtain ⟨u, hu, hs⟩ := hs
  obtain ⟨w, hw, hI⟩ := h s t u hI hu
  obtain ⟨t', ht', hI⟩ := h' u w s' hI hs
  refine ⟨t', ?_, hI.mono hM⟩
  rw [foldBlock_append, execAll_append_eq_ok]
  exact ⟨w, hw, ht'⟩

theorem Concludes.ifElse (he : L.Same e e') (h : L.Concludes l l') (h' : L.Concludes r r') :
    L.Concludes [.ifElse e l r o] [.ifElse e' l' r' o'] := by
  intro s t s' hI hs
  obtain ⟨v, hv, hs⟩ := execAll_ifElse_eq_ok (f := .folded).1 hs
  have hv' := he.follows none s t v hI.linked (hI.holds.subset fun _ _ => trivial) hv
  have hbranch : ∃ t', execAll (launch H.second) (H.second.within none) (foldBlock (if v.truth then l' else r')) t =
      .ok () t' ∧ L.Linked s' t' := by
    cases hb : v.truth <;> rw [hb] at hs
    · exact h' s t s' hI hs
    · exact h s t s' hI hs
  obtain ⟨t', ht', hI⟩ := hbranch
  exact ⟨t', execAll_ifElse_eq_ok (f := .folded).2 ⟨v, hv', ht'⟩, hI⟩

/-- a decision that the first program has made in advance -/
theorem Concludes.decided {x : Bool} (he : ∀ s t, L.Ready s t → eval (H.second.within none) t e'.fold = .ok (.bool x))
    (h : L.Concludes l (if x then l' else r')) : L.Concludes l [.ifElse e' l' r' o'] := by
  intro s t s' hI hs
  obtain ⟨t', ht', hI'⟩ := h s t s' hI hs
  exact ⟨t', execAll_ifElse_eq_ok (f := .folded).2 ⟨.bool x, he s t hI, ht'⟩, hI'⟩

/-! ## Generators of names -/

/-- the names that the generators draw extend the link, and `P` holds of what they return -/
def Draws (L : Link H) (x : Gen α) (y : Gen β) (P : Link H → α → β → Prop) : Prop := ∀ j k a b j' k', L.Below j k →
  x j = some (a, j') → y k = some (b, k') → ∃ M, L.Extends M ∧ M.Below j' k' ∧ P M a b

namespace Draws

variable {x : Gen α} {y : Gen β} {P P' : Link H → α → β → Prop} {f : α → Gen γ} {g : β → Gen δ}
  {Q : Link H → γ → δ → Prop}

theorem imp (h : L.Draws x y P) (hP : ∀ M a b, L ≤ M → P M a b → P' M a b) : L.Draws x y P' :=
  fun j k a b j' k' hb hx hy => (h j k a b j' k' hb hx hy).imp fun _ hM => ⟨hM.1, hM.2.1, hP _ _ _ hM.1.le hM.2.2⟩

theorem pure {a : α} {b : β} (h : P L a b) : L.Draws (Pure.pure a) (Pure.pure b) P := by
  intro j k a b j' k' hb hx hy
  cases hx
  cases hy
  exact ⟨L, .refl L, hb, h⟩

theorem bind (h : L.Draws x y P) (hf : ∀ M a b, L ≤ M → P M a b → M.Draws (f a) (g b) Q) : L.Draws (x >>= f) (y >>= g) Q := by
  intro j k c d j' k' hb hx hy
  obtain ⟨⟨a, j₁⟩, hx, hfa⟩ := Option.bind_eq_some_iff.1 hx
  obtain ⟨⟨b, k₁⟩, hy, hgb⟩ := Option.bind_eq_some_iff.1 hy
  obtain ⟨M, hM, hb, hp⟩ := h j k a b j₁ k₁ hb hx hy
  obtain ⟨N, hN, hb, hq⟩ := hf M a b hM.le hp j₁ k₁ c d j' k' hb hfa hgb
  exact ⟨N, hM.trans hN, hb, hq⟩

/-- a name for each program; whether it holds 64-bit numbers only can be chosen -/
theorem fresh (text text' : String) (w : Prop) : L.Draws (GpuHistogram.fresh text : Gen Name) (GpuHistogram.fresh text' : Gen Name)
    fun M n m => M.rel n m ∧ (M.word n ↔ w) := by
  intro j k n m j' k' hb hx hy
  cases hx
  cases hy
  exact exists_pair hb text text' w

/-- results for the members of two lists -/
theorem mapM {R : α → β → Prop} {as : List α} {bs : List β} (h : List.Forall₂ R as bs)
    (hQ : ∀ {M N c d}, M ≤ N → Q M c d → Q N c d) (hf : ∀ M a b, L ≤ M → R a b → M.Draws (f a) (g b) Q) :
    L.Draws (as.mapM f) (bs.mapM g) fun M cs ds => List.Forall₂ (Q M) cs ds := by
  suffices hall : ∀ M, L ≤ M → M.Draws (as.mapM f) (bs.mapM g) fun M cs ds => List.Forall₂ (Q M) cs ds from hall L le_rfl
  induction h with
  | nil => exact fun M _ => pure .nil
  | @cons a b as bs hx _ ih =>
    intro M hM
    rw [List.mapM_cons, List.mapM_cons]
    refine bind (hf M a b hM hx) fun M₁ c d hM₁ hcd => ?_
    exact bind (ih M₁ (hM.trans hM₁)) fun M₂ cs ds hM₂ hcs => pure (.cons (hQ hM₂ hcd) hcs)

/-! ### Generators that cannot get stuck -/

theorem liftPure {a : α} {b : β} (h : P L a b) :
    L.Draws ((Pure.pure a : GpuHistogram.Fresh α) : Gen α) ((Pure.pure b : GpuHistogram.Fresh β) : Gen β) P := pure h

theorem liftBind {x : GpuHistogram.Fresh α} {y : GpuHistogram.Fresh β} {f : α → GpuHistogram.Fresh γ} {g : β → GpuHistogram.Fresh δ}
    (h : L.Draws (x : Gen α) (y : Gen β) P) (hf : ∀ M a b, L ≤ M → P M a b → M.Draws (f a : Gen γ) (g b : Gen δ) Q) :
    L.Draws ((x >>= f : GpuHistogram.Fresh γ) : Gen γ) ((y >>= g : GpuHistogram.Fresh δ) : Gen δ) Q := bind h hf

theorem liftMapM {f : α → GpuHistogram.Fresh γ} {g : β → GpuHistogram.Fresh δ} {R : α → β → Prop} {as : List α} {bs : List β}
    (h : List.Forall₂ R as bs) (hQ : ∀ {M N c d}, M ≤ N → Q M c d → Q N c d)
    (hf : ∀ M a b, L ≤ M → R a b → M.Draws (f a : Gen γ) (g b : Gen δ) Q) :
    L.Draws ((as.mapM f : GpuHistogram.Fresh _) : Gen (List γ)) ((bs.mapM g : GpuHistogram.Fresh _) : Gen (List δ))
      fun M cs ds => List.Forall₂ (Q M) cs ds := by
  rw [coe_mapM, coe_mapM]
  exact mapM h hQ hf

end Draws

/-! ## Generators of host code -/

/-- the statements that the generators write bring linked states to states that a later link links, and `P` holds of what
they return -/
def Tracks (L : Link H) (x : Emit α) (y : Emit β) (P : Link H → α → β → Prop) : Prop := ∀ j k l₁ l₂ a b r₁ r₂ j' k',
  L.Below j k → x l₁ j = some ((a, r₁), j') → y l₂ k = some ((b, r₂), k') →
    ∃ M l l', L ≤ M ∧ M.Below j' k' ∧ r₁ = l₁ ++ l ∧ r₂ = l₂ ++ l' ∧ L.Brings M l l' ∧ P M a b

/-- the statements that the generators write keep what is linked -/
def Finishes (L : Link H) (x y : Emit Unit) : Prop := ∀ j k l₁ l₂ r₁ r₂ j' k', L.Below j k →
  x l₁ j = some (((), r₁), j') → y l₂ k = some (((), r₂), k') →
    ∃ l l', r₁ = l₁ ++ l ∧ r₂ = l₂ ++ l' ∧ L.Concludes l l'

namespace Tracks

variable {x : Emit α} {y : Emit β} {P P' : Link H → α → β → Prop} {f : α → Emit γ} {g : β → Emit δ}
  {Q : Link H → γ → δ → Prop}

theorem imp (h : L.Tracks x y P) (hP : ∀ M a b, L ≤ M → P M a b → P' M a b) : L.Tracks x y P' := by
  intro j k l₁ l₂ a b r₁ r₂ j' k' hb hx hy
  obtain ⟨M, l, l', hM, hb, hl, hl', hbrings, hp⟩ := h j k l₁ l₂ a b r₁ r₂ j' k' hb hx hy
  exact ⟨M, l, l', hM, hb, hl, hl', hbrings, hP M a b hM hp⟩

/-- generating without writing -/
theorem lift {x : Gen α} {y : Gen β} (h : L.Draws x y P) : L.Tracks (x : Emit α) (y : Emit β) P := by
  intro j k l₁ l₂ a b r₁ r₂ j' k' hb hx hy
  obtain ⟨⟨a, j₁⟩, hx, he⟩ := Option.bind_eq_some_iff.1 hx
  cases he
  obtain ⟨⟨b, k₁⟩, hy, he⟩ := Option.bind_eq_some_iff.1 hy
  cases he
  obtain ⟨M, hM, hb, hp⟩ := h j k _ _ _ _ hb hx hy
  exact ⟨M, [], [], hM.le, hb, (List.append_nil _).symm, (List.append_nil _).symm, hM.brings, hp⟩

theorem pure {a : α} {b : β} (h : P L a b) : L.Tracks (Pure.pure a) (Pure.pure b) P := lift (.pure h)

theorem bind (h : L.Tracks x y P) (hf : ∀ M a b, L ≤ M → P M a b → M.Tracks (f a) (g b) Q) :
    L.Tracks (x >>= f) (y >>= g) Q := by
  intro j k l₁ l₂ c d r₁ r₂ j' k' hb hx hy
  obtain ⟨⟨⟨a, m₁⟩, j₁⟩, hx, hfa⟩ := Option.bind_eq_some_iff.1 hx
  obtain ⟨⟨⟨b, m₂⟩, k₁⟩, hy, hgb⟩ := Option.bind_eq_some_iff.1 hy
  obtain ⟨M, l, l', hM, hb, rfl, rfl, hl, hp⟩ := h j k l₁ l₂ a b m₁ m₂ j₁ k₁ hb hx hy
  obtain ⟨N, r, r', hN, hb, rfl, rfl, hr, hq⟩ := hf M a b hM hp j₁ k₁ _ _ c d r₁ r₂ j' k' hb hfa hgb
  exact ⟨N, l ++ r, l' ++ r', hM.trans hN, hb, List.append_assoc .., List.append_assoc .., hl.trans hr, hq⟩

/-- writing statements -/
theorem stmts (h : L.SameHost l l') : L.Tracks (Emit.stmts l) (Emit.stmts l') fun _ _ _ => True := by
  intro j k l₁ l₂ a b r₁ r₂ j' k' hb hx hy
  cases hx
  cases hy
  exact ⟨L, l, l', le_rfl, hb, rfl, rfl, h.brings (.refl L), trivial⟩

theorem stmt {a b : Stmt} (h : L.SameHost [a] [b]) : L.Tracks (Emit.stmt a) (Emit.stmt b) fun _ _ _ => True := stmts h

/-- results for the members of two lists -/
theorem mapM {R : α → β → Prop} {as : List α} {bs : List β} (h : List.Forall₂ R as bs)
    (hQ : ∀ {M N c d}, M ≤ N → Q M c d → Q N c d) (hf : ∀ M a b, L ≤ M → R a b → M.Tracks (f a) (g b) Q) :
    L.Tracks (as.mapM f) (bs.mapM g) fun M cs ds => List.Forall₂ (Q M) cs ds := by
  suffices hall : ∀ M, L ≤ M → M.Tracks (as.mapM f) (bs.mapM g) fun M cs ds => List.Forall₂ (Q M) cs ds from hall L le_rfl
  induction h with
  | nil => exact fun M _ => pure .nil
  | @cons a b as bs hx _ ih =>
    intro M hM
    rw [List.mapM_cons, List.mapM_cons]
    refine bind (hf M a b hM hx) fun M₁ c d hM₁ hcd => ?_
    exact bind (ih M₁ (hM.trans hM₁)) fun M₂ cs ds hM₂ hcs => pure (.cons (hQ hM₂ hcd) hcs)

theorem finishes {x y : Emit Unit} {P : Link H → Unit → Unit → Prop} (h : L.Tracks x y P) : L.Finishes x y := by
  intro j k l₁ l₂ r₁ r₂ j' k' hb hx hy
  obtain ⟨M, l, l', hM, -, hl, hl', hbrings, -⟩ := h j k l₁ l₂ _ _ r₁ r₂ j' k' hb hx hy
  exact ⟨l, l', hl, hl', hbrings.concludes hM⟩

end Tracks

theorem Finishes.bind {x : Emit α} {y : Emit β} {P : Link H → α → β → Prop} {f : α → Emit Unit} {g : β → Emit Unit}
    (h : L.Tracks x y P) (hf : ∀ M a b, L ≤ M → P M a b → M.Finishes (f a) (g b)) : L.Finishes (x >>= f) (y >>= g) := by
  intro j k l₁ l₂ r₁ r₂ j' k' hb hx hy
  obtain ⟨⟨⟨a, m₁⟩, j₁⟩, hx, hfa⟩ := Option.bind_eq_some_iff.1 hx
  obtain ⟨⟨⟨b, m₂⟩, k₁⟩, hy, hgb⟩ := Option.bind_eq_some_iff.1 hy
  obtain ⟨M, l, l', hM, hb, rfl, rfl, hl, hp⟩ := h j k l₁ l₂ a b m₁ m₂ j₁ k₁ hb hx hy
  obtain ⟨r, r', rfl, rfl, hr⟩ := hf M a b hM hp j₁ k₁ _ _ r₁ r₂ j' k' hb hfa hgb
  exact ⟨l ++ r, l' ++ r', List.append_assoc .., List.append_assoc .., hl.then hM hr⟩

end Machine.Link

end GpuHistogram
