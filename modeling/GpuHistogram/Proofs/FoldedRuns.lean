/-
Folding and runs. `Simulates x y` says of two computations that from every state in which variables and arrays have their
types `y` succeeds as `x` does, with the same result and the same state, and that this state has the types again. There
is one rule for each way in which computations are put together, so the proof for statements (`exec_fold`) goes along
their shape: folded expressions have the same values, and a conditional that folding has decided takes the branch that
was left.

Launches are the reason for the second half. Folding changes the body of a kernel but neither where its barriers are
(`phases_foldBlock`) nor what it captures, so the folded kernel has the folded phases, and each thread runs them in turn.
-/
import GpuHistogram.Proofs.FoldedValues
import GpuHistogram.Proofs.Launches

namespace GpuHistogram.Machine

variable {α β : Type} {Γ : Typing} {c : Context} {s t : State}

/-- the state has the types of the typing, and the buffers of before are there with their types -/
structure State.Evolves (Γ : Typing) (s t : State) : Prop where
  conforms : t.Conforms Γ
  elems : s.memory.KeepsElems t.memory

/-- where `x` succeeds from a state with the types of the typing, `y` does the same -/
def Simulates (Γ : Typing) (x y : Exec α) (Q : α → Prop) : Prop :=
  ∀ (s : State) (a : α) (t : State), s.Conforms Γ → x s = .ok a t → y s = .ok a t ∧ s.Evolves Γ t ∧ Q a

namespace Simulates

variable {x y : Exec α} {Q : α → Prop}

theorem mono {R : α → Prop} (h : Simulates Γ x y Q) (hQ : ∀ a, Q a → R a) : Simulates Γ x y R := fun _ _ _ hs hx =>
  (h _ _ _ hs hx).imp_right (And.imp_right (hQ _))

theorem pure {a : α} (h : Q a) : Simulates Γ (Pure.pure a) (Pure.pure a) Q := fun s b t hs hx => by
  obtain ⟨rfl, rfl⟩ := pure_eq_ok.1 hx
  exact ⟨rfl, ⟨hs, .refl _⟩, h⟩

theorem fail (cause : Cause) (o : Origin) : Simulates Γ (Machine.fail cause o : Exec α) y Q := fun _ _ _ _ hx =>
  (fail_eq_ok.1 hx).elim

theorem bind {f g : α → Exec β} {R : β → Prop} (h : Simulates Γ x y Q) (hf : ∀ a, Q a → Simulates Γ (f a) (g a) R) :
    Simulates Γ (x >>= f) (y >>= g) R := fun s b t hs hx => by
  obtain ⟨a, u, ha, hb⟩ := bind_eq_ok.1 hx
  obtain ⟨hy, hu, hq⟩ := h _ _ _ hs ha
  obtain ⟨hg, ht, hr⟩ := hf a hq _ _ _ hu.conforms hb
  exact ⟨bind_eq_ok.2 ⟨a, u, hy, hg⟩, ⟨ht.conforms, hu.elems.trans ht.elems⟩, hr⟩

theorem ite {x' y' : Exec α} {p : Prop} [Decidable p] (h : Simulates Γ x y Q) (h' : Simulates Γ x' y' Q) :
    Simulates Γ (if p then x else x') (if p then y else y') Q := by
  split_ifs
  · exact h
  · exact h'

theorem observe {f g : State → Except Fault α} (h : ∀ {s a}, s.Conforms Γ → f s = .ok a → g s = .ok a ∧ Q a) :
    Simulates Γ (Machine.observe f) (Machine.observe g) Q := fun s a t hs hx => by
  obtain ⟨hf, rfl⟩ := observe_eq_ok.1 hx
  obtain ⟨hg, hq⟩ := h hs hf
  exact ⟨observe_eq_ok.2 ⟨hg, rfl⟩, ⟨hs, .refl _⟩, hq⟩

variable {e : Expr}

/-- a folded expression has the value of the expression, which is of its type -/
theorem value (he : e.Foldable Γ) :
    Simulates Γ (Machine.value c e) (Machine.value c e.fold) fun v => v.Fits v.scalar :=
  observe fun hs hv => ⟨eval_fold he hs hv, (eval_fits he.typed hs hv).own⟩

theorem number (he : e.Foldable Γ) : Simulates Γ (Machine.number c e) (Machine.number c e.fold) fun _ => True :=
  (value he).bind fun _ _ => .pure trivial

theorem holds (he : e.Foldable Γ) : Simulates Γ (Machine.holds c e) (Machine.holds c e.fold) fun _ => True :=
  (value he).bind fun _ _ => .pure trivial

theorem setVar {n : Name} {sc : Scalar} {v : Value} (hn : Γ.vars n = some sc) (hv : v.Fits sc) :
    Simulates Γ (Machine.setVar n v) (Machine.setVar n v) fun _ => True := fun s a t hs hx => by
  obtain rfl := setVar_eq_ok.1 hx
  refine ⟨hx, ⟨hs.set fun sc' h => ?_, .refl _⟩, trivial⟩
  exact Option.some.inj (hn.symm.trans h) ▸ hv

theorem onMemory {o : Origin} {change : Memory.Change α}
    (h : ∀ {m a m'}, m.Conforms Γ → change m = .ok a m' → m'.Conforms Γ ∧ m.KeepsElems m') :
    Simulates Γ (Machine.onMemory o change) (Machine.onMemory o change) fun _ => True := fun s a t hs hx => by
  obtain ⟨m, hm, rfl⟩ := onMemory_eq_ok.1 hx
  obtain ⟨hc, he⟩ := h hs.memory hm
  exact ⟨hx, ⟨⟨hs.vars, hc⟩, he⟩, trivial⟩

/-- a new array -/
theorem insert {n : Name} {b : Buffer} (hb : b.Uniform) (hn : Γ.arrays n = some b.elem) :
    Simulates Γ (modify fun s => { s with memory := s.memory.insert n b } : Exec Unit)
      (modify fun s => { s with memory := s.memory.insert n b }) fun _ => True := fun s a t hs hx => by
  cases hx
  obtain ⟨hc, he⟩ := hs.memory.insert hb hn
  exact ⟨rfl, ⟨⟨hs.vars, hc⟩, he⟩, trivial⟩

theorem allocate {n : Name} {sc : Scalar} (hn : Γ.arrays n = some sc) (count : ℕ) (o : Origin) :
    Simulates Γ (Machine.allocate n sc count o) (Machine.allocate n sc count o) fun _ => True := by
  unfold Machine.allocate
  exact .ite (.fail _ _) (.insert (Buffer.uniform_zeros sc count) hn)

theorem write {n : Name} {k : Int} {v : Value} (hv : v.Fits v.scalar) (o : Origin) :
    Simulates Γ (Machine.onMemory o (Memory.write n k v)) (Machine.onMemory o (Memory.write n k v)) fun _ => True :=
  .onMemory fun hm h => by
    obtain ⟨p, j, -, rfl⟩ := Memory.write_eq_ok h
    exact hm.store (by simpa using hv) p j

theorem read {n : Name} {k : Int} {o : Origin} :
    Simulates Γ (Machine.observe fun s => liftMemory o (s.memory.read n k))
      (Machine.observe fun s => liftMemory o (s.memory.read n k)) fun v => v.Fits v.scalar :=
  .observe fun hs hv => ⟨hv, hs.memory.read (liftMemory_eq_ok.1 hv)⟩

theorem values {es : List Expr} (h : ∀ e ∈ es, e.Foldable Γ) :
    Simulates Γ (es.mapM (Machine.value c)) ((es.map Expr.fold).mapM (Machine.value c))
      fun vs => ∀ v ∈ vs, v.Fits v.scalar := by
  induction es with
  | nil => exact .pure (by simp)
  | cons e es ih =>
    rw [List.forall_mem_cons] at h
    rw [List.map_cons, List.mapM_cons, List.mapM_cons]
    exact (value h.1).bind fun v hv => (ih h.2).bind fun vs hvs => .pure (List.forall_mem_cons.2 ⟨hv, hvs⟩)

/-- a loop whose condition and round do the same -/
theorem iterate {cond cond' : Exec Bool} {round round' : Exec Unit} (hc : Simulates Γ cond cond' fun _ => True)
    (hr : Simulates Γ round round' fun _ => True) (limit : Int) (o : Origin) (left : ℕ) :
    Simulates Γ (Machine.iterate cond round limit o left) (Machine.iterate cond' round' limit o left) fun _ => True := by
  induction left with
  | zero => exact hc.bind fun _ _ => .ite (.fail _ _) (.pure trivial)
  | succ left ih => exact hc.bind fun _ _ => .ite (hr.bind fun _ _ => ih) (.pure trivial)

end Simulates

/-! ## Statements -/

theorem execDefine_fold {ty : Ty} {n : Name} {e : Expr} {o : Origin} (he : e.Foldable Γ)
    (hn : Γ.vars n = some ty.elem) :
    Simulates Γ (execDefine c ty n e o) (execDefine c ty n e.fold o) fun _ => True := by
  cases ty with
  | scalar sc => exact (Simulates.value he).bind fun v hv => .setVar hn (hv.convert sc)
  | pointer sc sp => exact .fail _ _

theorem execAssign_fold {dst e : Expr} {o : Origin} (hd : dst.Foldable Γ) (he : e.Foldable Γ) :
    Simulates Γ (execAssign c dst e o) (execAssign c dst.fold e.fold o) fun _ => True := by
  refine (Simulates.value he).bind fun v hv => ?_
  cases dst with
  | var n ty o' => exact .setVar hd.typed (hv.convert ty.elem)
  | access t i ty o' =>
    cases t with
    | var n ty' o'' =>
      refine Simulates.bind (Q := fun _ => True) (.observe fun _ h => ⟨h, trivial⟩) fun n' _ => ?_
      exact (Simulates.number ⟨hd.typed.2, hd.casts⟩).bind fun k _ =>
        (Simulates.write hv o).bind fun _ _ => .pure trivial
    | _ => exact hd.typed.1.elim
  | _ => exact .fail _ _

theorem execAtomic_fold {op : Atomic} {sc : Scalar} {n : Name} {i e : Expr} {old : Option Name} {o : Origin}
    (hi : i.Foldable Γ) (he : e.Foldable Γ) (hold : ∀ x ∈ old, Γ.vars x = some sc) :
    Simulates Γ (execAtomic c op sc n i e old o) (execAtomic c op sc n i.fold e.fold old o) fun _ => True := by
  refine (Simulates.number hi).bind fun k _ => (Simulates.value he).bind fun v hv => Simulates.read.bind fun w hw => ?_
  have hcur := hw.convert sc
  refine Simulates.bind (Q := fun r => r.Fits r.scalar) (.observe fun _ h => ⟨h, ?_⟩) fun r hr => ?_
  · exact (Atomic.fits_of_eval hcur hv (liftArithmetic_eq_ok.1 h)).own
  · refine (Simulates.write hr o).bind fun _ _ => ?_
    cases old with
    | none => exact .pure trivial
    | some x => exact .setVar (hold x rfl) hcur

theorem execCompareSwap_fold {old : Name} {sc : Scalar} {n : Name} {i cmp new : Expr} {o : Origin} (hi : i.Foldable Γ)
    (hc : cmp.Foldable Γ) (hn : new.Foldable Γ) (hold : Γ.vars old = some sc.bitPattern) :
    Simulates Γ (execCompareSwap c old sc n i cmp new o) (execCompareSwap c old sc n i.fold cmp.fold new.fold o)
      fun _ => True := by
  refine (Simulates.number hi).bind fun k _ => (Simulates.value hc).bind fun v _ => (Simulates.value hn).bind fun w _ =>
    Simulates.read.bind fun r _ => ?_
  have hset := Simulates.setVar (Γ := Γ) hold (Value.fits_ofBits r.toBits sc.bitPattern)
  exact .ite ((Simulates.write (Value.fits_ofBits _ sc).own o).bind fun _ _ => hset) hset

variable {E : Expr → Prop} {L : LaunchSpec → List Stmt → Exec Unit}

theorem Simulates.single {x y : Stmt} {l : List Stmt} (hl : l = [y])
    (h : Simulates Γ (exec L c x) (exec L c y) fun _ => True) :
    Simulates Γ (exec L c x) (execAll L c l) fun _ => True := fun s a t hs hx => by
  rw [hl, execAll_singleton]
  exact h s a t hs hx

/-- a conditional; when folding decides it, the branch taken stands for it -/
theorem ifElse_fold {cond : Expr} {thn els : List Stmt} {o : Origin} (hc : cond.Foldable Γ)
    (ht : Simulates Γ (execAll L c thn) (execAll L c (foldBlock thn)) fun _ => True)
    (he : Simulates Γ (execAll L c els) (execAll L c (foldBlock els)) fun _ => True) :
    Simulates Γ (exec L c (.ifElse cond thn els o)) (execAll L c (Stmt.fold (.ifElse cond thn els o)))
      fun _ => True := by
  have hplain {e : Expr} (hfold : cond.fold = e) :
      Simulates Γ (exec L c (.ifElse cond thn els o)) (exec L c (.ifElse e (foldBlock thn) (foldBlock els) o))
        fun _ => True := by
    simp only [exec]
    exact (hfold ▸ Simulates.holds hc).bind fun b _ => .ite ht he
  have hliteral {b : Bool} {ty : Ty} {o' : Origin} (hfold : cond.fold = .bool b ty o') :
      Simulates Γ (exec L c (.ifElse cond thn els o)) (execAll L c (if b then foldBlock thn else foldBlock els))
        fun _ => True := fun s a t hs hx => by
    have h := hplain hfold s a t hs hx
    simp only [exec] at h
    cases b
    · exact h
    · exact h
  rw [Stmt.fold]
  split
  · exact hliteral ‹_›
  · exact hliteral ‹_›
  · exact .single rfl (hplain rfl)

mutual

/-- **A folded statement does what the statement does.** -/
theorem exec_fold (hE : ∀ e, E e → e.Foldable Γ)
    (hL : ∀ spec body o, (Stmt.launch spec body o).Typed Γ E →
      Simulates Γ (L spec body) (L spec.fold (foldBlock body)) fun _ => True) :
    ∀ {x : Stmt}, x.Typed Γ E → Simulates Γ (exec L c x) (execAll L c x.fold) fun _ => True
  | .define ty n e o, h => by
    simp only [Stmt.Typed] at h
    refine .single (Form.folded.block_define ty n e o) ?_
    simp only [exec]
    exact execDefine_fold (hE e h.1) h.2
  | .assign dst e o, h => by
    simp only [Stmt.Typed] at h
    refine .single (Form.folded.block_assign dst e o) ?_
    simp only [exec]
    exact execAssign_fold (hE dst h.1) (hE e h.2)
  | .forLoop ty n init cond incr body o, h => by
    simp only [Stmt.Typed] at h
    obtain ⟨hinit, hcond, hincr, hn, hbody⟩ := h
    refine .single (Form.folded.block_forLoop ty n init cond incr body o) ?_
    simp only [exec]
    refine (Simulates.value (hE init hinit)).bind fun v hv => (Simulates.setVar hn (hv.convert ty.elem)).bind fun _ _ => ?_
    refine .iterate (.holds (hE cond hcond)) ?_ c.loopLimit o c.rounds
    exact (execAll_fold hE hL hbody).bind fun _ _ => (Simulates.value (hE incr hincr)).bind fun w hw =>
      .setVar hn (hw.convert ty.elem)
  | .ifElse cond thn els o, h => by
    simp only [Stmt.Typed] at h
    obtain ⟨hcond, hthn, hels⟩ := h
    exact ifElse_fold (hE cond hcond) (execAll_fold hE hL hthn) (execAll_fold hE hL hels)
  | .whileLoop cond body o, h => by
    simp only [Stmt.Typed] at h
    refine .single (Form.folded.block_whileLoop cond body o) ?_
    simp only [exec]
    exact .iterate (.holds (hE cond h.1)) (execAll_fold hE hL h.2) c.loopLimit o c.rounds
  | .scope body o, h => by
    simp only [Stmt.Typed] at h
    refine .single (Form.folded.block_scope body o) ?_
    simp only [exec]
    exact execAll_fold hE hL h
  | .barrier b o, _ => by
    refine .single (Form.folded.block_barrier b o) ?_
    simp only [exec]
    exact .fail _ _
  | .fence m o, _ => by
    refine .single (Form.folded.block_fence m o) ?_
    simp only [exec]
    exact .pure trivial
  | .atomic op m sc n i e old o, h => by
    simp only [Stmt.Typed] at h
    refine .single (Form.folded.block_atomic op m sc n i e old o) ?_
    simp only [exec]
    exact execAtomic_fold (hE i h.1) (hE e h.2.1) h.2.2
  | .compareSwap old m sc n i cmp new o, h => by
    simp only [Stmt.Typed] at h
    refine .single (Form.folded.block_compareSwap old m sc n i cmp new o) ?_
    simp only [exec]
    exact execCompareSwap_fold (hE i h.1) (hE cmp h.2.1) (hE new h.2.2.1) h.2.2.2
  | .alloc n sc count o, h => by
    simp only [Stmt.Typed] at h
    refine .single (Form.folded.block_alloc n sc count o) ?_
    simp only [exec]
    exact .ite (.fail _ _) ((Simulates.number (hE count h.1)).bind fun k _ => .ite (.fail _ _) (.allocate h.2 _ o))
  | .free n o, _ => by
    refine .single (Form.folded.block_free n o) ?_
    simp only [exec]
    exact .ite (.fail _ _) (.onMemory fun hm h => Memory.Conforms.of_remove hm h)
  | .copy dst i src j k o, h => by
    simp only [Stmt.Typed] at h
    refine .single (Form.folded.block_copy dst i src j k o) ?_
    simp only [exec]
    exact .ite (.fail _ _) ((Simulates.number (hE i h.1)).bind fun a _ => (Simulates.number (hE j h.2.1)).bind fun b _ =>
      (Simulates.number (hE k h.2.2)).bind fun d _ => .onMemory fun hm h => Memory.Conforms.of_copy hm h)
  | .fill n i k e o, h => by
    simp only [Stmt.Typed] at h
    refine .single (Form.folded.block_fill n i k e o) ?_
    simp only [exec]
    exact .ite (.fail _ _) ((Simulates.number (hE i h.1)).bind fun a _ => (Simulates.number (hE k h.2.1)).bind fun b _ =>
      (Simulates.value (hE e h.2.2)).bind fun v hv => .onMemory fun hm h => Memory.Conforms.of_fill hm hv h)
  | .rebind dst src o, h => by
    simp only [Stmt.Typed] at h
    refine .single (Form.folded.block_rebind dst src o) ?_
    simp only [exec]
    exact .ite (.fail _ _) (.onMemory fun hm hr => Memory.Conforms.of_rebind hm h hr)
  | .table n sc values o, h => by
    simp only [Stmt.Typed] at h
    refine .single (Form.folded.block_table n sc values o) ?_
    simp only [exec]
    exact .ite (.fail _ _) ((Simulates.values fun e he => hE e (h.1 e he)).bind fun vs hvs =>
      .insert (Buffer.uniform_ofValues sc hvs) h.2)
  | .launch spec body o, h => by
    refine .single (Form.folded.block_launch spec body o) ?_
    simp only [exec]
    exact .ite (.fail _ _) (hL spec body o h)

theorem execAll_fold (hE : ∀ e, E e → e.Foldable Γ)
    (hL : ∀ spec body o, (Stmt.launch spec body o).Typed Γ E →
      Simulates Γ (L spec body) (L spec.fold (foldBlock body)) fun _ => True) :
    ∀ {l : List Stmt}, blockTyped Γ E l → Simulates Γ (execAll L c l) (execAll L c (foldBlock l)) fun _ => True
  | [], _ => by
    rw [execAll, foldBlock, execAll]
    exact .pure trivial
  | x :: l, h => by
    intro s a t hs hx
    rw [blockTyped] at h
    obtain ⟨u, hu, ht⟩ := execAll_cons_eq_ok.1 hx
    obtain ⟨hu', he, -⟩ := exec_fold hE hL h.1 s () u hs hu
    obtain ⟨ht', he', -⟩ := execAll_fold hE hL h.2 u a t he.conforms ht
    rw [foldBlock]
    exact ⟨execAll_append_eq_ok.2 ⟨u, hu', ht'⟩, ⟨he'.conforms, he.elems.trans he'.elems⟩, trivial⟩

end

/-! ## The phases of a kernel -/

theorem mem_foldBlock {x : Stmt} {l : List Stmt} : x ∈ foldBlock l ↔ ∃ s ∈ l, x ∈ s.fold := by
  induction l with
  | nil => simp [foldBlock]
  | cons s l ih => simp [foldBlock, ih]

theorem isBarrier_eq_true {x : Stmt} (h : isBarrier x = true) : ∃ b o, x = .barrier b o := by
  cases x <;> first | exact ⟨_, _, rfl⟩ | cases h

/-- code without barriers goes to the first phase of what follows it -/
theorem phases_prepend {l rest p : List Stmt} {ps : List (List Stmt)} (h : anyBarrier l = false)
    (hr : phases rest = p :: ps) : phases (l ++ rest) = (l ++ p) :: ps := by
  induction l with
  | nil => exact hr
  | cons x l ih =>
    have hx := (isBarrier_of_anyBarrier h (List.mem_cons_self ..)).1
    simp only [anyBarrier, Bool.or_eq_false_iff] at h
    rw [List.cons_append, phases, hx, ih h.2]
    rfl

/-- **Barriers stay.** The phases of a folded body are the folded phases. -/
theorem phases_foldBlock {l : List Stmt} (h : ∀ x ∈ l, isBarrier x = true ∨ hasBarrier x = false) :
    phases (foldBlock l) = (phases l).map foldBlock := by
  induction l with
  | nil => simp [phases, foldBlock]
  | cons x l ih =>
    rw [List.forall_mem_cons] at h
    rw [foldBlock]
    obtain ⟨p, ps, hl⟩ := List.exists_cons_of_ne_nil (phases_ne_nil l)
    have hfold := ih h.2
    cases hx : isBarrier x with
    | true =>
      obtain ⟨b, o, rfl⟩ := isBarrier_eq_true hx
      have hb : Stmt.fold (.barrier b o) = [.barrier b o] := by simp [Stmt.fold, Stmt.mapExprs]
      rw [hb, List.singleton_append, phases, phases, if_pos hx, if_pos hx, hfold, List.map_cons, foldBlock]
    | false =>
      have hnot := h.1.resolve_left (by simp [hx])
      rw [hl, List.map_cons] at hfold
      rw [phases_prepend (anyBarrier_fold hnot) hfold, phases, hl, hx]
      simp [foldBlock]

theorem topLevelPhases_fold {spec : LaunchSpec} {body : List Stmt} {ps : List (List Stmt)}
    (h : topLevelPhases spec body = .ok ps) :
    topLevelPhases spec.fold (foldBlock body) = .ok (ps.map foldBlock) ∧ ∀ p ∈ ps, ∀ x ∈ p, x ∈ body := by
  unfold topLevelPhases at h ⊢
  split_ifs at h with hany
  cases h
  have htop : ∀ x ∈ body, isBarrier x = true ∨ hasBarrier x = false := by
    simpa [or_iff_not_imp_left] using hany
  rw [if_neg, phases_foldBlock htop]
  · exact ⟨rfl, fun p hp x => mem_phases hp⟩
  · simp only [List.any_eq_true, not_exists, not_and, Bool.and_eq_true, Bool.not_eq_true', Bool.not_eq_true]
    intro x hx hb
    obtain ⟨y, hy, hxy⟩ := mem_foldBlock.1 hx
    rcases htop y hy with hbar | hnot
    · obtain ⟨b, o, rfl⟩ := isBarrier_eq_true hbar
      simp only [Stmt.fold, Stmt.mapExprs] at hxy
      rw [List.mem_singleton.1 hxy] at hb
      cases hb
    · exact (isBarrier_of_anyBarrier (anyBarrier_fold hnot) hxy).2

/-! ## Preparing a launch -/

theorem evalInt_fold {e : Expr} (he : e.Foldable Γ) (hs : s.Conforms Γ) {n : Int} (h : evalInt c s e = .ok n) :
    evalInt c s e.fold = .ok n := by
  obtain ⟨v, hv, hn⟩ := except_bind_eq_ok.1 h
  exact except_bind_eq_ok.2 ⟨v, eval_fold he hs hv, hn⟩

theorem evalAxes_fold {gs ts : List Expr} (hg : ∀ e ∈ gs, e.Foldable Γ) (ht : ∀ e ∈ ts, e.Foldable Γ)
    (hs : s.Conforms Γ) {r : List Int × List Int} (h : evalAxes c s gs ts = .ok r) :
    evalAxes c s (gs.map Expr.fold) (ts.map Expr.fold) = .ok r := by
  induction gs generalizing ts r with
  | nil => exact h
  | cons g gs ih =>
    cases ts with
    | nil => exact h
    | cons t ts =>
      rw [List.forall_mem_cons] at hg ht
      rw [evalAxes] at h
      obtain ⟨n, hn, h⟩ := except_bind_eq_ok.1 h
      obtain ⟨k, hk, h⟩ := except_bind_eq_ok.1 h
      obtain ⟨q, hq, h⟩ := except_bind_eq_ok.1 h
      rw [List.map_cons, List.map_cons, evalAxes]
      exact except_bind_eq_ok.2 ⟨n, evalInt_fold hg.1 hs hn, except_bind_eq_ok.2 ⟨k, evalInt_fold ht.1 hs hk,
        except_bind_eq_ok.2 ⟨q, ih hg.2 ht.2 hq, h⟩⟩⟩

theorem shape_fold {spec : LaunchSpec} (hg : ∀ e ∈ spec.groups, e.Foldable Γ) (ht : ∀ e ∈ spec.groupSize, e.Foldable Γ)
    (hs : s.Conforms Γ) {sh : Shape} (h : shape c s spec = .ok sh) : shape c s spec.fold = .ok sh := by
  have hdims : spec.fold.dims = spec.dims := List.length_map ..
  have hlength : spec.fold.groupSize.length = spec.groupSize.length := List.length_map ..
  cases haxes : evalAxes c s spec.groups spec.groupSize with
  | error f =>
    unfold shape at h
    rw [haxes] at h
    split_ifs at h
    · cases h
    · cases h
  | ok r =>
    have hfold : evalAxes c s spec.fold.groups spec.fold.groupSize = .ok r := evalAxes_fold hg ht hs haxes
    unfold shape at h ⊢
    rw [hdims, hlength, hfold]
    rw [haxes] at h
    exact h

theorem capture_fold (spec : LaunchSpec) (l : List (Name × Ty)) : capture s spec.fold l = capture s spec l := by
  induction l with
  | nil => rfl
  | cons x l ih =>
    simp only [capture, ih]
    rfl

theorem except_mem_of_mapM {ε α β : Type} {f : α → Except ε β} {l : List α} {r : List β} (h : l.mapM f = .ok r) {b : β}
    (hb : b ∈ r) : ∃ a ∈ l, f a = .ok b := by
  induction l generalizing r with
  | nil =>
    rw [List.mapM_nil] at h
    obtain rfl := except_pure_eq_ok.1 h
    cases hb
  | cons a l ih =>
    rw [List.mapM_cons] at h
    obtain ⟨b', hb', h⟩ := except_bind_eq_ok.1 h
    obtain ⟨r', hr', h⟩ := except_bind_eq_ok.1 h
    obtain rfl := except_pure_eq_ok.1 h
    rcases List.mem_cons.1 hb with rfl | hb
    · exact ⟨a, List.mem_cons_self .., hb'⟩
    · obtain ⟨a', ha', hfa⟩ := ih hr' hb
      exact ⟨a', List.mem_cons_of_mem _ ha', hfa⟩

theorem evalBlocks_typed {spec : LaunchSpec} (hb : ∀ b ∈ spec.blocks, Γ.arrays b.name = some b.elem)
    {bs : List SizedBlock} (h : evalBlocks c s spec = .ok bs) : ∀ b ∈ bs, Γ.arrays b.name = some b.elem := by
  intro b hmem
  obtain ⟨b', hb', hf⟩ := except_mem_of_mapM h hmem
  dsimp only at hf
  split at hf
  all_goals
    obtain ⟨n, -, hf⟩ := except_bind_eq_ok.1 hf
    split_ifs at hf
    · cases hf
    · obtain rfl := except_pure_eq_ok.1 hf
      exact hb b' hb'

/-- **Preparing a launch.** A folded kernel is launched in the same shape with the same variables and local memory, and
its phases are the folded ones. -/
theorem prepare_fold (hE : ∀ e, E e → e.Foldable Γ) {spec : LaunchSpec} {body : List Stmt} {o : Origin}
    (hk : (Stmt.launch spec body o).Typed Γ E) (hs : s.Conforms Γ) {p : Prepared} (h : prepare c s spec body = .ok p) :
    prepare c s spec.fold (foldBlock body) = .ok { p with phases := p.phases.map foldBlock } ∧
      Admits Γ p.captured ∧ (∀ b ∈ p.blocks, Γ.arrays b.name = some b.elem) ∧ ∀ l ∈ p.phases, blockTyped Γ E l := by
  simp only [Stmt.Typed] at hk
  obtain ⟨hgroups, hsize, hblocks, hbody⟩ := hk
  obtain ⟨sh, hsh, h⟩ := except_bind_eq_ok.1 h
  obtain ⟨ps, hps, h⟩ := except_bind_eq_ok.1 h
  obtain ⟨captured, hcap, h⟩ := except_bind_eq_ok.1 h
  obtain ⟨blocks, hbl, h⟩ := except_bind_eq_ok.1 h
  obtain rfl := except_pure_eq_ok.1 h
  have hshape := shape_fold (fun e he => hE e (hgroups e he)) (fun e he => hE e (hsize e he)) hs hsh
  obtain ⟨hphases, hmem⟩ := topLevelPhases_fold hps
  refine ⟨?_, fun n sc v hn hv => hs.vars n sc v hn ?_, evalBlocks_typed hblocks hbl,
    fun l hl => blockTyped_iff.2 fun x hx => blockTyped_iff.1 hbody x (hmem l hl x hx)⟩
  · unfold prepare
    rw [hshape, hphases, capture_fold]
    change (do
      let captured ← capture s spec spec.captures
      let blocks ← evalBlocks c s spec
      return (⟨sh, ps.map foldBlock, captured, blocks⟩ : Prepared)) = _
    rw [hcap, hbl]
    rfl
  · rw [capture_get? hcap] at hv
    split_ifs at hv
    exact hv

/-! ## The grid -/

/-- the variables of a thread after a phase have their types again -/
theorem runThread_fold (hE : ∀ e, E e → e.Foldable Γ) {phase : List Stmt} (hp : blockTyped Γ E phase)
    {vars : Bindings Value} (hv : Admits Γ vars) :
    Simulates Γ (runThread c phase vars) (runThread c (foldBlock phase) vars) (Admits Γ) := by
  have hset : Simulates Γ (modify fun s => { s with vars := vars } : Exec Unit) (modify fun s => { s with vars := vars })
      fun _ => True := fun s a t hs hx => by
    cases hx
    exact ⟨rfl, ⟨⟨hv, hs.memory⟩, .refl _⟩, trivial⟩
  have hget : Simulates Γ (do return (← get).vars : Exec (Bindings Value)) (do return (← get).vars) (Admits Γ) :=
    fun s a t hs hx => by
      cases hx
      exact ⟨rfl, ⟨hs, .refl _⟩, hs.vars⟩
  exact hset.bind fun _ _ => (execAll_fold hE (fun _ _ _ _ => .fail _ _) hp).bind fun _ _ => hget

theorem runPhase_fold (hE : ∀ e, E e → e.Foldable Γ) (place : Triple → Context) {phase : List Stmt}
    (hp : blockTyped Γ E phase) {threads : List Thread} (ht : ∀ th ∈ threads, Admits Γ th.vars) :
    Simulates Γ (runPhase place phase threads) (runPhase place (foldBlock phase) threads)
      fun ths => ∀ th ∈ ths, Admits Γ th.vars := by
  induction threads with
  | nil => exact .pure ht
  | cons th threads ih =>
    rw [List.forall_mem_cons] at ht
    exact (runThread_fold hE hp ht.1).bind fun vars hvars => (ih ht.2).bind fun ths hths =>
      .pure (List.forall_mem_cons.2 ⟨hvars, hths⟩)

theorem runPhases_fold (hE : ∀ e, E e → e.Foldable Γ) (place : Triple → Context) {phases : List (List Stmt)}
    (hp : ∀ l ∈ phases, blockTyped Γ E l) {threads : List Thread} (ht : ∀ th ∈ threads, Admits Γ th.vars) :
    Simulates Γ (runPhases place threads phases) (runPhases place threads (phases.map foldBlock)) fun _ => True := by
  induction phases generalizing threads with
  | nil => exact .pure trivial
  | cons l phases ih =>
    rw [List.forall_mem_cons] at hp
    exact (runPhase_fold hE place hp.1 ht).bind fun ths hths => ih hp.2 hths

theorem Simulates.allocateBlocks (o : Origin) {blocks : List SizedBlock}
    (h : ∀ b ∈ blocks, Γ.arrays b.name = some b.elem) :
    Simulates Γ (Machine.allocateBlocks o blocks) (Machine.allocateBlocks o blocks) fun _ => True := by
  induction blocks with
  | nil => exact .pure trivial
  | cons b blocks ih =>
    rw [List.forall_mem_cons] at h
    exact (Simulates.allocate h.1 b.count o).bind fun _ _ => ih h.2

/-- what runs with names of its own leaves the names of before, and these have their types -/
theorem Simulates.isolated {x y : Exec Unit} (h : Simulates Γ x y fun _ => True) :
    Simulates Γ (Machine.isolated x) (Machine.isolated y) fun _ => True := fun s a t hs hx => by
  unfold Machine.isolated at hx ⊢
  cases hrun : x s with
  | error f u =>
    rw [hrun] at hx
    cases hx
  | ok b u =>
    obtain ⟨hy, hu, -⟩ := h s b u hs hrun
    rw [hrun] at hx
    rw [hy]
    cases hx
    obtain ⟨hm, he⟩ := hs.memory.restore hu.conforms.memory hu.elems
    exact ⟨rfl, ⟨⟨hs.vars, hm⟩, he⟩, trivial⟩

/-- a kernel is launched like the kernel before folding -/
theorem launch_fold (hE : ∀ e, E e → e.Foldable Γ) {spec : LaunchSpec} {body : List Stmt} {o : Origin}
    (hk : (Stmt.launch spec body o).Typed Γ E) :
    Simulates Γ (launch c spec body) (launch c spec.fold (foldBlock body)) fun _ => True := fun s a t hs hx => by
  obtain ⟨p, u, hobs, hrun⟩ := bind_eq_ok.1 hx
  obtain ⟨hprep, rfl⟩ := observe_eq_ok.1 hobs
  obtain ⟨hfold, hcap, hblocks, hphases⟩ := prepare_fold hE hk hs hprep
  have hgroup (g : Triple) : Simulates Γ (runGroup c p spec.origin g)
      (runGroup c { p with phases := p.phases.map foldBlock } spec.origin g) fun _ => True := by
    refine (Simulates.allocateBlocks spec.origin hblocks).bind fun _ _ => runPhases_fold hE _ hphases fun th hth => ?_
    obtain ⟨id, -, rfl⟩ := List.mem_map.1 hth
    exact hcap
  have hgroups (gs : List Triple) : Simulates Γ (runGroups c p spec.origin gs)
      (runGroups c { p with phases := p.phases.map foldBlock } spec.origin gs) fun _ => True := by
    induction gs with
    | nil => exact .pure trivial
    | cons g gs ih => exact (hgroup g).isolated.bind fun _ _ => ih
  have hrecord : Simulates Γ (modify fun s => { s with launched := s.launched.push spec.name.text } : Exec Unit)
      (modify fun s => { s with launched := s.launched.push spec.name.text }) fun _ => True := fun s a t hs hx => by
    cases hx
    exact ⟨rfl, ⟨⟨hs.vars, hs.memory⟩, .refl _⟩, trivial⟩
  obtain ⟨hrun', he, -⟩ := (hrecord.bind fun _ _ => hgroups p.shape.groups.indices) _ _ _ hs hrun
  exact ⟨bind_eq_ok.2 ⟨_, s, observe_eq_ok.2 ⟨hfold, rfl⟩, hrun'⟩, he, trivial⟩

/-- host code and the kernels that it launches -/
theorem runHost_fold (hE : ∀ e, E e → e.Foldable Γ) {body : List Stmt} (hb : blockTyped Γ E body) :
    Simulates Γ (runHost c body) (runHost c (foldBlock body)) fun _ => True :=
  execAll_fold hE (fun _ _ _ hk => launch_fold hE hk) hb

/-! ## Programs -/

/-- **Folding preserves runs.** Where a typed program succeeds on a machine whose variables and arrays have the types that
the program gives them, the folded program succeeds and leaves the same machine: the same variables, arrays, aliases and
launches. Casts to 64 bits must not fold literals of other types. -/
theorem run_fold {m m' : GpuHistogram.Machine} {p : Program}
    (hp : blockTyped Γ (fun e => e.Typed Γ ∧ e.CastsOf fun _ ty => ty = .i64) p.body) (hm : m.state.Conforms Γ)
    (h : m.run p = (.ok (), m')) : m.run p.fold = (.ok (), m') := by
  have hE : ∀ e : Expr, (e.Typed Γ ∧ e.CastsOf fun _ ty => ty = .i64) → e.Foldable Γ := fun e he =>
    ⟨he.1, he.2.mono (fun hv hty => by rw [Literal.InRange, hty]; exact Scalar.wrap_i64 hv) he.1⟩
  obtain ⟨s, hs, rfl⟩ := run_eq_ok.1 h
  exact run_eq_ok.2 ⟨s, ((runHost_fold hE hp) _ _ _ hm hs).1, rfl⟩

/-- a program that numbers the elements of a new array, with a condition and sizes that folding decides -/
def numbering : Program where
  body :=
    let a := Name.plain "a"
    let id := Expr.atPlace .globalId .x
    [.alloc a .i64 (2 * 2) .unknown,
      .launch ⟨.plain "number", [(a, .pointer .i64 .device)], [], [1 + 1], [2], .unknown⟩
        [.ifThen (.lt 0 1) [.store (.element a .i64 .device id) (id * 1 + 0)]] .unknown]

theorem run_of_isOk {m : GpuHistogram.Machine} {p : Program} (h : (m.run p).1.isOk = true) :
    m.run p = (.ok (), (m.run p).2) := by
  cases hr : m.run p with
  | mk r m' =>
    rw [hr] at h
    cases r with
    | ok a => rfl
    | error f => cases h

theorem run_fold_numbering : (({} : GpuHistogram.Machine).run numbering).1.isOk = true ∧
    ({} : GpuHistogram.Machine).run numbering.fold = (.ok (), (({} : GpuHistogram.Machine).run numbering).2) := by
  have hok : (({} : GpuHistogram.Machine).run numbering).1.isOk = true := by decide +kernel
  let Γ : Typing := ⟨fun _ => none, fun _ => some .i64⟩
  have h0 : (0 : Expr).Typed Γ := .literal (by decide)
  have h1 : (1 : Expr).Typed Γ := .literal (by decide)
  have h2 : (2 : Expr).Typed Γ := .literal (by decide)
  have hid : (Expr.atPlace .globalId .x).Typed Γ := trivial
  have hprod : (Expr.atPlace .globalId .x * 1).Typed Γ := .op2 hid h1 rfl (by decide)
  refine ⟨hok, run_fold (Γ := Γ) ?_ (.empty _) (run_of_isOk hok)⟩
  simp only [numbering, Stmt.ifThen, Stmt.store, blockTyped, Stmt.Typed, List.forall_mem_singleton]
  exact ⟨⟨⟨.op2 h2 h2 rfl (by decide), trivial, trivial⟩, rfl⟩, ⟨⟨.op2 h1 h1 rfl (by decide), trivial, trivial⟩, ⟨h2, trivial⟩,
    List.forall_mem_nil _, ⟨⟨.op2 h0 h1 rfl (by decide), trivial, trivial⟩, ⟨⟨⟨.element rfl hid .device, trivial⟩,
      .op2 hprod h0 rfl (by decide), ⟨trivial, trivial⟩, trivial⟩, trivial⟩, trivial⟩, trivial⟩, trivial⟩

end GpuHistogram.Machine
