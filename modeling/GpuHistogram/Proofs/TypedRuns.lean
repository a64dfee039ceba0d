/-
Types are sound in every state of a run. `State.Typed` says that the variables and arrays of a state have the types of a
typing, and that every value stored is one of its own type, an integer within its range.

`Preserves Γ x Q` says of a computation that it takes a typed state to a typed state, whether it succeeds or meets a
fault; there is one rule for each way in which computations are put together. `Visits` lists the states that a run comes
to, on the host and in the threads of the kernels that it launches, also if the run fails in the end.

`run_typed`: in each of these states variables and arrays are typed, and an expression with the types it is built with
fails with a runtime error or has a value of its type.
-/
import GpuHistogram.Proofs.FoldedRuns
import GpuHistogram.Proofs.Points

namespace GpuHistogram.Machine

variable {α β : Type} {Γ : Typing} {c : Context} {s t : State} {e : Expr}

/-- the variables have values of the types of the typing, and each a value of its own type -/
structure VarsTyped (Γ : Typing) (vars : Bindings Value) : Prop where
  admits : Admits Γ vars
  own : ∀ n v, vars.get? n = some v → v.Fits v.scalar

/-- the variables and arrays have values of the types of the typing, and all that is stored is a value of its own type -/
structure State.Typed (Γ : Typing) (s : State) : Prop where
  vars : VarsTyped Γ s.vars
  memory : s.memory.Conforms Γ

theorem State.Typed.conforms (h : s.Typed Γ) : s.Conforms Γ := ⟨h.vars.admits, h.memory⟩

theorem State.Typed.set (h : s.Typed Γ) {n : Name} {sc : Scalar} {v : Value} (hn : Γ.vars n = some sc) (hv : v.Fits sc) :
    (s.set n v).Typed Γ where
  vars := ⟨(h.conforms.set fun sc' hsc => Option.some.inj (hn.symm.trans hsc) ▸ hv).vars, fun m w hw => by
    rw [State.get?_set] at hw
    split_ifs at hw with hm
    · exact Option.some.inj hw ▸ hv.own
    · exact h.vars.own m w hw⟩
  memory := h.memory

/-! ## Faults of expressions -/

theorem liftArithmetic_no_crash {o : Origin} {r : Arithmetic} {f : Fault} (h : liftArithmetic o r = .error f) :
    f.cause.isCrash = false := by
  cases r <;> cases h
  rfl

theorem liftMemory_no_crash {o : Origin} {r : Except MemoryError α} {f : Fault} (h : liftMemory o r = .error f) :
    f.cause.isCrash = false := by
  cases r <;> cases h
  rfl

theorem except_bind_eq_error {ε : Type} {x : Except ε α} {g : α → Except ε β} {f : ε} (h : (x >>= g) = .error f) :
    x = .error f ∨ ∃ a, x = .ok a ∧ g a = .error f := by
  cases x with
  | error e => exact .inl (congrArg Except.error (Except.error.inj h))
  | ok a => exact .inr ⟨a, rfl, h⟩

/-- an expression that has no value is a runtime error of the program -/
theorem eval_no_crash {f : Fault} (h : eval c s e = .error f) : f.cause.isCrash = false := by
  induction e generalizing f with
  | var n ty o =>
    simp only [eval] at h
    split at h <;> cases h
    rfl
  | bool | int | float => cases h
  | unary op e ty o ih =>
    rw [eval] at h
    rcases except_bind_eq_error h with h | ⟨v, -, h⟩
    · exact ih h
    · exact liftArithmetic_no_crash h
  | binary op l r ty o ihl ihr =>
    have hplain (h : (do
        let x ← eval c s l
        let y ← eval c s r
        liftArithmetic o (op.eval x y ty.elem)) = .error f) : f.cause.isCrash = false := by
      rcases except_bind_eq_error h with h | ⟨v, -, h⟩
      · exact ihl h
      rcases except_bind_eq_error h with h | ⟨w, -, h⟩
      · exact ihr h
      · exact liftArithmetic_no_crash h
    cases hop : op.isLogical with
    | false =>
      rw [eval_binary hop] at h
      exact hplain h
    | true =>
      have hright (h : (do return .bool (← eval c s r).truth : Except Fault Value) = .error f) :
          f.cause.isCrash = false := by
        rcases except_bind_eq_error h with h | ⟨w, -, h⟩
        · exact ihr h
        · cases h
      cases op <;> cases hop <;> rw [eval] at h <;> rcases except_bind_eq_error h with h | ⟨v, -, h⟩
      · exact ihl h
      · split_ifs at h
        · exact hright h
        · cases h
      · exact ihl h
      · split_ifs at h
        · cases h
        · exact hright h
  | select b t e ty o ihb iht ihe =>
    rw [eval] at h
    rcases except_bind_eq_error h with h | ⟨v, -, h⟩
    · exact ihb h
    split_ifs at h
    · exact iht h
    · exact ihe h
  | access t i ty o iht ihi =>
    rw [eval] at h
    rcases except_bind_eq_error h with h | ⟨n, -, h⟩
    · cases t <;> cases h <;> rfl
    rcases except_bind_eq_error h with h | ⟨v, -, h⟩
    · exact ihi h
    · exact liftMemory_no_crash h
  | convert e ty ih =>
    rw [eval] at h
    rcases except_bind_eq_error h with h | ⟨v, -, h⟩
    · exact ih h
    · cases h
  | bitCast e ty ih =>
    rw [eval] at h
    rcases except_bind_eq_error h with h | ⟨v, -, h⟩
    · exact ih h
    · unfold castBits at h
      split_ifs at h
      cases h
      rfl
  | place p axis o =>
    simp only [eval, evalPlace] at h
    split at h <;> cases h
    rfl
  | size id o =>
    simp only [eval, evalSize] at h
    split at h <;> cases h <;> rfl
  | capability q o =>
    simp only [eval, evalCapability] at h
    split at h <;> cases h
    rfl

/-! ## Computations -/

/-- a later state is typed, and the buffers of before are there with their types -/
structure Follows (Γ : Typing) (s t : State) : Prop where
  typed : t.Typed Γ
  elems : s.memory.KeepsElems t.memory

theorem Follows.refl (h : s.Typed Γ) : Follows Γ s s := ⟨h, .refl _⟩

theorem Follows.trans {u : State} (h : Follows Γ s t) (h' : Follows Γ t u) : Follows Γ s u :=
  ⟨h'.typed, h.elems.trans h'.elems⟩

/-- the state in which a computation ends, with a result or a fault -/
def Outcome (Q : α → Prop) (P : State → Prop) : EStateM.Result Fault State α → Prop
  | .ok a t => P t ∧ Q a
  | .error _ t => P t

/-- the computation takes typed states to typed states, and its results satisfy `Q` -/
def Preserves (Γ : Typing) (x : Exec α) (Q : α → Prop) : Prop :=
  ∀ s : State, s.Typed Γ → Outcome Q (Follows Γ s) (x s)

namespace Preserves

variable {x : Exec α} {Q : α → Prop}

theorem ok (h : Preserves Γ x Q) (hs : s.Typed Γ) {a : α} (hx : x s = .ok a t) : Follows Γ s t ∧ Q a := by
  have := h s hs
  rwa [hx] at this

theorem error (h : Preserves Γ x Q) (hs : s.Typed Γ) {f : Fault} (hx : x s = .error f t) : Follows Γ s t := by
  have := h s hs
  rwa [hx] at this

theorem pure {a : α} (h : Q a) : Preserves Γ (Pure.pure a) Q := fun _ hs => ⟨.refl hs, h⟩

theorem fail (cause : Cause) (o : Origin) : Preserves Γ (Machine.fail cause o : Exec α) Q := fun _ hs => Follows.refl hs

theorem bind {f : α → Exec β} {R : β → Prop} (h : Preserves Γ x Q) (hf : ∀ a, Q a → Preserves Γ (f a) R) :
    Preserves Γ (x >>= f) R := fun s hs => by
  cases hx : x s with
  | error g u =>
    rw [bind_fails hx]
    exact h.error hs hx
  | ok a u =>
    obtain ⟨hu, hq⟩ := h.ok hs hx
    rw [bind_run hx]
    cases hy : f a u with
    | error g w => exact hu.trans ((hf a hq).error hu.typed hy)
    | ok b w => exact ((hf a hq).ok hu.typed hy).imp_left hu.trans

theorem ite {y : Exec α} {p : Prop} [Decidable p] (h : Preserves Γ x Q) (h' : Preserves Γ y Q) :
    Preserves Γ (if p then x else y) Q := by
  split_ifs
  · exact h
  · exact h'

theorem observe {f : State → Except Fault α} (h : ∀ {s a}, s.Typed Γ → f s = .ok a → Q a) :
    Preserves Γ (Machine.observe f) Q := fun s hs => by
  unfold Machine.observe
  cases hf : f s with
  | ok a => exact ⟨.refl hs, h hs hf⟩
  | error g => exact Follows.refl hs

theorem value (he : e.Built Γ) : Preserves Γ (Machine.value c e) fun v => v.Fits v.scalar :=
  observe fun hs hv => (eval_built he hs.conforms hv).own

theorem number (he : e.Built Γ) : Preserves Γ (Machine.number c e) fun _ => True :=
  (value he).bind fun _ _ => .pure trivial

theorem holds (he : e.Built Γ) : Preserves Γ (Machine.holds c e) fun _ => True :=
  (value he).bind fun _ _ => .pure trivial

theorem setVar {n : Name} {sc : Scalar} {v : Value} (hn : Γ.vars n = some sc) (hv : v.Fits sc) :
    Preserves Γ (Machine.setVar n v) fun _ => True := fun _ hs => ⟨⟨hs.set hn hv, .refl _⟩, trivial⟩

/-- a change of memory that fails leaves it as it was -/
theorem onMemory {o : Origin} {check : Memory → Except MemoryError β} {update : β → Memory → α × Memory}
    (h : ∀ {m a m'}, m.Conforms Γ → Memory.change check update m = .ok a m' → m'.Conforms Γ ∧ m.KeepsElems m') :
    Preserves Γ (Machine.onMemory o (Memory.change check update)) fun _ => True := fun s hs => by
  cases hm : Memory.change check update s.memory with
  | ok a m =>
    obtain ⟨hc, he⟩ := h hs.memory hm
    rw [onMemory_run hm]
    exact ⟨⟨⟨hs.vars, hc⟩, he⟩, trivial⟩
  | error f m =>
    obtain rfl := Memory.run_change_error hm
    rw [onMemory_fails hm]
    exact Follows.refl hs

/-- a new array -/
theorem insert {n : Name} {b : Buffer} (hb : b.Uniform) (hn : Γ.arrays n = some b.elem) :
    Preserves Γ (modify fun s => { s with memory := s.memory.insert n b } : Exec Unit) fun _ => True := fun s hs => by
  obtain ⟨hc, he⟩ := hs.memory.insert hb hn
  exact ⟨⟨⟨hs.vars, hc⟩, he⟩, trivial⟩

theorem allocate {n : Name} {sc : Scalar} (hn : Γ.arrays n = some sc) (count : ℕ) (o : Origin) :
    Preserves Γ (Machine.allocate n sc count o) fun _ => True := by
  unfold Machine.allocate
  exact .ite (.fail _ _) (.insert (Buffer.uniform_zeros sc count) hn)

theorem write {n : Name} {k : Int} {v : Value} (hv : v.Fits v.scalar) (o : Origin) :
    Preserves Γ (Machine.onMemory o (Memory.write n k v)) fun _ => True :=
  .onMemory fun hm h => by
    obtain ⟨p, j, -, rfl⟩ := Memory.write_eq_ok h
    exact hm.store (by simpa using hv) p j

theorem read {n : Name} {k : Int} {o : Origin} :
    Preserves Γ (Machine.observe fun s => liftMemory o (s.memory.read n k)) fun v => v.Fits v.scalar :=
  .observe fun hs hv => hs.memory.read (liftMemory_eq_ok.1 hv)

theorem values {es : List Expr} (h : ∀ e ∈ es, e.Built Γ) :
    Preserves Γ (es.mapM (Machine.value c)) fun vs => ∀ v ∈ vs, v.Fits v.scalar := by
  induction es with
  | nil => exact .pure (by simp)
  | cons e es ih =>
    rw [List.forall_mem_cons] at h
    rw [List.mapM_cons]
    exact (value h.1).bind fun v hv => (ih h.2).bind fun vs hvs => .pure (List.forall_mem_cons.2 ⟨hv, hvs⟩)

theorem iterate {cond : Exec Bool} {round : Exec Unit} (hc : Preserves Γ cond fun _ => True)
    (hr : Preserves Γ round fun _ => True) (limit : Int) (o : Origin) (left : ℕ) :
    Preserves Γ (Machine.iterate cond round limit o left) fun _ => True := by
  induction left with
  | zero => exact hc.bind fun _ _ => .ite (.fail _ _) (.pure trivial)
  | succ left ih => exact hc.bind fun _ _ => .ite (hr.bind fun _ _ => ih) (.pure trivial)

/-! ## Statements -/

theorem execDefine {ty : Ty} {n : Name} {o : Origin} (he : e.Built Γ) (hn : Γ.vars n = some ty.elem) :
    Preserves Γ (Machine.execDefine c ty n e o) fun _ => True := by
  cases ty with
  | scalar sc => exact (value he).bind fun v hv => .setVar hn (hv.convert sc)
  | pointer sc sp => exact .fail _ _

theorem execAssign {dst : Expr} {o : Origin} (hd : dst.Built Γ) (he : e.Built Γ) :
    Preserves Γ (Machine.execAssign c dst e o) fun _ => True := by
  refine (value he).bind fun v hv => ?_
  cases dst with
  | var n ty o' => exact .setVar hd (hv.convert ty.elem)
  | access t i ty o' =>
    refine Preserves.bind (Q := fun _ => True) (.observe fun _ _ => trivial) fun n _ => ?_
    exact (number hd.2).bind fun k _ => (write hv o).bind fun _ _ => .pure trivial
  | _ => exact .fail _ _

theorem execAtomic {op : Atomic} {sc : Scalar} {n : Name} {i : Expr} {old : Option Name} {o : Origin} (hi : i.Built Γ)
    (he : e.Built Γ) (hold : ∀ x ∈ old, Γ.vars x = some sc) :
    Preserves Γ (Machine.execAtomic c op sc n i e old o) fun _ => True := by
  refine (number hi).bind fun k _ => (value he).bind fun v hv => read.bind fun w hw => ?_
  have hcur := hw.convert sc
  refine Preserves.bind (Q := fun r => r.Fits r.scalar) (.observe fun _ h => ?_) fun r hr => ?_
  · exact (Atomic.fits_of_eval hcur hv (liftArithmetic_eq_ok.1 h)).own
  · refine (write hr o).bind fun _ _ => ?_
    cases old with
    | none => exact .pure trivial
    | some x => exact .setVar (hold x rfl) hcur

theorem execCompareSwap {old : Name} {sc : Scalar} {n : Name} {i cmp new : Expr} {o : Origin} (hi : i.Built Γ)
    (hc : cmp.Built Γ) (hn : new.Built Γ) (hold : Γ.vars old = some sc.bitPattern) :
    Preserves Γ (Machine.execCompareSwap c old sc n i cmp new o) fun _ => True := by
  refine (number hi).bind fun k _ => (value hc).bind fun v _ => (value hn).bind fun w _ => read.bind fun r _ => ?_
  have hset := Preserves.setVar (Γ := Γ) hold (Value.fits_ofBits r.toBits sc.bitPattern)
  exact .ite ((write (Value.fits_ofBits _ sc).own o).bind fun _ _ => hset) hset

/-- a round of a loop with a variable -/
theorem round {body : Exec Unit} {ty : Ty} {n : Name} (hb : Preserves Γ body fun _ => True) (he : e.Built Γ)
    (hn : Γ.vars n = some ty.elem) :
    Preserves Γ (do
      body
      let next ← Machine.value c e
      Machine.setVar n (next.convert ty.elem)) fun _ => True :=
  hb.bind fun _ _ => (value he).bind fun _ hv => .setVar hn (hv.convert ty.elem)

end Preserves

variable {L : LaunchSpec → List Stmt → Exec Unit}

mutual

/-- a statement keeps all types, if launches do -/
theorem exec_preserves (hL : ∀ spec body o, (Stmt.launch spec body o).Typed Γ (Expr.Built Γ) →
      Preserves Γ (L spec body) fun _ => True) :
    ∀ {x : Stmt}, x.Typed Γ (Expr.Built Γ) → Preserves Γ (exec L c x) fun _ => True
  | .define ty n e o, h => by
    simp only [Stmt.Typed] at h
    simp only [exec]
    exact .execDefine h.1 h.2
  | .assign dst e o, h => by
    simp only [Stmt.Typed] at h
    simp only [exec]
    exact .execAssign h.1 h.2
  | .forLoop ty n init cond incr body o, h => by
    simp only [Stmt.Typed] at h
    obtain ⟨hinit, hcond, hincr, hn, hbody⟩ := h
    simp only [exec]
    refine (Preserves.value hinit).bind fun v hv => (Preserves.setVar hn (hv.convert ty.elem)).bind fun _ _ => ?_
    exact .iterate (.holds hcond) (.round (execAll_preserves hL hbody) hincr hn) c.loopLimit o c.rounds
  | .ifElse cond thn els o, h => by
    simp only [Stmt.Typed] at h
    simp only [exec]
    exact (Preserves.holds h.1).bind fun _ _ => .ite (execAll_preserves hL h.2.1) (execAll_preserves hL h.2.2)
  | .whileLoop cond body o, h => by
    simp only [Stmt.Typed] at h
    simp only [exec]
    exact .iterate (.holds h.1) (execAll_preserves hL h.2) c.loopLimit o c.rounds
  | .scope body o, h => by
    simp only [Stmt.Typed] at h
    simp only [exec]
    exact execAll_preserves hL h
  | .barrier b o, _ => by
    simp only [exec]
    exact .fail _ _
  | .fence m o, _ => by
    simp only [exec]
    exact .pure trivial
  | .atomic op m sc n i e old o, h => by
    simp only [Stmt.Typed] at h
    simp only [exec]
    exact .execAtomic h.1 h.2.1 h.2.2
  | .compareSwap old m sc n i cmp new o, h => by
    simp only [Stmt.Typed] at h
    simp only [exec]
    exact .execCompareSwap h.1 h.2.1 h.2.2.1 h.2.2.2
  | .alloc n sc count o, h => by
    simp only [Stmt.Typed] at h
    simp only [exec]
    exact .ite (.fail _ _) ((Preserves.number h.1).bind fun k _ => .ite (.fail _ _) (.allocate h.2 _ o))
  | .free n o, _ => by
    simp only [exec]
    exact .ite (.fail _ _) (.onMemory fun hm h => Memory.Conforms.of_remove hm h)
  | .copy dst i src j k o, h => by
    simp only [Stmt.Typed] at h
    simp only [exec]
    exact .ite (.fail _ _) ((Preserves.number h.1).bind fun a _ => (Preserves.number h.2.1).bind fun b _ =>
      (Preserves.number h.2.2).bind fun d _ => .onMemory fun hm h => Memory.Conforms.of_copy hm h)
  | .fill n i k e o, h => by
    simp only [Stmt.Typed] at h
    simp only [exec]
    exact .ite (.fail _ _) ((Preserves.number h.1).bind fun a _ => (Preserves.number h.2.1).bind fun b _ =>
      (Preserves.value h.2.2).bind fun v hv => .onMemory fun hm h => Memory.Conforms.of_fill hm hv h)
  | .rebind dst src o, h => by
    simp only [Stmt.Typed] at h
    simp only [exec]
    exact .ite (.fail _ _) (.onMemory fun hm hr => Memory.Conforms.of_rebind hm h hr)
  | .table n sc values o, h => by
    simp only [Stmt.Typed] at h
    simp only [exec]
    exact .ite (.fail _ _) ((Preserves.values h.1).bind fun vs hvs => .insert (Buffer.uniform_ofValues sc hvs) h.2)
  | .launch spec body o, h => by
    simp only [exec]
    exact .ite (.fail _ _) (hL spec body o h)

theorem execAll_preserves (hL : ∀ spec body o, (Stmt.launch spec body o).Typed Γ (Expr.Built Γ) →
      Preserves Γ (L spec body) fun _ => True) :
    ∀ {l : List Stmt}, blockTyped Γ (Expr.Built Γ) l → Preserves Γ (execAll L c l) fun _ => True
  | [], _ => by
    rw [execAll]
    exact .pure trivial
  | x :: l, h => by
    rw [blockTyped] at h
    rw [execAll_cons]
    exact (exec_preserves hL h.1).bind fun _ _ => execAll_preserves hL h.2

end

/-! ## Launches -/

/-- threads launch nothing -/
theorem noLaunch_preserves (spec : LaunchSpec) (body : List Stmt) (o : Origin)
    (_ : (Stmt.launch spec body o).Typed Γ (Expr.Built Γ)) : Preserves Γ (noLaunch spec body) fun _ => True := .fail _ _

/-- what is prepared for a launch is typed: the captured variables, the local memory and the phases -/
structure Prepared.Typed (Γ : Typing) (p : Prepared) : Prop where
  captured : VarsTyped Γ p.captured
  blocks : ∀ b ∈ p.blocks, Γ.arrays b.name = some b.elem
  phases : ∀ l ∈ p.phases, blockTyped Γ (Expr.Built Γ) l

theorem prepare_typed {spec : LaunchSpec} {body : List Stmt} {o : Origin}
    (hk : (Stmt.launch spec body o).Typed Γ (Expr.Built Γ)) (hs : s.Typed Γ) {p : Prepared}
    (h : prepare c s spec body = .ok p) : p.Typed Γ := by
  simp only [Stmt.Typed] at hk
  obtain ⟨-, -, hblocks, hbody⟩ := hk
  obtain ⟨sh, -, h⟩ := except_bind_eq_ok.1 h
  obtain ⟨ps, hps, h⟩ := except_bind_eq_ok.1 h
  obtain ⟨captured, hcap, h⟩ := except_bind_eq_ok.1 h
  obtain ⟨blocks, hbl, h⟩ := except_bind_eq_ok.1 h
  obtain rfl := except_pure_eq_ok.1 h
  have hget {n : Name} {v : Value} (hv : captured.get? n = some v) : s.vars.get? n = some v := by
    rw [capture_get? hcap] at hv
    split_ifs at hv
    exact hv
  refine ⟨⟨fun n sc v hn hv => hs.vars.admits n sc v hn (hget hv), fun n v hv => hs.vars.own n v (hget hv)⟩,
    evalBlocks_typed hblocks hbl, fun l hl => blockTyped_iff.2 fun x hx => blockTyped_iff.1 hbody x ?_⟩
  exact (topLevelPhases_fold hps).2 l hl x hx

theorem runThread_preserves {phase : List Stmt} (hp : blockTyped Γ (Expr.Built Γ) phase) {vars : Bindings Value}
    (hv : VarsTyped Γ vars) : Preserves Γ (runThread c phase vars) (VarsTyped Γ) := by
  have hset : Preserves Γ (modify fun s => { s with vars := vars } : Exec Unit) fun _ => True := fun s hs =>
    ⟨⟨⟨hv, hs.memory⟩, .refl _⟩, trivial⟩
  have hget : Preserves Γ (do return (← get).vars : Exec (Bindings Value)) (VarsTyped Γ) := fun s hs =>
    ⟨⟨⟨hs.vars, hs.memory⟩, .refl _⟩, hs.vars⟩
  exact hset.bind fun _ _ => (execAll_preserves noLaunch_preserves hp).bind fun _ _ => hget

theorem runPhase_preserves (place : Triple → Context) {phase : List Stmt} (hp : blockTyped Γ (Expr.Built Γ) phase)
    {threads : List Thread} (ht : ∀ th ∈ threads, VarsTyped Γ th.vars) :
    Preserves Γ (runPhase place phase threads) fun ths => ∀ th ∈ ths, VarsTyped Γ th.vars := by
  induction threads with
  | nil => exact .pure ht
  | cons th threads ih =>
    rw [List.forall_mem_cons] at ht
    exact (runThread_preserves hp ht.1).bind fun vars hvars => (ih ht.2).bind fun ths hths =>
      .pure (List.forall_mem_cons.2 ⟨hvars, hths⟩)

theorem runPhases_preserves (place : Triple → Context) {phases : List (List Stmt)}
    (hp : ∀ l ∈ phases, blockTyped Γ (Expr.Built Γ) l) {threads : List Thread}
    (ht : ∀ th ∈ threads, VarsTyped Γ th.vars) : Preserves Γ (runPhases place threads phases) fun _ => True := by
  induction phases generalizing threads with
  | nil => exact .pure trivial
  | cons l phases ih =>
    rw [List.forall_mem_cons] at hp
    exact (runPhase_preserves place hp.1 ht).bind fun ths hths => ih hp.2 hths

theorem allocateBlocks_preserves (o : Origin) {blocks : List SizedBlock} (h : ∀ b ∈ blocks, Γ.arrays b.name = some b.elem) :
    Preserves Γ (allocateBlocks o blocks) fun _ => True := by
  induction blocks with
  | nil => exact .pure trivial
  | cons b blocks ih =>
    rw [List.forall_mem_cons] at h
    exact (Preserves.allocate h.1 b.count o).bind fun _ _ => ih h.2

/-- the names of the host are back after a group, and refer to buffers of their types -/
theorem isolated_preserves {x : Exec Unit} (h : Preserves Γ x fun _ => True) : Preserves Γ (isolated x) fun _ => True := by
  intro s hs
  unfold isolated
  cases hx : x s with
  | ok a u =>
    obtain ⟨hu, -⟩ := h.ok hs hx
    obtain ⟨hm, he⟩ := hs.memory.restore hu.typed.memory hu.elems
    exact ⟨⟨⟨hs.vars, hm⟩, he⟩, trivial⟩
  | error f u =>
    have hu := h.error hs hx
    obtain ⟨hm, he⟩ := hs.memory.restore hu.typed.memory hu.elems
    exact ⟨⟨hs.vars, hm⟩, he⟩

theorem runGroup_preserves {p : Prepared} (hp : p.Typed Γ) (o : Origin) (g : Triple) :
    Preserves Γ (runGroup c p o g) fun _ => True := by
  refine (allocateBlocks_preserves o hp.blocks).bind fun _ _ => runPhases_preserves _ hp.phases fun th hth => ?_
  obtain ⟨id, -, rfl⟩ := List.mem_map.1 hth
  exact hp.captured

theorem runGroups_preserves {p : Prepared} (hp : p.Typed Γ) (o : Origin) (gs : List Triple) :
    Preserves Γ (runGroups c p o gs) fun _ => True := by
  induction gs with
  | nil => exact .pure trivial
  | cons g gs ih => exact (isolated_preserves (runGroup_preserves hp o g)).bind fun _ _ => ih

/-- a launch that is recorded -/
def State.record (s : State) (kernel : Name) : State :=
  { s with launched := s.launched.push kernel.text }

theorem State.Typed.record (h : s.Typed Γ) (kernel : Name) : (s.record kernel).Typed Γ := ⟨h.vars, h.memory⟩

theorem launch_preserves (spec : LaunchSpec) (body : List Stmt) (o : Origin)
    (hk : (Stmt.launch spec body o).Typed Γ (Expr.Built Γ)) : Preserves Γ (launch c spec body) fun _ => True := by
  refine Preserves.bind (Q := Prepared.Typed Γ) (.observe fun hs h => prepare_typed hk hs h) fun p hp => ?_
  have hrecord : Preserves Γ (modify fun s => { s with launched := s.launched.push spec.name.text } : Exec Unit)
      fun _ => True := fun s hs => ⟨⟨hs.record spec.name, .refl _⟩, trivial⟩
  exact hrecord.bind fun _ _ => runGroups_preserves hp spec.origin p.shape.groups.indices

/-! ## The states of a run -/

/-- a thread of a group whose threads begin some phases: its place, the phase it runs, and the state it runs it in -/
inductive Enters (place : Triple → Context) : List Thread → List (List Stmt) → State → Context → List Stmt → State → Prop
  | now {ts ts' us : List Thread} {th : Thread} {phase : List Stmt} {rest : List (List Stmt)} {s t : State}
    (h : runPhase place phase ts s = .ok us t) :
    Enters place (ts ++ th :: ts') (phase :: rest) s (place th.id) phase { t with vars := th.vars }
  | later {ts us : List Thread} {phase l : List Stmt} {rest : List (List Stmt)} {s t u : State} {c : Context}
    (h : runPhase place phase ts s = .ok us t) (h' : Enters place us rest t c l u) :
    Enters place ts (phase :: rest) s c l u

/-- the states that a run of code comes to, each with the context in which it does: the one in which the code begins, the
one in which each statement ends or fails, and those inside it -/
inductive Visits : (LaunchSpec → List Stmt → Exec Unit) → Context → List Stmt → State → Context → State → Prop
  | start {L c l s} : Visits L c l s c s
  | fault {L c x l s t f} (h : exec L c x s = .error f t) : Visits L c (x :: l) s c t
  | later {L c x l s t c' u} (h : exec L c x s = .ok () t) (h' : Visits L c l t c' u) : Visits L c (x :: l) s c' u
  | thn {L c cond thn els o l s c' u} (h : Visits L c thn s c' u) (hb : holds c cond s = .ok true s) :
    Visits L c (.ifElse cond thn els o :: l) s c' u
  | els {L c cond thn els o l s c' u} (h : Visits L c els s c' u) (hb : holds c cond s = .ok false s) :
    Visits L c (.ifElse cond thn els o :: l) s c' u
  | scope {L c body o l s c' u} (h : Visits L c body s c' u) : Visits L c (.scope body o :: l) s c' u
  | whileLoop {L c cond body o l s t c' u} (hb : Begins (holds c cond) (execAll L c body) c.rounds s t)
    (h : Visits L c body t c' u) : Visits L c (.whileLoop cond body o :: l) s c' u
  | forLoop {L c ty n init cond incr body o l s t c' u} {first : Value} (hf : eval c s init = .ok first)
    (hb : Begins (holds c cond) (do
      execAll L c body
      let next ← value c incr
      setVar n (next.convert ty.elem)) c.rounds (s.set n (first.convert ty.elem)) t)
    (h : Visits L c body t c' u) : Visits L c (.forLoop ty n init cond incr body o :: l) s c' u
  /-- inside a thread of a group; the groups before it are over, and it has its local memory -/
  | thread {c spec body o l s t u w c' c'' phase z} {p : Prepared} {gs gs' : List Triple} {g : Triple}
    (hc : c.thread = none) (hp : prepare c s spec body = .ok p) (hg : p.shape.groups.indices = gs ++ g :: gs')
    (hbefore : runGroups c p spec.origin gs (s.record spec.name) = .ok () t)
    (hblocks : allocateBlocks spec.origin p.blocks t = .ok () u)
    (henters : Enters (fun id => { c with thread := some ⟨id, g, p.shape.groupSize, p.shape.groups⟩ })
      (p.shape.groupSize.indices.map fun id => ⟨id, p.captured⟩) p.phases u c' phase w)
    (h : Visits noLaunch c' phase w c'' z) : Visits (launch c) c (.launch spec body o :: l) s c'' z

namespace Visits

variable {c' : Context} {l : List Stmt}

/-- the state in which code ends is one that it comes to -/
theorem of_ok {a : Unit} (h : execAll L c l s = .ok a t) : Visits L c l s c t := by
  induction l generalizing s with
  | nil =>
    rw [execAll_nil] at h
    cases h
    exact .start
  | cons x l ih =>
    obtain ⟨u, hx, h⟩ := execAll_cons_eq_ok.1 h
    exact .later hx (ih h)

/-- the state in which code fails is one that it comes to -/
theorem of_error {f : Fault} (h : execAll L c l s = .error f t) : Visits L c l s c t := by
  induction l generalizing s with
  | nil => exact nomatch execAll_nil.symm.trans h
  | cons x l ih =>
    rw [execAll_cons] at h
    cases hx : exec L c x s with
    | error g u =>
      rw [bind_fails hx] at h
      cases h
      exact .fault hx
    | ok a u =>
      rw [bind_run hx] at h
      exact .later hx (ih h)

end Visits

/-- a loop begins its rounds in typed states -/
theorem Begins.typed {cond : Exec Bool} {round : Exec Unit} {left : ℕ} (h : Begins cond round left s t)
    (hr : Preserves Γ round fun _ => True) (hs : s.Typed Γ) : t.Typed Γ := by
  induction left generalizing s with
  | zero => exact h.elim
  | succ left ih =>
    obtain ⟨-, rfl | ⟨u, hu, h⟩⟩ := h
    · exact hs
    · exact ih h (hr.ok hs hu).1.typed

/-- a thread enters a phase with typed code, in a typed state -/
theorem Enters.typed {place : Triple → Context} {threads : List Thread} {phases : List (List Stmt)} {l : List Stmt}
    (h : Enters place threads phases s c l t) (ht : ∀ th ∈ threads, VarsTyped Γ th.vars)
    (hp : ∀ l ∈ phases, blockTyped Γ (Expr.Built Γ) l) (hs : s.Typed Γ) : t.Typed Γ ∧ blockTyped Γ (Expr.Built Γ) l := by
  induction h with
  | now h =>
    rw [List.forall_mem_append, List.forall_mem_cons] at ht
    rw [List.forall_mem_cons] at hp
    have hu := ((runPhase_preserves _ hp.1 ht.1).ok hs h).1.typed
    exact ⟨⟨ht.2.1, hu.memory⟩, hp.1⟩
  | later h _ ih =>
    rw [List.forall_mem_cons] at hp
    obtain ⟨ht', hths⟩ := (runPhase_preserves _ hp.1 ht).ok hs h
    exact ih hths hp.2 ht'.typed

theorem Visits.typed {c' : Context} {l : List Stmt} (h : Visits L c l s c' t)
    (hL : ∀ spec body o, (Stmt.launch spec body o).Typed Γ (Expr.Built Γ) → Preserves Γ (L spec body) fun _ => True)
    (hl : blockTyped Γ (Expr.Built Γ) l) (hs : s.Typed Γ) : t.Typed Γ := by
  induction h with
  | start => exact hs
  | fault h =>
    rw [blockTyped] at hl
    exact ((exec_preserves hL hl.1).error hs h).typed
  | later h _ ih =>
    rw [blockTyped] at hl
    exact ih hL hl.2 ((exec_preserves hL hl.1).ok hs h).1.typed
  | thn _ _ ih =>
    rw [blockTyped, Stmt.Typed] at hl
    exact ih hL hl.1.2.1 hs
  | els _ _ ih =>
    rw [blockTyped, Stmt.Typed] at hl
    exact ih hL hl.1.2.2 hs
  | scope _ ih =>
    rw [blockTyped, Stmt.Typed] at hl
    exact ih hL hl.1 hs
  | whileLoop hb _ ih =>
    rw [blockTyped, Stmt.Typed] at hl
    exact ih hL hl.1.2 (hb.typed (execAll_preserves hL hl.1.2) hs)
  | forLoop hf hb _ ih =>
    rw [blockTyped, Stmt.Typed] at hl
    obtain ⟨⟨hinit, hcond, hincr, hn, hbody⟩, -⟩ := hl
    have hfirst := (eval_built hinit hs.conforms hf).own
    exact ih hL hbody (hb.typed (.round (execAll_preserves hL hbody) hincr hn) (hs.set hn (hfirst.convert _)))
  | thread _ hp _ hbefore hblocks henters _ ih =>
    rw [blockTyped] at hl
    have hp := prepare_typed hl.1 hs hp
    have ht := ((runGroups_preserves hp _ _).ok (hs.record _) hbefore).1.typed
    have hu := ((allocateBlocks_preserves _ hp.blocks).ok ht hblocks).1.typed
    obtain ⟨hw, hphase⟩ := henters.typed (fun th hth => by
      obtain ⟨id, -, rfl⟩ := List.mem_map.1 hth
      exact hp.captured) hp.phases hu
    exact ih noLaunch_preserves hphase hw

/-- the states that a run of a program comes to, each with the context of the host or of the thread that does -/
def Meets (m : GpuHistogram.Machine) (p : Program) : Context → State → Prop :=
  Visits (launch (m.context p)) (m.context p) p.body m.state

theorem Meets.typed {m : GpuHistogram.Machine} {p : Program} (h : Meets m p c t)
    (hp : blockTyped Γ (Expr.Built Γ) p.body) (hm : m.state.Typed Γ) : t.Typed Γ :=
  Visits.typed h launch_preserves hp hm

/-- the state that a run leaves is, but for the record of its launches, one that it comes to -/
theorem meets_run (m : GpuHistogram.Machine) (p : Program) :
    ∃ t, Meets m p (m.context p) t ∧ (m.run p).2.state.vars = t.vars ∧ (m.run p).2.state.memory = t.memory := by
  unfold run runHost
  simp only [EStateM.run]
  cases h : execAll (launch (m.context p)) (m.context p) p.body m.state with
  | ok a t => exact ⟨t, Visits.of_ok h, rfl, rfl⟩
  | error f t =>
    refine ⟨t, Visits.of_error h, ?_⟩
    dsimp only
    split_ifs <;> exact ⟨rfl, rfl⟩

/-- Types are sound. In every state that a run of a typed program comes to, on the host and in every thread, variables and
arrays hold values of their types, integers in range, and an expression that is built over them fails with a runtime error
or has a value of its type. -/
theorem run_typed {m : GpuHistogram.Machine} {p : Program} (hp : blockTyped Γ (Expr.Built Γ) p.body)
    (hm : m.state.Typed Γ) :
    (m.run p).2.state.Typed Γ ∧ ∀ c t, Meets m p c t → t.Typed Γ ∧ ∀ e : Expr, e.Built Γ →
      (∃ f, eval c t e = .error f ∧ f.cause.isCrash = false ∧ (report f).kind = .runtime) ∨
        ∃ v, eval c t e = .ok v ∧ v.Fits e.ty.elem := by
  constructor
  · obtain ⟨t, ht, hvars, hmem⟩ := meets_run m p
    obtain ⟨hv, hm'⟩ := ht.typed hp hm
    exact ⟨hvars ▸ hv, hmem ▸ hm'⟩
  · intro c t ht
    have hty := ht.typed hp hm
    refine ⟨hty, fun e he => ?_⟩
    cases h : eval c t e with
    | error f => exact .inl ⟨f, rfl, eval_no_crash h, rfl⟩
    | ok v => exact .inr ⟨v, rfl, eval_built he hty.conforms h⟩

/-- a program whose threads add a sum that wraps to the elements of an array, and keep what they find -/
def adding : Program where
  body :=
    let a := Name.plain "a"
    let x := Name.plain "x"
    let old := Name.plain "old"
    [.bind x (.literal 2147483647 .i32 + .literal 1 .i32), .alloc a .i32 1 .unknown,
      .launch ⟨.plain "add", [(a, .pointer .i32 .device), (x, .scalar .i32)], [], [1], [2], .unknown⟩
        [.atomic .add .device .i32 a 0 (.scalarVar x .i32) (some old) .unknown,
          .update old (.scalarVar old .i32 - .scalarVar x .i32)] .unknown]

theorem run_typed_adding :
    let Γ : Typing := ⟨fun _ => some .i32, fun _ => some .i32⟩
    let m : GpuHistogram.Machine := {}
    (blockTyped Γ (Expr.Built Γ) adding.body ∧ m.state.Typed Γ ∧ (m.run adding).1.isOk = true) ∧
      (m.run adding).2.state.Typed Γ ∧ ∀ c t, Meets m adding c t → t.Typed Γ ∧ ∀ e : Expr, e.Built Γ →
        (∃ f, eval c t e = .error f ∧ f.cause.isCrash = false ∧ (report f).kind = .runtime) ∨
          ∃ v, eval c t e = .ok v ∧ v.Fits e.ty.elem := by
  intro Γ m
  have hp : blockTyped Γ (Expr.Built Γ) adding.body := by
    have hx : (Expr.scalarVar (.plain "x") .i32).Built Γ := rfl
    have hold : (Expr.scalarVar (.plain "old") .i32).Built Γ := rfl
    have hsize (k : Int) : ∀ e ∈ [Expr.i64 k], e.Built Γ := List.forall_mem_singleton.2 trivial
    exact ⟨⟨⟨trivial, trivial, rfl⟩, rfl⟩, ⟨trivial, rfl⟩, ⟨hsize 1, hsize 2, List.forall_mem_nil _,
      ⟨trivial, hx, fun _ _ => rfl⟩, ⟨rfl, hold, hx, rfl⟩, trivial⟩, trivial⟩
  have hm : m.state.Typed Γ := ⟨⟨(State.Conforms.empty Γ).vars, fun n v h => nomatch h⟩, (State.Conforms.empty Γ).memory⟩
  exact ⟨⟨hp, hm, by decide +kernel⟩, run_typed hp hm⟩

end GpuHistogram.Machine
