/-
Types of code. A `Typing` gives every variable and every array one element type; an expression is typed if its nodes have
the types that the functions of `Code/Build.lean` give them and its names have those of the typing. `State.Conforms` says
that the variables and arrays of a state hold values of these types.

`eval_built`: an expression with the types it is built with gives a value of its type, if it gives one, when it is
evaluated in a conforming state. `Expr.Typed` asks for more than `Expr.Built`: operands of one type, and literals that are
integers.

`Stmt.Typed`: the expressions of a statement satisfy a condition, and the names that it binds have the types of what is
bound to them.
-/
import GpuHistogram.Code.Build
import GpuHistogram.Machine.Launch
import GpuHistogram.Proofs.Arrays
import GpuHistogram.Proofs.Steps
import GpuHistogram.Proofs.Values
import GpuHistogram.Proofs.Words
import GpuHistogram.Scalar.Word64

namespace GpuHistogram

/-- the element types of the variables and of the arrays that code uses; a name may stand for one of each -/
structure Typing where
  vars : Name → Option Scalar
  arrays : Name → Option Scalar

/-- whether a name stands for an array of a type; what is no name stands for none -/
def Typing.Array (Γ : Typing) (sc : Scalar) : Expr → Prop
  | .var n _ _ => Γ.arrays n = some sc
  | _ => False

/-- the type of an operator node with a left operand of the given type -/
def Binary.resultTy (op : Binary) (operand : Ty) : Ty :=
  if op.isComparison || op.isLogical then .bool else operand

/-- the type of an operator node with an operand of the given type -/
def Unary.resultTy (op : Unary) (operand : Ty) : Ty :=
  if op = .not then .bool else operand

/-- an expression whose nodes are typed as they are built, over the names of a typing -/
def Expr.Typed (Γ : Typing) : Expr → Prop
  | var n ty _ => Γ.vars n = some ty.elem
  | bool _ ty _ => ty = .bool
  | int v ty _ => ty.elem.isInteger = true ∧ Word64.fits v = true
  | unary op e ty _ => e.Typed Γ ∧ ty = op.resultTy e.ty
  | binary op l r ty _ =>
    l.Typed Γ ∧ r.Typed Γ ∧ l.ty = r.ty ∧ (op.isLogical = true → l.ty = .bool) ∧ ty = op.resultTy l.ty
  | select c t e ty _ => c.Typed Γ ∧ t.Typed Γ ∧ e.Typed Γ ∧ c.ty = .bool ∧ t.ty = e.ty ∧ ty = t.ty
  | access t i ty _ => Γ.Array ty.elem t ∧ i.Typed Γ
  | convert e _ | bitCast e _ => e.Typed Γ
  | float .. | place .. | size .. | capability .. => True

/-- an expression whose nodes have the types that they are built with, over the names of a typing: the operands of an
operator may differ in type, and a literal may have any -/
def Expr.Built (Γ : Typing) : Expr → Prop
  | var n ty _ => Γ.vars n = some ty.elem
  | bool _ ty _ => ty = .bool
  | unary op e ty _ => e.Built Γ ∧ ty = op.resultTy e.ty
  | binary op l r ty _ => l.Built Γ ∧ r.Built Γ ∧ ty = op.resultTy l.ty
  | select c t e ty _ => c.Built Γ ∧ t.Built Γ ∧ e.Built Γ ∧ t.ty = e.ty ∧ ty = t.ty
  | access t i ty _ => (∀ n ty' o, t = .var n ty' o → Γ.arrays n = some ty.elem) ∧ i.Built Γ
  | convert e _ | bitCast e _ => e.Built Γ
  | int .. | float .. | place .. | size .. | capability .. => True

namespace Expr.Typed

variable {Γ : Typing} {l r e : Expr}

theorem built (h : e.Typed Γ) : e.Built Γ := by
  induction e with
  | var | bool => exact h
  | unary op e ty o ih => exact ⟨ih h.1, h.2⟩
  | binary op l r ty o ihl ihr => exact ⟨ihl h.1, ihr h.2.1, h.2.2.2.2⟩
  | select c t e ty o ihc iht ihe => exact ⟨ihc h.1, iht h.2.1, ihe h.2.2.1, h.2.2.2.2⟩
  | access t i ty o _ ihi =>
    refine ⟨fun n ty' o' ht => ?_, ihi h.2⟩
    subst ht
    exact h.1
  | convert e ty ih | bitCast e ty ih => exact ih h
  | int | float | place | size | capability => trivial

theorem literal {v : Int} (h : Word64.fits v = true) : (i64 v).Typed Γ := ⟨rfl, h⟩

theorem op2 {op : Binary} (hl : l.Typed Γ) (hr : r.Typed Γ) (heq : l.ty = r.ty)
    (hlog : op.isLogical = true → l.ty = .bool) : (op2 op l r).Typed Γ := ⟨hl, hr, heq, hlog, rfl⟩

theorem op1 (op : Unary) (he : e.Typed Γ) : (op1 op e).Typed Γ := ⟨he, rfl⟩

theorem element {n : Name} {sc : Scalar} (hn : Γ.arrays n = some sc) (he : e.Typed Γ) (space : Space) :
    (element n sc space e).Typed Γ := ⟨hn, he⟩

end Expr.Typed

namespace Binary

variable {op : Binary} {s t : Scalar} {l r v : Value}

theorem fits_of_evalInt {a b : Int} (hs : (op.isComparison || op.isLogical) = true → s = .bool)
    (h : op.evalInt a b s = .ok v) : v.Fits s := by
  cases op <;> simp only [evalInt] at h
  case div | rem =>
    split_ifs at h
    cases h
    exact Value.fits_ofInt _ s
  all_goals
    cases h
    first
    | exact Value.fits_ofInt _ s
    | exact hs rfl

theorem fits_of_evalFloat {a b : Float} (hs : (op.isComparison || op.isLogical) = true → s = .bool)
    (h : op.evalFloat a b s = .ok v) : v.Fits s := by
  cases op <;> simp only [evalFloat, reduceCtorEq] at h
  all_goals
    cases h
    first
    | exact Value.fits_ofFloat _ s
    | exact hs rfl

/-- an operator on two values of a type gives one of its result type -/
theorem fits_of_eval (hl : l.Fits t) (h : op.eval l r s = .ok v)
    (hs : s = if op.isComparison || op.isLogical then .bool else t) : v.Fits s := by
  have hbool : (op.isComparison || op.isLogical) = true → s = .bool := fun h => by rw [hs, if_pos h]
  cases l with
  | float => exact fits_of_evalFloat hbool h
  | int x t' =>
    cases r with
    | float => exact fits_of_evalFloat hbool h
    | _ => exact fits_of_evalInt hbool h
  | bool x =>
    obtain rfl : t = .bool := hl
    cases r with
    | float => exact fits_of_evalFloat hbool h
    | int => exact fits_of_evalInt hbool h
    | bool y =>
      obtain rfl : s = .bool := by rw [hs, ite_self]
      simp only [eval] at h
      unfold evalBool at h
      split at h
      all_goals first
        | exact fits_of_evalInt hbool h
        | (cases h; rfl)

end Binary

/-- an operator on a value of a type gives one of its result type -/
theorem Unary.fits_of_eval {op : Unary} {s t : Scalar} {v w : Value} (hv : v.Fits t) (h : op.eval v s = .ok w)
    (hs : s = if op = .not then .bool else t) : w.Fits s := by
  unfold Unary.eval at h
  split at h <;> simp only [Except.ok.injEq, reduceCtorEq] at h
  all_goals
    subst h
    first
    | exact Value.fits_ofInt _ s
    | exact Value.fits_ofFloat _ s
    | exact hs
    | exact hs.trans hv

theorem Atomic.fits_of_eval {op : Atomic} {s t t' : Scalar} {v w r : Value} (hv : v.Fits t) (hw : w.Fits t')
    (h : op.eval v w s = .ok r) : r.Fits s := by
  unfold Atomic.eval at h
  split at h
  case h_1 b hb =>
    refine Binary.fits_of_eval (hv.convert s) h ?_
    cases op <;> cases hb <;> rfl
  case h_2 =>
    cases h
    exact hw.convert s

/-! ## Memory -/

namespace Buffer

/-- all elements are values of the element type -/
def Uniform (b : Buffer) : Prop :=
  ∀ v ∈ b.cells, v.Fits b.elem

theorem uniform_zeros (s : Scalar) (count : ℕ) : (zeros s count).Uniform := by
  intro v hv
  rw [(Array.mem_replicate.1 hv).2]
  exact Value.fits_ofInt 0 s

theorem uniform_ofValues (s : Scalar) {values : List Value} (h : ∀ v ∈ values, v.Fits v.scalar) :
    (ofValues s values).Uniform := by
  intro v hv
  obtain ⟨w, hw, rfl⟩ := List.mem_map.1 (List.mem_toArray.1 hv)
  exact (h w hw).convert s

theorem Uniform.put {b : Buffer} (h : b.Uniform) {v : Value} (hv : v.Fits v.scalar) (k : ℕ) : (b.put k v).Uniform := by
  intro w hw
  rcases Array.mem_or_eq_of_mem_setIfInBounds hw with hw | rfl
  · exact h w hw
  · exact hv.convert b.elem

theorem Uniform.store {b : Buffer} (h : b.Uniform) {l : List Value} (hl : ∀ v ∈ l, v.Fits v.scalar) (k : ℕ) :
    (b.store k l).Uniform := by
  induction l generalizing b k with
  | nil => exact h
  | cons v l ih =>
    rw [List.forall_mem_cons] at hl
    exact ih (h.put hl.1 k) hl.2 (k + 1)

end Buffer

namespace Memory

variable {Γ : Typing} {m m' : Memory} {n : Name} {p : ℕ} {b : Buffer}

/-- the arrays hold values of their element types, and have those of the typing -/
structure Conforms (Γ : Typing) (m : Memory) : Prop where
  uniform : ∀ {p : ℕ} {b : Buffer}, m.buffers[p]? = some b → b.Uniform
  elem : ∀ {n : Name} {p : ℕ} {sc : Scalar}, m.names.get? n = some p → Γ.arrays n = some sc →
    ∃ b : Buffer, m.buffers[p]? = some b ∧ b.elem = sc

/-- an element that is read is one of the array -/
theorem Has.of_read {k : Int} {v : Value} (h : m.read n k = .ok v) : ∃ p b, m.Has n p b ∧ v ∈ b.cells := by
  unfold Memory.read at h
  cases ha : m.locate n k with
  | error e =>
    rw [ha] at h
    cases h
  | ok a =>
    rw [ha] at h
    obtain ⟨b, hb, hlt, -⟩ := Has.of_locate ha
    obtain rfl : m.cell a.1 a.2 = v := Except.ok.inj h
    rw [hb.cell_eq hlt]
    exact ⟨a.1, b, hb, Array.getElem_mem hlt⟩

theorem Conforms.read (h : m.Conforms Γ) {k : Int} {v : Value} (hv : m.read n k = .ok v) : v.Fits v.scalar := by
  obtain ⟨p, b, hb, hmem⟩ := Has.of_read hv
  exact (h.uniform hb.buffer v hmem).own

theorem Conforms.read_elem (h : m.Conforms Γ) {k : Int} {v : Value} {sc : Scalar} (hn : Γ.arrays n = some sc)
    (hv : m.read n k = .ok v) : v.Fits sc := by
  obtain ⟨p, b, hb, hmem⟩ := Has.of_read hv
  obtain ⟨b', hb', rfl⟩ := h.elem hb.name hn
  obtain rfl : b = b' := Option.some.inj (hb.buffer.symm.trans hb')
  exact h.uniform hb.buffer v hmem

/-- every buffer is still there, with its element type -/
def KeepsElems (m m' : Memory) : Prop :=
  ∀ (p : ℕ) (b : Buffer), m.buffers[p]? = some b → ∃ b' : Buffer, m'.buffers[p]? = some b' ∧ b'.elem = b.elem

theorem KeepsElems.refl (m : Memory) : m.KeepsElems m := fun _ b h => ⟨b, h, rfl⟩

theorem KeepsElems.trans {m'' : Memory} (h : m.KeepsElems m') (h' : m'.KeepsElems m'') : m.KeepsElems m'' := fun p b hb => by
  obtain ⟨b', hb', he⟩ := h p b hb
  obtain ⟨b'', hb'', he'⟩ := h' p b' hb'
  exact ⟨b'', hb'', he'.trans he⟩

/-- a change that keeps the names of a memory keeps its types, if it keeps those of the buffers -/
theorem Conforms.of_keepsElems (h : m.Conforms Γ) (he : m.KeepsElems m') (hn : m'.names = m.names)
    (hu : ∀ {p : ℕ} {b : Buffer}, m'.buffers[p]? = some b → b.Uniform) : m'.Conforms Γ where
  uniform := hu
  elem := fun {_ p _} hp hx => by
    obtain ⟨b, hb, rfl⟩ := h.elem (hn ▸ hp) hx
    exact he p b hb

theorem Conforms.store (h : m.Conforms Γ) {l : List Value} (hl : ∀ v ∈ l, v.Fits v.scalar) (q k : ℕ) :
    (m.store q k l).Conforms Γ ∧ m.KeepsElems (m.store q k l) := by
  have hext : m.KeepsElems (m.store q k l) := fun p b hb => by
    rw [getElem?_store, hb]
    split_ifs
    · exact ⟨_, rfl, b.elem_store k l⟩
    · exact ⟨b, rfl, rfl⟩
  refine ⟨h.of_keepsElems hext rfl fun {p b} hb => ?_, hext⟩
  rw [getElem?_store] at hb
  split_ifs at hb
  · obtain ⟨b', hb', rfl⟩ := Option.map_eq_some_iff.1 hb
    exact (h.uniform hb').store hl k
  · exact h.uniform hb

theorem Conforms.insert (h : m.Conforms Γ) (hb : b.Uniform) (hn : Γ.arrays n = some b.elem) :
    (m.insert n b).Conforms Γ ∧ m.KeepsElems (m.insert n b) := by
  have hget (p : ℕ) : (m.insert n b).buffers[p]? = if p = m.buffers.size then some b else m.buffers[p]? := by
    simp only [Memory.insert, Array.getElem?_push]
  have hext : m.KeepsElems (m.insert n b) := fun p b' hb' => by
    refine ⟨b', ?_, rfl⟩
    rw [hget, if_neg, hb']
    rintro rfl
    simp at hb'
  refine ⟨⟨fun {p b'} hb' => ?_, fun {x p sc} hp hx => ?_⟩, hext⟩
  · rw [hget] at hb'
    split_ifs at hb'
    · exact Option.some.inj hb' ▸ hb
    · exact h.uniform hb'
  · simp only [Memory.insert, Bindings.get?_set] at hp
    split_ifs at hp with hnx
    · subst hnx
      obtain rfl := Option.some.inj hp
      exact ⟨b, by rw [hget, if_pos rfl], Option.some.inj (hn.symm.trans hx)⟩
    · obtain ⟨b', hb', rfl⟩ := h.elem hp hx
      exact hext p b' hb'

theorem Conforms.of_rebind (h : m.Conforms Γ) {dst src : Name}
    (hty : ∀ sc, Γ.arrays dst = some sc → Γ.arrays src = some sc) {a : Unit} (hr : rebind dst src m = .ok a m') :
    m'.Conforms Γ ∧ m.KeepsElems m' := by
  obtain ⟨p, hp, hu⟩ := change_eq_ok hr
  obtain ⟨f, hf, hp⟩ := except_bind_eq_ok.1 hp
  obtain rfl := except_pure_eq_ok.1 hp
  obtain rfl := congrArg Prod.snd hu
  refine ⟨⟨h.uniform, fun {x q sc} hq hx => ?_⟩, .refl m⟩
  simp only [Bindings.get?_set] at hq
  split_ifs at hq with hd
  · subst hd
    obtain rfl := Option.some.inj hq
    exact h.elem (Has.of_lookup hf).name (hty sc hx)
  · exact h.elem hq hx

theorem Conforms.of_remove (h : m.Conforms Γ) {a : Unit} (hr : remove n m = .ok a m') :
    m'.Conforms Γ ∧ m.KeepsElems m' := by
  obtain ⟨-, -, hu⟩ := change_eq_ok hr
  obtain rfl := congrArg Prod.snd hu
  refine ⟨⟨h.uniform, fun {x q sc} hq hx => ?_⟩, .refl m⟩
  simp only [Bindings.get?_erase] at hq
  split_ifs at hq
  exact h.elem hq hx

theorem Conforms.of_fill (h : m.Conforms Γ) {i k : Int} {v : Value} (hv : v.Fits v.scalar) {a : Unit}
    (hr : fill n i k v m = .ok a m') : m'.Conforms Γ ∧ m.KeepsElems m' := by
  obtain ⟨r, -, hu⟩ := change_eq_ok hr
  obtain rfl := congrArg Prod.snd hu
  exact h.store (fun w hw => List.eq_of_mem_replicate hw ▸ hv) _ _

/-- the elements of a range are values of their own types -/
theorem Conforms.readRange (h : m.Conforms Γ) {i k : Int} {l : List Value} (hl : m.readRange n i k = .ok l) :
    ∀ v ∈ l, v.Fits v.scalar := by
  intro v hmem
  obtain ⟨f, hf, hv⟩ := except_bind_eq_ok.1 hl
  obtain ⟨range, -, hv⟩ := except_bind_eq_ok.1 hv
  obtain rfl := except_pure_eq_ok.1 hv
  have hcell : v ∈ f.buffer.cells := by
    rw [Array.toList_extract] at hmem
    exact Array.mem_toList_iff.1 (List.mem_of_mem_drop (List.mem_of_mem_take hmem))
  exact (h.uniform (Has.of_lookup hf).buffer v hcell).own

theorem Conforms.of_copy (h : m.Conforms Γ) {dst src : Name} {i j k : Int} {a : Unit}
    (hr : copy dst i src j k m = .ok a m') : m'.Conforms Γ ∧ m.KeepsElems m' := by
  obtain ⟨r, hcheck, hu⟩ := change_eq_ok hr
  obtain rfl := congrArg Prod.snd hu
  obtain ⟨values, hv, hcheck⟩ := except_bind_eq_ok.1 hcheck
  obtain ⟨place, -, hcheck⟩ := except_bind_eq_ok.1 hcheck
  obtain rfl := except_pure_eq_ok.1 hcheck
  exact h.store (h.readRange hv) _ _

/-- what is left of a memory when the names and the number of buffers are again as before -/
theorem Conforms.restore (h : m.Conforms Γ) (h' : m'.Conforms Γ) (he : m.KeepsElems m') :
    (Machine.restore m' m.buffers.size m.names).Conforms Γ ∧
      m.KeepsElems (Machine.restore m' m.buffers.size m.names) := by
  have hget (p : ℕ) : (Machine.restore m' m.buffers.size m.names).buffers[p]? =
      if p < m.buffers.size then m'.buffers[p]? else none := by
    rw [Machine.restore, ← Array.getElem?_toList, Array.toList_shrink, List.getElem?_take, Array.getElem?_toList]
  have hext : m.KeepsElems (Machine.restore m' m.buffers.size m.names) := fun p b hb => by
    obtain ⟨b', hb', hb''⟩ := he p b hb
    exact ⟨b', by rw [hget, if_pos (Array.getElem?_eq_some_iff.1 hb).1, hb'], hb''⟩
  refine ⟨h.of_keepsElems hext rfl fun {p b} hb => ?_, hext⟩
  rw [hget] at hb
  split_ifs at hb
  exact h'.uniform hb

end Memory

namespace Machine

/-- the variables have values of their types -/
def Admits (Γ : Typing) (vars : Bindings Value) : Prop :=
  ∀ n sc v, Γ.vars n = some sc → vars.get? n = some v → v.Fits sc

/-- the variables and arrays have values of the types of the typing -/
structure State.Conforms (Γ : Typing) (s : State) : Prop where
  vars : Admits Γ s.vars
  memory : s.memory.Conforms Γ

variable {Γ : Typing} {c : Context} {s : State}

theorem State.Conforms.empty (Γ : Typing) : State.Conforms Γ {} where
  vars := fun _ _ _ _ h => nomatch h
  memory := ⟨fun h => by simp at h, fun h => nomatch h⟩

theorem State.Conforms.set (h : s.Conforms Γ) {n : Name} {v : Value} (hv : ∀ sc, Γ.vars n = some sc → v.Fits sc) :
    (s.set n v).Conforms Γ where
  vars := fun m sc w hm hw => by
    rw [State.get?_set] at hw
    split_ifs at hw with hnm
    · subst hnm
      exact Option.some.inj hw ▸ hv sc hm
    · exact h.vars m sc w hm hw
  memory := h.memory

/-! ## Evaluation -/

theorem liftArithmetic_eq_ok {o : Origin} {r : Arithmetic} {v : Value} :
    liftArithmetic o r = .ok v ↔ r = .ok v := by
  cases r <;> simp [liftArithmetic]

theorem liftMemory_eq_ok {α : Type} {o : Origin} {r : Except MemoryError α} {a : α} :
    liftMemory o r = .ok a ↔ r = .ok a := by
  cases r <;> simp [liftMemory]

theorem eval_var_eq_ok {n : Name} {ty : Ty} {o : Origin} {v : Value} :
    eval c s (.var n ty o) = .ok v ↔ s.vars.get? n = some v := by
  rw [eval]
  cases s.vars.get? n <;> simp

theorem eval_unary_eq_ok {op : Unary} {e : Expr} {ty : Ty} {o : Origin} {v : Value} :
    eval c s (.unary op e ty o) = .ok v ↔ ∃ w, eval c s e = .ok w ∧ op.eval w ty.elem = .ok v := by
  rw [eval, except_bind_eq_ok]
  simp only [liftArithmetic_eq_ok]

theorem eval_binary_eq_ok {op : Binary} (h : op.isLogical = false) {l r : Expr} {ty : Ty} {o : Origin} {v : Value} :
    eval c s (.binary op l r ty o) = .ok v ↔
      ∃ x y, eval c s l = .ok x ∧ eval c s r = .ok y ∧ op.eval x y ty.elem = .ok v := by
  rw [eval_binary h, except_bind_eq_ok]
  simp only [except_bind_eq_ok, liftArithmetic_eq_ok, exists_and_left]

/-- a conjunction; its second part is only looked at when the first holds -/
theorem eval_and_eq_ok {l r : Expr} {ty : Ty} {o : Origin} {v : Value} :
    eval c s (.binary .and l r ty o) = .ok v ↔
      ∃ x, eval c s l = .ok x ∧
        if x.truth then ∃ y, eval c s r = .ok y ∧ Value.bool y.truth = v else Value.bool false = v := by
  rw [eval, except_bind_eq_ok]
  refine exists_congr fun x => and_congr_right fun _ => ?_
  cases x.truth
  · exact except_pure_eq_ok
  · simp only [if_true, except_bind_eq_ok, except_pure_eq_ok]

/-- a disjunction; its second part is only looked at when the first does not hold -/
theorem eval_or_eq_ok {l r : Expr} {ty : Ty} {o : Origin} {v : Value} :
    eval c s (.binary .or l r ty o) = .ok v ↔
      ∃ x, eval c s l = .ok x ∧
        if x.truth then Value.bool true = v else ∃ y, eval c s r = .ok y ∧ Value.bool y.truth = v := by
  rw [eval, except_bind_eq_ok]
  refine exists_congr fun x => and_congr_right fun _ => ?_
  cases x.truth
  · simp only [Bool.false_eq_true, if_false, except_bind_eq_ok, except_pure_eq_ok]
  · exact except_pure_eq_ok

theorem eval_select_eq_ok {b t e : Expr} {ty : Ty} {o : Origin} {v : Value} :
    eval c s (.select b t e ty o) = .ok v ↔
      ∃ x, eval c s b = .ok x ∧ if x.truth then eval c s t = .ok v else eval c s e = .ok v := by
  rw [eval, except_bind_eq_ok]
  exact exists_congr fun x => and_congr_right fun _ => by split_ifs <;> exact Iff.rfl

/-- an access succeeds on a named array only -/
theorem eval_access_eq_ok {t i : Expr} {ty : Ty} {o : Origin} {v : Value} :
    eval c s (.access t i ty o) = .ok v ↔
      ∃ n ty' o' k, t = .var n ty' o' ∧ eval c s i = .ok k ∧ s.memory.read n k.toInt64 = .ok v := by
  rw [eval, except_bind_eq_ok]
  simp only [except_bind_eq_ok, liftMemory_eq_ok]
  constructor
  · rintro ⟨n, hn, k, hk, hv⟩
    cases t <;> cases hn
    exact ⟨_, _, _, k, rfl, hk, hv⟩
  · rintro ⟨n, ty', o', k, rfl, hk, hv⟩
    exact ⟨n, rfl, k, hk, hv⟩

theorem eval_convert_eq_ok {e : Expr} {ty : Ty} {v : Value} :
    eval c s (.convert e ty) = .ok v ↔ ∃ w, eval c s e = .ok w ∧ w.convert ty.elem = v := by
  rw [eval, except_bind_eq_ok]
  simp only [except_pure_eq_ok]

theorem eval_bitCast_eq_ok {e : Expr} {ty : Ty} {v : Value} :
    eval c s (.bitCast e ty) = .ok v ↔
      ∃ w, eval c s e = .ok w ∧ w.scalar.bytes = ty.elem.bytes ∧ Value.ofBits w.toBits ty.elem = v := by
  rw [eval, except_bind_eq_ok]
  refine exists_congr fun w => and_congr_right fun _ => ?_
  unfold castBits
  split_ifs with h <;> simp [h]

/-- a conjunction or a disjunction has a truth value -/
theorem eval_logical {op : Binary} (hop : op.isLogical = true) {l r : Expr} {ty : Ty} {o : Origin} {v : Value}
    (h : eval c s (.binary op l r ty o) = .ok v) : ∃ b, v = .bool b := by
  cases op <;> cases hop
  · obtain ⟨x, -, hv⟩ := eval_and_eq_ok.1 h
    split_ifs at hv
    · obtain ⟨y, -, rfl⟩ := hv
      exact ⟨_, rfl⟩
    · exact ⟨_, hv.symm⟩
  · obtain ⟨x, -, hv⟩ := eval_or_eq_ok.1 h
    split_ifs at hv
    · exact ⟨_, hv.symm⟩
    · obtain ⟨y, -, rfl⟩ := hv
      exact ⟨_, rfl⟩

/-- **Types are sound.** An expression with the types it is built with evaluates to a value of its type, if to any. -/
theorem eval_built {e : Expr} (he : e.Built Γ) (hs : s.Conforms Γ) {v : Value} (h : eval c s e = .ok v) :
    v.Fits e.ty.elem := by
  induction e generalizing v with
  | var n ty o => exact hs.vars n ty.elem v he (eval_var_eq_ok.1 h)
  | bool b ty o =>
    cases h
    exact congrArg Ty.elem he
  | int x ty o =>
    cases h
    exact Value.fits_ofInt x ty.elem
  | float b ty o =>
    cases h
    exact Value.fits_ofFloat _ ty.elem
  | unary op e ty o ih =>
    obtain ⟨he, hty⟩ := he
    obtain ⟨w, hw, hv⟩ := eval_unary_eq_ok.1 h
    refine Unary.fits_of_eval (ih he hw) hv ?_
    change ty.elem = _
    rw [hty, Unary.resultTy, apply_ite Ty.elem]
    rfl
  | binary op l r ty o ihl ihr =>
    obtain ⟨hl, -, hty⟩ := he
    have helem : ty.elem = if op.isComparison || op.isLogical then .bool else l.ty.elem := by
      rw [hty, Binary.resultTy, apply_ite Ty.elem]
      rfl
    change v.Fits ty.elem
    cases hop : op.isLogical with
    | false =>
      obtain ⟨x, y, hx, -, hv⟩ := (eval_binary_eq_ok hop).1 h
      exact Binary.fits_of_eval (ihl hl hx) hv helem
    | true =>
      obtain ⟨b, rfl⟩ := eval_logical hop h
      rw [helem, hop, Bool.or_true, if_pos rfl]
      rfl
  | select b t e ty o ihb iht ihe =>
    obtain ⟨-, ht, he, heq, hty⟩ := he
    obtain ⟨x, -, hv⟩ := eval_select_eq_ok.1 h
    change v.Fits ty.elem
    rw [hty]
    split_ifs at hv
    · exact iht ht hv
    · exact heq ▸ ihe he hv
  | access t i ty o iht ihi =>
    obtain ⟨n, ty', o', k, rfl, -, hv⟩ := eval_access_eq_ok.1 h
    exact hs.memory.read_elem (he.1 n ty' o' rfl) hv
  | convert e ty ih =>
    obtain ⟨w, hw, rfl⟩ := eval_convert_eq_ok.1 h
    exact (ih he hw).convert ty.elem
  | bitCast e ty ih =>
    obtain ⟨w, -, -, rfl⟩ := eval_bitCast_eq_ok.1 h
    exact Value.fits_ofBits _ ty.elem
  | place p axis o =>
    simp only [eval, evalPlace] at h
    split at h <;> cases h
    exact Value.fits_ofInt _ .i64
  | size id o =>
    simp only [eval, evalSize] at h
    split at h <;> cases h
    exact Value.fits_ofInt _ .i64
  | capability q o =>
    simp only [eval, evalCapability] at h
    split at h <;> cases h
    exact Value.fits_ofInt _ .i64

theorem eval_fits {e : Expr} (he : e.Typed Γ) (hs : s.Conforms Γ) {v : Value} (h : eval c s e = .ok v) :
    v.Fits e.ty.elem := eval_built he.built hs h

end Machine

/-! ## Statements -/

mutual

/-- the expressions of a statement satisfy `E`, and what it binds has the type of the name it is bound to -/
def Stmt.Typed (Γ : Typing) (E : Expr → Prop) : Stmt → Prop
  | .define ty n e _ => E e ∧ Γ.vars n = some ty.elem
  | .assign dst e _ => E dst ∧ E e
  | .forLoop ty n init cond incr body _ =>
    E init ∧ E cond ∧ E incr ∧ Γ.vars n = some ty.elem ∧ blockTyped Γ E body
  | .ifElse cond thn els _ => E cond ∧ blockTyped Γ E thn ∧ blockTyped Γ E els
  | .whileLoop cond body _ => E cond ∧ blockTyped Γ E body
  | .scope body _ => blockTyped Γ E body
  | .atomic _ _ s _ idx e old _ => E idx ∧ E e ∧ ∀ n ∈ old, Γ.vars n = some s
  | .compareSwap old _ s _ idx cmp new _ => E idx ∧ E cmp ∧ E new ∧ Γ.vars old = some s.bitPattern
  | .alloc n s count _ => E count ∧ Γ.arrays n = some s
  | .copy _ i _ j k _ => E i ∧ E j ∧ E k
  | .fill _ i k e _ => E i ∧ E k ∧ E e
  | .rebind dst src _ => ∀ sc, Γ.arrays dst = some sc → Γ.arrays src = some sc
  | .table n s values _ => (∀ e ∈ values, E e) ∧ Γ.arrays n = some s
  | .launch spec body _ =>
    (∀ e ∈ spec.groups, E e) ∧ (∀ e ∈ spec.groupSize, E e) ∧ (∀ b ∈ spec.blocks, Γ.arrays b.name = some b.elem) ∧
      blockTyped Γ E body
  | .barrier .. | .fence .. | .free .. => True

/-- some statements are typed, with expressions that satisfy `E` -/
def blockTyped (Γ : Typing) (E : Expr → Prop) : List Stmt → Prop
  | [] => True
  | s :: rest => s.Typed Γ E ∧ blockTyped Γ E rest

end

theorem blockTyped_iff {Γ : Typing} {E : Expr → Prop} {l : List Stmt} : blockTyped Γ E l ↔ ∀ s ∈ l, s.Typed Γ E := by
  induction l with
  | nil => simp [blockTyped]
  | cons s l ih => simp [blockTyped, ih]

end GpuHistogram
