/-
The points of a run. `Reaches c l s x t` says that host code `l` that starts in `s` comes to a statement `x` in the state
`t`, in whatever branch or round of a loop. What is claimed of every launch of a run is claimed of the launches that it
reaches.

`Exact c s e` says that no 64-bit operator overflows when `e` is evaluated, and `NoOverflow` that this holds of all
expressions at all points of a run. Where nothing overflows the value of an expression is that of the formula on integers
(`Computes.op2_of_exact`), so that arithmetic can be read off what the code computed.
-/
import GpuHistogram.Proofs.Emission
import GpuHistogram.Proofs.FoldedValues

namespace GpuHistogram

/-- the expressions that a statement evaluates where it begins -/
def Stmt.evaluated : Stmt → List Expr
  | .define _ _ e _ => [e]
  | .assign (.access _ i _ _) e _ => [e, i]
  | .assign _ e _ => [e]
  | .forLoop _ _ init _ _ _ _ => [init]
  | .ifElse cond _ _ _ | .whileLoop cond _ _ => [cond]
  | .atomic _ _ _ _ i e _ _ => [i, e]
  | .compareSwap _ _ _ _ i cmp new _ => [i, cmp, new]
  | .alloc _ _ count _ => [count]
  | .copy _ i _ j k _ => [i, j, k]
  | .fill _ i k e _ => [i, k, e]
  | .table _ _ values _ => values
  | .launch spec _ _ =>
    spec.groups ++ spec.groupSize ++ spec.blocks.filterMap fun b =>
      match b.size with
      | .fixed _ => none
      | .computed e => some e
  | .scope .. | .barrier .. | .fence .. | .free .. | .rebind .. => []

/-! ## Folding one operator -/

/-- what an operator node is folded to: itself, a result of words, one part if the other is neutral, or a product with
zero -/
inductive Expr.FoldsTo (op : Binary) (l r : Expr) (ty : Ty) (o : Origin) : Expr → Prop
  | node : FoldsTo op l r ty o (.binary op l r ty o)
  | words {a b : Int} {p q : Origin} {e : Expr} (hl : l = .int a .i64 p) (hr : r = .int b .i64 q)
    (he : op.foldWords? a b = some e) : FoldsTo op l r ty o (e.withOrigin o)
  | left {k : Int} (hk : r.isLiteral k = true) (hn : ∀ a, op.number? a k = some a) : FoldsTo op l r ty o l
  | right {k : Int} (hk : l.isLiteral k = true) (hn : ∀ b, op.number? k b = some b) : FoldsTo op l r ty o r
  | zero (hop : op = .mul) (hk : l.isLiteral 0 = true ∨ r.isLiteral 0 = true) : FoldsTo op l r ty o (.int 0 ty o)

namespace Expr

theorem foldsTo_foldNeutral (op : Binary) (l r : Expr) (ty : Ty) (o : Origin) :
    FoldsTo op l r ty o (foldNeutral op l r ty o) := by
  unfold foldNeutral
  split
  case h_1 =>
    split_ifs with h0 h0'
    · exact .left h0 fun a => congrArg some (add_zero a)
    · exact .right h0' fun b => congrArg some (zero_add b)
    · exact .node
  case h_2 =>
    split_ifs with h0
    · exact .left h0 fun a => congrArg some (sub_zero a)
    · exact .node
  case h_3 =>
    split_ifs with h1 h1' h0
    · exact .left h1 fun a => congrArg some (mul_one a)
    · exact .right h1' fun b => congrArg some (one_mul b)
    · exact .zero rfl (Bool.or_eq_true_iff.1 h0)
    · exact .node
  case h_4 =>
    split_ifs with h1
    · exact .left h1 fun a => congrArg some (Int.tdiv_one a)
    · exact .node
  case h_5 => exact .node

theorem foldsTo_foldBinary (op : Binary) (l r : Expr) (ty : Ty) (o : Origin) (hop : op.isLogical = false) :
    FoldsTo op l r ty o (foldBinary op l r ty o) := by
  unfold foldBinary
  split
  · split
    · rename_i e he
      exact .words rfl rfl he
    · exact .node
  · have hmixed : foldMixed op l r ty o = if ty = .i64 then foldNeutral op l r ty o else .binary op l r ty o := by
      cases op <;> first | rfl | cases hop
    rw [hmixed]
    split_ifs
    · exact foldsTo_foldNeutral op l r ty o
    · exact .node

end Expr

namespace Machine

variable {c : Context} {s t u : State} {x y : Stmt} {l l' : List Stmt}

/-- a loop with so many rounds left begins a round in the state `t` -/
def Begins (cond : Exec Bool) (round : Exec Unit) : ℕ → State → State → Prop
  | 0, _, _ => False
  | left + 1, s, t => cond s = .ok true s ∧ (s = t ∨ ∃ u, round s = .ok () u ∧ Begins cond round left u t)

/-- host code that starts in one state comes to a statement in another -/
inductive Reaches (c : Context) : List Stmt → State → Stmt → State → Prop
  | here {x : Stmt} {l : List Stmt} {s : State} : Reaches c (x :: l) s x s
  | later {x y : Stmt} {l : List Stmt} {s t u : State} (hx : exec (launch c) c x s = .ok () t) (h : Reaches c l t y u) :
    Reaches c (x :: l) s y u
  | thn {cond : Expr} {thn els l : List Stmt} {o : Origin} {y : Stmt} {s u : State} (hb : holds c cond s = .ok true s)
    (h : Reaches c thn s y u) : Reaches c (.ifElse cond thn els o :: l) s y u
  | els {cond : Expr} {thn els l : List Stmt} {o : Origin} {y : Stmt} {s u : State} (hb : holds c cond s = .ok false s)
    (h : Reaches c els s y u) : Reaches c (.ifElse cond thn els o :: l) s y u
  | scope {body l : List Stmt} {o : Origin} {y : Stmt} {s u : State} (h : Reaches c body s y u) :
    Reaches c (.scope body o :: l) s y u
  | whileLoop {cond : Expr} {body l : List Stmt} {o : Origin} {y : Stmt} {s t u : State}
    (hb : Begins (holds c cond) (execAll (launch c) c body) c.rounds s t) (h : Reaches c body t y u) :
    Reaches c (.whileLoop cond body o :: l) s y u
  | forLoop {ty : Ty} {n : Name} {init cond incr : Expr} {body l : List Stmt} {o : Origin} {y : Stmt} {s t u : State}
    {first : Value} (hf : eval c s init = .ok first)
    (hb : Begins (holds c cond) (do
      execAll (launch c) c body
      let next ← value c incr
      setVar n (next.convert ty.elem)) c.rounds (s.set n (first.convert ty.elem)) t)
    (h : Reaches c body t y u) : Reaches c (.forLoop ty n init cond incr body o :: l) s y u

namespace Reaches

theorem append_left (h : Reaches c l s y u) : Reaches c (l ++ l') s y u := by
  induction h with
  | here => exact here
  | later hx _ ih => exact later hx ih
  | thn hb h _ => exact thn hb h
  | els hb h _ => exact els hb h
  | scope h _ => exact scope h
  | whileLoop hb h _ => exact whileLoop hb h
  | forLoop hf hb h _ => exact forLoop hf hb h

theorem append_right (hl : execAll (launch c) c l s = .ok () t) (h : Reaches c l' t y u) : Reaches c (l ++ l') s y u := by
  induction l generalizing s with
  | nil =>
    rw [execAll_nil] at hl
    cases hl
    exact h
  | cons x l ih =>
    obtain ⟨w, hx, hl⟩ := execAll_cons_eq_ok.1 hl
    exact later hx (ih hl)

/-- a point of two pieces of code is one of the first, or one of the second after the first -/
theorem of_append (h : Reaches c (l ++ l') s y u) :
    Reaches c l s y u ∨ ∃ t, execAll (launch c) c l s = .ok () t ∧ Reaches c l' t y u := by
  induction l generalizing s with
  | nil => exact .inr ⟨s, execAll_nil, h⟩
  | cons x l ih =>
    rw [List.cons_append] at h
    cases h with
    | here => exact .inl here
    | later hx h =>
      rcases ih h with h | ⟨t, ht, h⟩
      · exact .inl (later hx h)
      · exact .inr ⟨t, execAll_cons_eq_ok.2 ⟨_, hx, ht⟩, h⟩
    | thn hb h => exact .inl (thn hb h)
    | els hb h => exact .inl (els hb h)
    | scope h => exact .inl (scope h)
    | whileLoop hb h => exact .inl (whileLoop hb h)
    | forLoop hf hb h => exact .inl (forLoop hf hb h)

/-- what is launched is launched by the code -/
theorem mem_kernels {spec : LaunchSpec} {body : List Stmt} {o : Origin} (h : Reaches c l s (.launch spec body o) t) :
    (⟨spec, body⟩ : Kernel) ∈ blockKernels l := by
  generalize hy : Stmt.launch spec body o = y at h
  induction h with
  | here =>
    subst hy
    exact List.mem_append_left _ (by simp [Stmt.kernels])
  | later _ _ ih =>
    rw [blockKernels_cons]
    exact List.mem_append_right _ (ih hy)
  | thn _ _ ih | els _ _ ih | scope _ ih | whileLoop _ _ ih | forLoop _ _ _ ih =>
    rw [blockKernels_cons, Stmt.kernels]
    simp [ih hy]

/-- a launch in a folded conditional is one of the branch taken -/
theorem of_ifElse {cond : Expr} {thn els : List Stmt} {o o' : Origin} {spec : LaunchSpec} {body : List Stmt}
    (h : Reaches c (foldBlock [.ifElse cond thn els o]) s (.launch spec body o') t) :
    ∃ v, eval c s cond.fold = .ok v ∧
      if v.truth then Reaches c (foldBlock thn) s (.launch spec body o') t
      else Reaches c (foldBlock els) s (.launch spec body o') t := by
  rw [foldBlock, foldBlock, List.append_nil, Stmt.fold] at h
  split at h
  · rename_i p q hc
    exact ⟨.bool true, by rw [hc, eval], h⟩
  · rename_i p q hc
    exact ⟨.bool false, by rw [hc, eval], h⟩
  · cases h with
    | later _ h => cases h
    | thn hb h =>
      obtain ⟨v, hv, hb, -⟩ := holds_eq_ok.1 hb
      exact ⟨v, hv, by rwa [if_pos hb]⟩
    | els hb h =>
      obtain ⟨v, hv, hb, -⟩ := holds_eq_ok.1 hb
      exact ⟨v, hv, by rwa [if_neg (by simp [hb])]⟩

end Reaches

/-! ## Arithmetic that does not overflow -/

/-- no 64-bit operator overflows when the expression is evaluated -/
def Exact (c : Context) (s : State) : Expr → Prop
  | .unary op e _ _ => Exact c s e ∧ ∀ a, eval c s e = .ok (.word a) → op = .neg → Word64.fits (-a) = true
  | .binary op l r _ _ =>
    Exact c s l ∧
      (∀ v, eval c s l = .ok v → (op = .and → v.truth = true) → (op = .or → v.truth = false) → Exact c s r) ∧
      ∀ a b v, eval c s l = .ok (.word a) → eval c s r = .ok (.word b) → op.number? a b = some v → Word64.fits v = true
  | .select b t e _ _ => Exact c s b ∧ ∀ v, eval c s b = .ok v → if v.truth then Exact c s t else Exact c s e
  | .access _ i _ _ => Exact c s i
  | .convert e _ | .bitCast e _ => Exact c s e
  | .var .. | .bool .. | .int .. | .float .. | .place .. | .size .. | .capability .. => True

/-- no 64-bit operator overflows in a run of host code -/
def NoOverflow (c : Context) (l : List Stmt) (s : State) : Prop :=
  ∀ x t, Reaches c l s x t → ∀ e ∈ x.evaluated, Exact c t e

namespace NoOverflow

theorem left (h : NoOverflow c (l ++ l') s) : NoOverflow c l s := fun x u hx => h x u hx.append_left

theorem right (h : NoOverflow c (l ++ l') s) (hl : execAll (launch c) c l s = .ok () t) : NoOverflow c l' t :=
  fun x u hx => h x u (hx.append_right hl)

theorem head (h : NoOverflow c (x :: l) s) : ∀ e ∈ x.evaluated, Exact c s e := h x s .here

/-- the condition of a folded conditional does not overflow -/
theorem cond {cond : Expr} {thn els : List Stmt} {o : Origin} (h : NoOverflow c (foldBlock [.ifElse cond thn els o]) s) :
    Exact c s cond.fold := by
  rw [foldBlock, foldBlock, List.append_nil, Stmt.fold] at h
  split at h
  · rename_i p q hc
    rw [hc]
    trivial
  · rename_i p q hc
    rw [hc]
    trivial
  · exact h.head _ (List.mem_singleton.2 rfl)

/-- the branch of a folded conditional that is taken -/
theorem thn {cond : Expr} {thn els : List Stmt} {o : Origin} {v : Value}
    (h : NoOverflow c (foldBlock [.ifElse cond thn els o]) s) (hv : eval c s cond.fold = .ok v) (ht : v.truth = true) :
    NoOverflow c (foldBlock thn) s := by
  rw [foldBlock, foldBlock, List.append_nil, Stmt.fold] at h
  split at h
  · exact h
  · rename_i p q hc
    rw [hc] at hv
    cases hv
    cases ht
  · exact fun x u hx => h x u (.thn (ht ▸ holds_run hv) hx)

end NoOverflow

namespace Exact

variable {l r : Expr} {op : Binary} {ty : Ty} {o : Origin}

theorem of_isLiteral {e : Expr} {v : Int} (h : e.isLiteral v = true) : Exact c s e := by
  cases e with
  | int => trivial
  | _ => cases h

/-- the result of an operator on words is a word if folding has left the operator in place, and also if it has not -/
theorem fits_of_foldBinary {a b v : Int} (h : Exact c s (Expr.foldBinary op l r .i64 o)) (hl : Word c s l a)
    (hr : Word c s r b) (hv : op.number? a b = some v) : Word64.fits v = true := by
  have hf := Expr.foldsTo_foldBinary op l r .i64 o (Binary.isLogical_of_number? hv)
  generalize Expr.foldBinary op l r .i64 o = e at h hf
  cases hf with
  | node => exact h.2.2 a b v hl.value hr.value hv
  | words hl' hr' he =>
    obtain rfl := hl.exact _ _ _ hl'
    obtain rfl := hr.exact _ _ _ hr'
    have ht := (Binary.typed_of_foldWords? ⟨fun _ => none, fun _ => none⟩ hl.fits hr.fits he).1
    rw [Binary.foldWords?_number hv he] at ht
    exact ht.2
  | left hk hn =>
    rw [hr.of_isLiteral hk, hn] at hv
    exact Option.some.inj hv ▸ hl.fits
  | right hk hn =>
    rw [hl.of_isLiteral hk, hn] at hv
    exact Option.some.inj hv ▸ hr.fits
  | zero hop hk =>
    subst hop
    obtain rfl := Option.some.inj hv
    rcases hk with hk | hk
    · rw [hl.of_isLiteral hk, zero_mul]
      rfl
    · rw [hr.of_isLiteral hk, mul_zero]
      rfl

/-- the left part of a folded operator is evaluated too, unless a product is zero -/
theorem left_of_foldBinary (h : Exact c s (Expr.foldBinary op l r ty o)) (hop : op.isLogical = false)
    (hr : op = .mul → r.isLiteral 0 = false) : Exact c s l := by
  have hf := Expr.foldsTo_foldBinary op l r ty o hop
  generalize Expr.foldBinary op l r ty o = e at h hf
  cases hf with
  | node => exact h.1
  | words hl _ _ =>
    rw [hl]
    trivial
  | left _ _ => exact h
  | right hk _ => exact of_isLiteral hk
  | zero hm hk =>
    rcases hk with hk | hk
    · exact of_isLiteral hk
    · exact absurd hk (by simp [hr hm])

/-- so is the right part, where the left one has a value -/
theorem right_of_foldBinary {x : Value} (h : Exact c s (Expr.foldBinary op l r ty o)) (hop : op.isLogical = false)
    (hx : eval c s l = .ok x) (hl : op = .mul → l.isLiteral 0 = false) : Exact c s r := by
  have hf := Expr.foldsTo_foldBinary op l r ty o hop
  generalize Expr.foldBinary op l r ty o = e at h hf
  cases hf with
  | node =>
    refine h.2.1 x hx ?_ ?_
    · rintro rfl
      cases hop
    · rintro rfl
      cases hop
  | words _ hr _ =>
    rw [hr]
    trivial
  | left hk _ => exact of_isLiteral hk
  | right _ _ => exact h
  | zero hm hk =>
    rcases hk with hk | hk
    · exact absurd hk (by simp [hl hm])
    · exact of_isLiteral hk

/-- both parts of a conjunction that holds are evaluated and hold -/
theorem of_foldAnd {v : Value} (h : Exact c s (Expr.foldBinary .and l r .bool o))
    (hv : eval c s (Expr.foldBinary .and l r .bool o) = .ok v) (ht : v.truth = true) :
    (∃ w, eval c s l = .ok w ∧ w.truth = true ∧ Exact c s l) ∧ ∃ w, eval c s r = .ok w ∧ w.truth = true ∧ Exact c s r := by
  have hnode (h : Exact c s (.binary .and l r .bool o)) (hv : eval c s (.binary .and l r .bool o) = .ok v) :
      (∃ w, eval c s l = .ok w ∧ w.truth = true ∧ Exact c s l) ∧ ∃ w, eval c s r = .ok w ∧ w.truth = true ∧ Exact c s r := by
    obtain ⟨x, hx, hv⟩ := eval_and_eq_ok.1 hv
    split_ifs at hv with hxt
    · obtain ⟨y, hy, rfl⟩ := hv
      exact ⟨⟨x, hx, hxt, h.1⟩, y, hy, ht, h.2.1 x hx (fun _ => hxt) (fun h => nomatch h)⟩
    · subst hv
      cases ht
  have hboth : Exact c s (Expr.foldBinary .and l r .bool o) ∧ eval c s (Expr.foldBinary .and l r .bool o) = .ok v := ⟨h, hv⟩
  clear h hv
  unfold Expr.foldBinary at hboth
  split at hboth
  · exact hnode hboth.1 hboth.2
  · unfold Expr.foldMixed at hboth
    split at hboth
    · rename_i a _ _ b _ _ _ _
      cases hboth.2
      obtain ⟨rfl, rfl⟩ := Bool.and_eq_true_iff.1 (show (a && b) = true from ht)
      exact ⟨⟨_, rfl, rfl, trivial⟩, _, rfl, rfl, trivial⟩
    · rename_i h' _
      cases h'
    · exact ⟨⟨_, rfl, rfl, trivial⟩, v, hboth.2, ht, hboth.1⟩
    · exact ⟨⟨v, hboth.2, ht, hboth.1⟩, _, rfl, rfl, trivial⟩
    · exact hnode hboth.1 hboth.2

end Exact

/-- an operator whose result does not overflow computes the number that it stands for -/
theorem Computes.op2_of_exact {f : Form} {op : Binary} {l r : Expr} {a b v : Int} (hl : Computes f c s l a)
    (hr : Computes f c s r b) (hv : op.number? a b = some v) (h : Exact c s (f.expr (.op2 op l r))) :
    Computes f c s (.op2 op l r) v := by
  refine hl.op2 hr hv ?_
  cases f with
  | plain => exact h.2.2 a b v hl.word.value hr.word.value hv
  | folded =>
    have hty : (if op.isComparison || op.isLogical then Ty.bool else l.ty) = .i64 := by
      have hcmp : op.isComparison = false := by
        cases op <;> simp_all [Binary.number?, Binary.isComparison]
      simp [hcmp, Binary.isLogical_of_number? hv, hl.ty]
    change Exact c s (Expr.foldBinary op l.fold r.fold (if _ then _ else _) .unknown) at h
    rw [hty] at h
    exact h.fits_of_foldBinary hl.word hr.word hv

/-! ## States with values of their types -/

/-- every variable and every element holds a value of its own type -/
structure State.Sound (s : State) : Prop where
  vars : ∀ n v, s.vars.get? n = some v → v.Fits v.scalar
  elements : ∀ (p : ℕ) (b : Buffer), s.memory.buffers[p]? = some b → b.Uniform

theorem State.Sound.set (h : s.Sound) (n : Name) {v : Value} (hv : v.Fits v.scalar) : (s.set n v).Sound where
  vars := fun m w hw => by
    rw [State.get?_set] at hw
    split_ifs at hw with hm
    · exact Option.some.inj hw ▸ hv
    · exact h.vars m w hw
  elements := h.elements

theorem State.Sound.empty : State.Sound {} where
  vars := fun n v h => nomatch h
  elements := fun p b h => by simp at h

/-- a new array of values of its type -/
theorem State.Sound.insert (h : s.Sound) (n : Name) {b : Buffer} (hb : b.Uniform) :
    State.Sound { s with memory := s.memory.insert n b } where
  vars := h.vars
  elements := fun p b' hp => by
    change (s.memory.buffers.push b)[p]? = some b' at hp
    rw [Array.getElem?_push] at hp
    split_ifs at hp
    · exact Option.some.inj hp ▸ hb
    · exact h.elements p b' hp

theorem fits_own_of_unary {op : Unary} {v w : Value} {sc : Scalar} (h : op.eval v sc = .ok w) : w.Fits w.scalar := by
  unfold Unary.eval at h
  split at h <;> simp only [Except.ok.injEq, reduceCtorEq] at h
  all_goals
    subst h
    first
    | exact (Value.fits_ofInt _ sc).own
    | exact (Value.fits_ofFloat _ sc).own
    | rfl

theorem fits_own_of_binary {op : Binary} {v w x : Value} {sc : Scalar} (h : op.eval v w sc = .ok x) : x.Fits x.scalar := by
  have hint {a b : Int} (h : op.evalInt a b sc = .ok x) : x.Fits x.scalar := by
    cases op <;> simp only [Binary.evalInt] at h
    case div | rem =>
      split_ifs at h
      cases h
      exact (Value.fits_ofInt _ sc).own
    all_goals
      cases h
      first
      | exact (Value.fits_ofInt _ sc).own
      | rfl
  have hfloat {a b : Float} (h : op.evalFloat a b sc = .ok x) : x.Fits x.scalar := by
    cases op <;> simp only [Binary.evalFloat, reduceCtorEq] at h
    all_goals
      cases h
      first
      | exact (Value.fits_ofFloat _ sc).own
      | rfl
  unfold Binary.eval at h
  split at h
  · exact hfloat h
  · exact hfloat h
  · unfold Binary.evalBool at h
    split at h
    all_goals first
      | exact hint h
      | (cases h; rfl)
  · exact hint h

/-- an expression evaluates to a value of its own type -/
theorem eval_own (hs : s.Sound) {e : Expr} {v : Value} (h : eval c s e = .ok v) : v.Fits v.scalar := by
  induction e generalizing v with
  | var n ty o => exact hs.vars n v (eval_var_eq_ok.1 h)
  | bool b ty o =>
    cases h
    rfl
  | int x ty o =>
    cases h
    exact (Value.fits_ofInt x ty.elem).own
  | float b ty o =>
    cases h
    exact (Value.fits_ofFloat _ ty.elem).own
  | unary op e ty o ih =>
    obtain ⟨w, -, hv⟩ := eval_unary_eq_ok.1 h
    exact fits_own_of_unary hv
  | binary op l r ty o ihl ihr =>
    cases hop : op.isLogical with
    | false =>
      obtain ⟨x, y, -, -, hv⟩ := (eval_binary_eq_ok hop).1 h
      exact fits_own_of_binary hv
    | true =>
      obtain ⟨b, rfl⟩ := eval_logical hop h
      rfl
  | select b t e ty o ihb iht ihe =>
    obtain ⟨x, -, hv⟩ := eval_select_eq_ok.1 h
    split_ifs at hv
    · exact iht hv
    · exact ihe hv
  | access t i ty o iht ihi =>
    obtain ⟨n, ty', o', k, rfl, -, hv⟩ := eval_access_eq_ok.1 h
    obtain ⟨p, b, hb, hmem⟩ := Memory.Has.of_read hv
    exact (hs.elements p b hb.buffer v hmem).own
  | convert e ty ih =>
    obtain ⟨w, hw, rfl⟩ := eval_convert_eq_ok.1 h
    exact ((ih hw).convert ty.elem).own
  | bitCast e ty ih =>
    obtain ⟨w, -, -, rfl⟩ := eval_bitCast_eq_ok.1 h
    exact (Value.fits_ofBits _ ty.elem).own
  | place p axis o =>
    simp only [eval, evalPlace] at h
    split at h <;> cases h
    exact (Value.fits_ofInt _ .i64).own
  | size id o =>
    simp only [eval, evalSize] at h
    split at h <;> cases h
    exact (Value.fits_ofInt _ .i64).own
  | capability q o =>
    simp only [eval, evalCapability] at h
    split at h <;> cases h
    exact (Value.fits_ofInt _ .i64).own

/-! ## Binding sizes -/

/-- the variable holds a 64-bit number -/
def HoldsWord (s : State) (n : Name) : Prop := ∃ a, Word64.fits a = true ∧ s.vars.get? n = some (.word a)

/-- after sizes have been bound, their variables hold 64-bit numbers, and nothing else has changed -/
theorem BindsOnly.run {k : ℕ} (hl : BindsOnly k l) (hs : s.Sound) (h : execAll (launch c) c (foldBlock l) s = .ok () t) :
    t.Sound ∧ (∀ n ∈ blockSets l, HoldsWord t n) ∧ ∀ n ∉ blockSets l, t.vars.get? n = s.vars.get? n := by
  induction l generalizing s with
  | nil =>
    rw [foldBlock, execAll_nil] at h
    cases h
    exact ⟨hs, fun n hn => absurd hn (by simp), fun _ _ => rfl⟩
  | cons x l ih =>
    obtain ⟨n, e, -, rfl⟩ := hl x (List.mem_cons_self ..)
    rw [foldBlock, execAll_append_eq_ok] at h
    obtain ⟨u, hx, h⟩ := h
    rw [show Stmt.fold (.define .i64 n e .unknown) = [.define .i64 n e.fold .unknown] from rfl, execAll_singleton, exec] at hx
    obtain ⟨v, w, hvalue, hx⟩ := bind_eq_ok.1 hx
    obtain ⟨hv, rfl⟩ := value_eq_ok.1 hvalue
    obtain rfl := setVar_eq_ok.1 hx
    have hfit := (eval_own hs hv).convert .i64
    obtain ⟨a, ha, hwrap⟩ := hfit.of_isInteger rfl
    have hword : Word64.fits a = true := hwrap ▸ Word64.fits_wrap a
    obtain ⟨hsound, hholds, hkeeps⟩ := ih (fun y hy => hl y (List.mem_cons_of_mem _ hy)) (hs.set n hfit.own) h
    have hset (m : Name) : (s.set n (v.convert .i64)).vars.get? m = if n = m then some (v.convert .i64) else s.vars.get? m :=
      State.get?_set ..
    refine ⟨hsound, fun m hm => ?_, fun m hm => ?_⟩
    · by_cases hml : m ∈ blockSets l
      · exact hholds m hml
      · refine ⟨a, hword, ?_⟩
        have hmn : m = n := by
          simpa [Stmt.uses, Use.among, hml] using hm
        rw [hkeeps m hml, hset, if_pos hmn.symm, ha]
    · simp only [blockSets, blockUses_cons, Stmt.uses, Use.among, List.mem_append, List.mem_singleton, not_or] at hm
      rw [hkeeps m hm.2, hset, if_neg (Ne.symm hm.1)]

end Machine

end GpuHistogram
