/-
Expressions of two linked programs. `L.Same e e'` says that `e'` has the values of `e` under corresponding names, and that
a pass over the two meets corresponding variables; `L.SameNumber e e'` adds that both are 64-bit numbers. What the first
program knows as a literal may be a variable in the second. Folding then treats the two differently: it computes, or drops
a neutral operand, on one side only. On numbers both ways give the same result (`SameNumber.op2`), with one exception: a
product with the literal zero drops its other operand, which the second program still has to evaluate. `Zeros e e'`
excludes that: a zero in the first program is one in the second.
-/
import GpuHistogram.Proofs.Budget
import GpuHistogram.Proofs.Constants
import GpuHistogram.Proofs.Decision
import GpuHistogram.Proofs.Links
import GpuHistogram.Proofs.Points

namespace GpuHistogram

open Machine

/-! ## Folded operators -/

namespace Machine

variable {c d : Context} {s t : State} {l r l' r' e : Expr} {a b : Int} {v x y : Value}

/-- a conjunction is folded to itself, to a literal, or to one operand if the other is true -/
theorem foldBinary_and (l r : Expr) (ty : Ty) (o : Origin) :
    Expr.foldBinary .and l r ty o = .binary .and l r ty o ∨
      (∃ p q t t' u u', l = .bool p t u ∧ r = .bool q t' u' ∧ Expr.foldBinary .and l r ty o = .bool (p && q) ty o) ∨
      (∃ t u, l = .bool true t u ∧ Expr.foldBinary .and l r ty o = r) ∨
      ∃ t u, r = .bool true t u ∧ Expr.foldBinary .and l r ty o = l := by
  unfold Expr.foldBinary
  split
  · exact .inl rfl
  · unfold Expr.foldMixed
    split
    · exact .inr (.inl ⟨_, _, _, _, _, _, rfl, rfl, rfl⟩)
    · rename_i hop _
      cases hop
    · exact .inr (.inr (.inl ⟨_, _, rfl, rfl⟩))
    · exact .inr (.inr (.inr ⟨_, _, rfl, rfl⟩))
    · split_ifs
      · exact .inl rfl
      · exact .inl rfl

/-- an operator on operands that have the same values elsewhere -/
theorem eval_binary_elsewhere {op : Binary} {ty : Ty} {o : Origin} (hl : ∀ x, eval c s l = .ok x → eval d t l' = .ok x)
    (hr : ∀ x, eval c s r = .ok x → eval d t r' = .ok x) (h : eval c s (.binary op l r ty o) = .ok v) :
    eval d t (.binary op l' r' ty o) = .ok v := by
  cases hop : op.isLogical with
  | false =>
    rw [eval_binary hop] at h ⊢
    obtain ⟨x, hx, h⟩ := except_bind_eq_ok.1 h
    obtain ⟨y, hy, h⟩ := except_bind_eq_ok.1 h
    exact except_bind_eq_ok.2 ⟨x, hl x hx, except_bind_eq_ok.2 ⟨y, hr y hy, h⟩⟩
  | true =>
    cases op <;> cases hop <;> rw [eval] at h ⊢ <;> obtain ⟨x, hx, h⟩ := except_bind_eq_ok.1 h <;>
      refine except_bind_eq_ok.2 ⟨x, hl x hx, ?_⟩ <;> split_ifs at h ⊢
    · obtain ⟨y, hy, h⟩ := except_bind_eq_ok.1 h
      exact except_bind_eq_ok.2 ⟨y, hr y hy, h⟩
    · exact h
    · exact h
    · obtain ⟨y, hy, h⟩ := except_bind_eq_ok.1 h
      exact except_bind_eq_ok.2 ⟨y, hr y hy, h⟩

theorem eval_of_isLiteral {k : Int} (h : e.isLiteral k = true) (c : Context) (s : State) : ∃ v, eval c s e = .ok v := by
  cases e <;> first | cases h | exact ⟨_, by rw [eval]⟩

/-- a folded operator that has a value has operands with values, unless one of them is a zero that decides a product -/
theorem operands_of_foldBinary {op : Binary} (hop : op.isLogical = false) {ty : Ty} {o : Origin}
    (h : eval c s (Expr.foldBinary op l r ty o) = .ok v) :
    (∃ x y, eval c s l = .ok x ∧ eval c s r = .ok y) ∨ op = .mul ∧ (l.isLiteral 0 = true ∨ r.isLiteral 0 = true) := by
  have hfolds := Expr.foldsTo_foldBinary op l r ty o hop
  generalize Expr.foldBinary op l r ty o = e at h hfolds
  cases hfolds with
  | node =>
    rw [eval_binary hop] at h
    obtain ⟨x, hx, h⟩ := except_bind_eq_ok.1 h
    obtain ⟨y, hy, -⟩ := except_bind_eq_ok.1 h
    exact .inl ⟨x, y, hx, hy⟩
  | words hl hr _ =>
    subst hl hr
    exact .inl ⟨_, _, by rw [eval], by rw [eval]⟩
  | left hk _ =>
    obtain ⟨y, hy⟩ := eval_of_isLiteral hk c s
    exact .inl ⟨v, y, h, hy⟩
  | right hk _ =>
    obtain ⟨x, hx⟩ := eval_of_isLiteral hk c s
    exact .inl ⟨x, v, hx, h⟩
  | zero hmul hk => exact .inr ⟨hmul, hk⟩

end Machine

/-- whether the operator computes a number from two numbers -/
def Binary.isNumeric : Binary → Bool
  | .add | .sub | .mul | .div | .rem | .max => true
  | _ => false

namespace Binary

variable {op : Binary} {a b : Int}

theorem isLogical_of_isNumeric (h : op.isNumeric = true) : op.isLogical = false := by
  cases op <;> first | rfl | cases h

theorem ty_of_isNumeric (h : op.isNumeric = true) (l r : Expr) : (Expr.op2 op l r).ty = l.ty := by
  cases op <;> first | rfl | cases h

theorem number?_of_ne (h : op.isNumeric = true) (hb : b ≠ 0) : ∃ n, op.number? a b = some n := by
  cases op <;> first | exact ⟨_, rfl⟩ | exact ⟨_, if_neg hb⟩ | simp [isNumeric] at h

/-- there is no quotient by zero -/
theorem number?_of_eval (h : op.isNumeric = true) {v : Value} (he : op.eval (.word a) (.word b) .i64 = .ok v) :
    ∃ n, op.number? a b = some n := by
  rcases eq_or_ne b 0 with rfl | hb
  · cases op <;> first | exact ⟨_, rfl⟩ | (cases he; done) | simp [isNumeric] at h
  · exact number?_of_ne h hb

theorem number?_of_foldWords? (h : op.isNumeric = true) {e : Expr} (he : op.foldWords? a b = some e) :
    ∃ n, op.number? a b = some n := by
  rcases eq_or_ne b 0 with rfl | hb
  · cases op <;> first | exact ⟨_, rfl⟩ | (simp [foldWords?] at he; done) | simp [isNumeric] at h
  · exact number?_of_ne h hb

theorem bool_of_comparison (h : op.isComparison = true) {x y v : Value} {s : Scalar} (he : op.eval x y s = .ok v) :
    ∃ p, v = .bool p := by
  cases op <;> first | (cases h; done) | (cases x <;> cases y <;> cases he <;> exact ⟨_, rfl⟩)

end Binary

namespace Machine

variable {c d : Context} {s t : State} {l r l' r' e : Expr} {a b : Int} {v x y : Value} {f : Form}

/-- an operator on numbers that has a value computes a number -/
theorem Word.number?_of_foldBinary {op : Binary} (hop : op.isNumeric = true) (hl : Word c s l a) (hr : Word c s r b)
    {o : Origin} (h : eval c s (Expr.foldBinary op l r .i64 o) = .ok v) : ∃ n, op.number? a b = some n := by
  have hfolds := Expr.foldsTo_foldBinary op l r .i64 o (Binary.isLogical_of_isNumeric hop)
  generalize Expr.foldBinary op l r .i64 o = e at h hfolds
  cases hfolds with
  | node =>
    rw [eval_binary (Binary.isLogical_of_isNumeric hop), hl.value, hr.value] at h
    change liftArithmetic o (op.eval (.word a) (.word b) .i64) = _ at h
    cases he : op.eval (.word a) (.word b) .i64 with
    | ok w => exact Binary.number?_of_eval hop he
    | error f =>
      rw [he] at h
      cases h
  | @words p q _ _ e hp hq he =>
    obtain rfl := hl.exact _ _ _ hp
    obtain rfl := hr.exact _ _ _ hq
    exact Binary.number?_of_foldWords? hop he
  | left hk hn =>
    obtain rfl := hr.of_isLiteral hk
    exact ⟨a, hn a⟩
  | right hk hn =>
    obtain rfl := hl.of_isLiteral hk
    exact ⟨b, hn b⟩
  | zero hmul _ =>
    subst hmul
    exact ⟨_, rfl⟩

theorem Computes.number?_of_eval {op : Binary} (hop : op.isNumeric = true) (hl : Computes f c s l a)
    (hr : Computes f c s r b) (h : eval c s (f.expr (.op2 op l r)) = .ok v) : ∃ n, op.number? a b = some n := by
  have hty : (Expr.op2 op l r).ty = .i64 := (Binary.ty_of_isNumeric hop l r).trans hl.ty
  cases f with
  | plain =>
    change eval c s (.binary op l r (Expr.op2 op l r).ty .unknown) = _ at h
    have hlv : eval c s l = _ := hl.word.value
    have hrv : eval c s r = _ := hr.word.value
    rw [hty, eval_binary (Binary.isLogical_of_isNumeric hop), hlv, hrv] at h
    change liftArithmetic .unknown (op.eval (.word a) (.word b) .i64) = _ at h
    cases he : op.eval (.word a) (.word b) .i64 with
    | ok w => exact Binary.number?_of_eval hop he
    | error f =>
      rw [he] at h
      cases h
  | folded =>
    change eval c s (Expr.foldBinary op l.fold r.fold (Expr.op2 op l r).ty .unknown) = _ at h
    rw [hty] at h
    exact hl.word.number?_of_foldBinary hop hr.word h

theorem operands_of_op2 {op : Binary} (hop : op.isLogical = false) (h : eval c s (f.expr (.op2 op l r)) = .ok v) :
    (∃ x y, eval c s (f.expr l) = .ok x ∧ eval c s (f.expr r) = .ok y) ∨
      f = .folded ∧ op = .mul ∧ (l.fold.isLiteral 0 = true ∨ r.fold.isLiteral 0 = true) := by
  cases f with
  | plain =>
    change eval c s (.binary op l r _ .unknown) = _ at h
    rw [eval_binary hop] at h
    obtain ⟨x, hx, h⟩ := except_bind_eq_ok.1 h
    obtain ⟨y, hy, -⟩ := except_bind_eq_ok.1 h
    exact .inl ⟨x, y, hx, hy⟩
  | folded => exact (operands_of_foldBinary hop (h : eval c s (Expr.foldBinary op l.fold r.fold _ .unknown) = _)).imp_right (⟨rfl, ·⟩)

theorem isLiteral_of_constant? {k : Int} (h : e.constant? = some k) : e.fold.isLiteral k = true := by
  obtain ⟨ty, o, he⟩ := Expr.fold_of_constant? h
  rw [he]
  simp [Expr.isLiteral]

/-- a product with a literal zero is that zero -/
theorem foldBinary_mul_zero_left (h : l.isLiteral 0 = true) (r : Expr) (o : Origin) :
    Expr.foldBinary .mul l r .i64 o = l ∨ ∃ o', Expr.foldBinary .mul l r .i64 o = .int 0 .i64 o' := by
  unfold Expr.foldBinary
  split
  · rename_i p _ _ _
    obtain rfl : p = 0 := by simpa [Expr.isLiteral] using h
    exact .inr ⟨o, by simp [Binary.foldWords?, Word64.checked?_eq_some.2 ⟨(rfl : Word64.fits 0 = true), rfl⟩, Expr.withOrigin]⟩
  · simp only [Expr.foldMixed, if_pos, Expr.foldNeutral, h, Bool.true_or]
    split_ifs with h1 h1'
    · exact .inl rfl
    · cases l <;> simp_all [Expr.isLiteral]
    · exact .inr ⟨o, rfl⟩

theorem foldBinary_mul_zero_right (l : Expr) (h : r.isLiteral 0 = true) (o : Origin) :
    Expr.foldBinary .mul l r .i64 o = r ∨ ∃ o', Expr.foldBinary .mul l r .i64 o = .int 0 .i64 o' := by
  unfold Expr.foldBinary
  split
  · rename_i _ _ q _
    obtain rfl : q = 0 := by simpa [Expr.isLiteral] using h
    exact .inr ⟨o, by simp [Binary.foldWords?, Word64.checked?_eq_some.2 ⟨(rfl : Word64.fits 0 = true), rfl⟩, Expr.withOrigin]⟩
  · simp only [Expr.foldMixed, if_pos, Expr.foldNeutral, h, Bool.or_true]
    split_ifs with h1 h1'
    · cases r <;> simp_all [Expr.isLiteral]
    · exact .inl rfl
    · exact .inr ⟨o, rfl⟩

theorem Computes.mul_zero_left (hl : Computes .folded c s l 0) (h : l.fold.isLiteral 0 = true) (r : Expr) :
    Computes .folded c s (l * r) 0 := by
  refine ⟨hl.ty, ?_⟩
  change Word c s (Expr.foldBinary .mul l.fold r.fold l.ty .unknown) 0
  rw [hl.ty]
  rcases foldBinary_mul_zero_left h r.fold .unknown with he | ⟨o', he⟩ <;> rw [he]
  · exact hl.word
  · exact .literal rfl .i64 rfl o'

theorem Computes.mul_zero_right (hr : Computes .folded c s r 0) (h : r.fold.isLiteral 0 = true) (hl : l.ty = .i64) :
    Computes .folded c s (l * r) 0 := by
  refine ⟨hl, ?_⟩
  change Word c s (Expr.foldBinary .mul l.fold r.fold l.ty .unknown) 0
  rw [hl]
  rcases foldBinary_mul_zero_right l.fold h .unknown with he | ⟨o', he⟩ <;> rw [he]
  · exact hr.word
  · exact .literal rfl .i64 rfl o'

theorem eval_var {n : Name} {ty : Ty} {o : Origin} : eval c s (.var n ty o) = .ok v ↔ s.vars.get? n = some v := by
  rw [eval]
  cases s.vars.get? n <;> simp

/-- a conjunction that has a value decides by its first operand, or has the value of the second -/
theorem eval_foldBinary_and {ty : Ty} {o : Origin} (hl : ∀ x, eval c s l = .ok x → ∃ p, x = .bool p)
    (hr : ∀ x, eval c s r = .ok x → ∃ p, x = .bool p) (h : eval c s (Expr.foldBinary .and l r ty o) = .ok v) :
    ∃ p, eval c s l = .ok (.bool p) ∧ (p = false → v = .bool false) ∧ (p = true → eval c s r = .ok v) := by
  have hnode (h : eval c s (.binary .and l r ty o) = .ok v) :
      ∃ p, eval c s l = .ok (.bool p) ∧ (p = false → v = .bool false) ∧ (p = true → eval c s r = .ok v) := by
    rw [eval] at h
    obtain ⟨x, hx, h⟩ := except_bind_eq_ok.1 h
    obtain ⟨p, rfl⟩ := hl x hx
    refine ⟨p, hx, ?_, ?_⟩ <;> rintro rfl
    · cases h
      rfl
    · obtain ⟨y, hy, h⟩ := except_bind_eq_ok.1 h
      obtain ⟨q, rfl⟩ := hr y hy
      cases h
      exact hy
  rcases foldBinary_and l r ty o with he | ⟨p, q, _, _, _, _, rfl, rfl, he⟩ | ⟨_, _, rfl, he⟩ | ⟨_, _, rfl, he⟩ <;>
    rw [he] at h
  · exact hnode h
  · refine ⟨p, by rw [eval], ?_, ?_⟩ <;> rintro rfl <;> rw [eval] at h
    · exact (Except.ok.inj h).symm
    · rwa [eval]
  · refine ⟨true, by rw [eval], fun hp => ?_, fun _ => h⟩
    cases hp
  · obtain ⟨p, rfl⟩ := hl v h
    exact ⟨p, h, fun hp => by rw [hp], fun hp => by rw [eval, hp]⟩

end Machine

/-! ## Variables met -/

/-- every name in the expression is shared -/
def Machine.Hosts.SharedExpr (H : Hosts) (e : Expr) : Prop := ∀ k, ∀ n ∈ e.reads k, H.Shared n

section SharedExpr

variable {H : Hosts} {n : Name} {e l r c t i : Expr} {ty : Ty} {o : Origin}

@[simp] theorem sharedExpr_var : H.SharedExpr (.var n ty o) ↔ H.Shared n := by
  refine ⟨fun h => h .scalar n (List.mem_singleton_self n), fun h k m hm => ?_⟩
  cases k <;> simp only [Expr.reads, List.mem_singleton, List.not_mem_nil] at hm
  exact hm ▸ h

@[simp] theorem sharedExpr_unary {op : Unary} : H.SharedExpr (.unary op e ty o) ↔ H.SharedExpr e := by
  simp only [Hosts.SharedExpr, Expr.reads_unary]

@[simp] theorem sharedExpr_binary {op : Binary} :
    H.SharedExpr (.binary op l r ty o) ↔ H.SharedExpr l ∧ H.SharedExpr r := by
  simp only [Hosts.SharedExpr, Expr.reads_binary, List.forall_mem_append, forall_and]

@[simp] theorem sharedExpr_select :
    H.SharedExpr (.select c l r ty o) ↔ H.SharedExpr c ∧ H.SharedExpr l ∧ H.SharedExpr r := by
  simp only [Hosts.SharedExpr, Expr.reads_select, List.forall_mem_append, forall_and, and_assoc]

@[simp] theorem sharedExpr_access : H.SharedExpr (.access t i ty o) ↔ H.SharedExpr t ∧ H.SharedExpr i := by
  refine ⟨fun h => ⟨fun k n hn => h .array n ?_, fun k n hn => h k n ?_⟩, fun h k n hn => ?_⟩
  · cases k <;> simp only [Expr.reads, List.mem_append, hn, true_or, or_true]
  · cases k <;> simp only [Expr.reads, List.mem_append, hn, or_true]
  · cases k <;> simp only [Expr.reads, List.mem_append] at hn
    · exact h.2 _ n hn
    · exact hn.elim (Or.elim · (h.1 _ n) (h.1 _ n)) (h.2 _ n)

@[simp] theorem sharedExpr_convert : H.SharedExpr (.convert e ty) ↔ H.SharedExpr e := by
  simp only [Hosts.SharedExpr, Expr.reads_convert]

@[simp] theorem sharedExpr_bitCast : H.SharedExpr (.bitCast e ty) ↔ H.SharedExpr e := by
  simp only [Hosts.SharedExpr, Expr.reads_bitCast]

@[simp] theorem sharedExpr_int {v : Int} : H.SharedExpr (.int v ty o) := fun k n hn => by
  rw [Expr.reads_int] at hn
  cases hn

@[simp] theorem sharedExpr_bool {b : Bool} : H.SharedExpr (.bool b ty o) := fun k n hn => by
  rw [Expr.reads_bool] at hn
  cases hn

theorem Machine.Hosts.SharedExpr.fold (h : H.SharedExpr e) : H.SharedExpr e.fold := fun k n hn => h k n (e.reads_fold k hn)

theorem Machine.Hosts.SharedExpr.castIfNeeded (h : H.SharedExpr e) (s : Scalar) : H.SharedExpr (e.castIfNeeded s) := by
  unfold Expr.castIfNeeded
  split_ifs
  · exact h
  · exact sharedExpr_convert.2 h

end SharedExpr

namespace Machine.Link

variable {H : Hosts} {L M : Link H} {n m : Name} {u u' : Occurrences} {s t : State} {th : Option ThreadPlace} {v : Value}
  {e e' l l' r r' : Expr} {ty : Ty}

/-- two passes have met corresponding variables; the second may have met variables that stand for numbers as well, and
binds none of them -/
structure Passed (L : Link H) (u u' : Occurrences) : Prop where
  bound : ∀ {n m}, L.rel n m → (n ∈ u.bound ↔ m ∈ u'.bound)
  free : ∀ {n m}, L.rel n m → u.free.get? n = u'.free.get? m
  left : ∀ {n ty}, u.free.get? n = some ty → ∃ m, L.rel n m
  right : ∀ {m ty}, u'.free.get? m = some ty → (∃ n, L.rel n m) ∨ (∃ v, L.value m = some v) ∧ ty = .i64
  unbound : ∀ {m v}, L.value m = some v → m ∉ u'.bound
  distinct : u.free.Distinct
  distinct' : u'.free.Distinct

namespace Passed

theorem use (h : L.Passed u u') (hr : L.rel n m) (ty : Ty) : L.Passed (u.use n ty) (u'.use m ty) := by
  unfold Occurrences.use
  by_cases hn : n ∈ u.bound
  · rwa [if_pos hn, if_pos ((h.bound hr).1 hn)]
  · rw [if_neg hn, if_neg fun hm => hn ((h.bound hr).2 hm)]
    refine ⟨h.bound, fun hr' => ?_, fun {n' ty'} hn' => ?_, fun {m' ty'} hm' => ?_, h.unbound, h.distinct.set n ty,
      h.distinct'.set m ty⟩
    · simp only [Bindings.get?_set, L.rel_iff hr hr', h.free hr']
    · rw [Bindings.get?_set] at hn'
      split_ifs at hn' with heq
      · exact ⟨m, heq ▸ hr⟩
      · exact h.left hn'
    · rw [Bindings.get?_set] at hm'
      split_ifs at hm' with heq
      · exact .inl ⟨n, heq ▸ hr⟩
      · exact h.right hm'

/-- where the first program has a literal -/
theorem useValue {k : Int} (h : L.Passed u u') (hv : L.value m = some k) : L.Passed u (u'.use m .i64) := by
  have hne {n m' : Name} (hr : L.rel n m') : m ≠ m' := by
    rintro rfl
    rw [L.apart hr] at hv
    cases hv
  unfold Occurrences.use
  rw [if_neg (h.unbound hv)]
  refine ⟨h.bound, fun hr => ?_, h.left, fun {m' ty'} hm' => ?_, h.unbound, h.distinct, h.distinct'.set m .i64⟩
  · rw [Bindings.get?_set, if_neg (hne hr), h.free hr]
  · rw [Bindings.get?_set] at hm'
    split_ifs at hm' with heq
    · exact .inr ⟨⟨k, heq ▸ hv⟩, (Option.some.inj hm').symm⟩
    · exact h.right hm'

theorem bind (h : L.Passed u u') (hr : L.rel n m) : L.Passed (u.bind n) (u'.bind m) where
  bound hr' := by
    simp only [Occurrences.bind, List.mem_cons, h.bound hr', eq_comm (b := n), eq_comm (b := m), L.rel_iff hr hr']
  free := h.free
  left := h.left
  right := h.right
  unbound {m' v'} hv hm := by
    rcases List.mem_cons.1 hm with rfl | hm
    · rw [L.apart hr] at hv
      cases hv
    · exact h.unbound hv hm
  distinct := h.distinct
  distinct' := h.distinct'

end Passed

/-- passes over the two expressions meet corresponding variables -/
def Uses (L : Link H) (e e' : Expr) : Prop := ∀ M, L ≤ M → ∀ u u', M.Passed u u' → M.Passed (u.expr e) (u'.expr e')

theorem Uses.mono (h : L ≤ M) (hu : L.Uses e e') : M.Uses e e' := fun _ hM => hu _ (h.trans hM)

theorem uses_var (h : L.rel n m) (ty : Ty) (o o' : Origin) : L.Uses (.var n ty o) (.var m ty o') := fun _ hM _ _ hu =>
  hu.use (rel_mono hM h) ty

theorem Uses.op2 {op : Binary} (hl : L.Uses l l') (hr : L.Uses r r') : L.Uses (.op2 op l r) (.op2 op l' r') :=
  fun M hM u u' hu => hr M hM _ _ (hl M hM u u' hu)

theorem uses_shared (h : H.SharedExpr e) : L.Uses e e := by
  intro M hM u u' hu
  induction e generalizing u u' with
  | var n ty o => exact hu.use (M.shared (sharedExpr_var.1 h)) ty
  | unary op e ty o ih => exact ih (sharedExpr_unary.1 h) u u' hu
  | convert e ty ih => exact ih (sharedExpr_convert.1 h) u u' hu
  | bitCast e ty ih => exact ih (sharedExpr_bitCast.1 h) u u' hu
  | binary op l r ty o ihl ihr =>
    rw [sharedExpr_binary] at h
    exact ihr h.2 _ _ (ihl h.1 u u' hu)
  | select c t e ty o ihc iht ihe =>
    rw [sharedExpr_select] at h
    exact ihe h.2.2 _ _ (iht h.2.1 _ _ (ihc h.1 u u' hu))
  | access t i ty o iht ihi =>
    rw [sharedExpr_access] at h
    exact ihi h.2 _ _ (iht h.1 u u' hu)
  | _ => exact hu

/-! ## Values of shared expressions -/

theorem eval_shared (he : H.SharedExpr e) (hs : L.Linked s t) (h : eval (H.first.within th) s e = .ok v) :
    eval (H.second.within th) t e = .ok v := by
  induction e generalizing v with
  | var n ty o =>
    have hn : s.vars.get? n = t.vars.get? n := hs.vars.get (L.shared (sharedExpr_var.1 he))
    rw [eval] at h ⊢
    rwa [← hn]
  | unary op e ty o ih =>
    rw [eval] at h ⊢
    obtain ⟨x, hx, h⟩ := except_bind_eq_ok.1 h
    exact except_bind_eq_ok.2 ⟨x, ih (sharedExpr_unary.1 he) hx, h⟩
  | binary op l r ty o ihl ihr =>
    rw [sharedExpr_binary] at he
    exact eval_binary_elsewhere (fun _ => ihl he.1) (fun _ => ihr he.2) h
  | select c a b ty o ihc iha ihb =>
    rw [sharedExpr_select] at he
    rw [eval] at h ⊢
    obtain ⟨x, hx, h⟩ := except_bind_eq_ok.1 h
    refine except_bind_eq_ok.2 ⟨x, ihc he.1 hx, ?_⟩
    split_ifs at h ⊢
    · exact iha he.2.1 h
    · exact ihb he.2.2 h
  | access a i ty o iha ihi =>
    rw [sharedExpr_access] at he
    rw [eval] at h ⊢
    obtain ⟨n, hn, h⟩ := except_bind_eq_ok.1 h
    obtain ⟨x, hx, h⟩ := except_bind_eq_ok.1 h
    refine except_bind_eq_ok.2 ⟨n, hn, except_bind_eq_ok.2 ⟨x, ihi he.2 hx, ?_⟩⟩
    have hr : L.rel n n := by
      cases a <;> cases hn
      exact L.shared (sharedExpr_var.1 he.1)
    cases hread : s.memory.read n x.toInt64 with
    | error f =>
      rw [hread] at h
      cases h
    | ok w =>
      rw [hread] at h
      rwa [hs.memory.read hr hread]
  | convert e ty ih =>
    rw [eval] at h ⊢
    obtain ⟨x, hx, h⟩ := except_bind_eq_ok.1 h
    exact except_bind_eq_ok.2 ⟨x, ih (sharedExpr_convert.1 he) hx, h⟩
  | bitCast e ty ih =>
    rw [eval] at h ⊢
    obtain ⟨x, hx, h⟩ := except_bind_eq_ok.1 h
    exact except_bind_eq_ok.2 ⟨x, ih (sharedExpr_bitCast.1 he) hx, h⟩
  | size id o =>
    rw [eval] at h ⊢
    unfold evalSize at h ⊢
    cases th with
    | some _ => cases h
    | none =>
      simp only [Context.within] at h ⊢
      cases hid : H.first.sizes id with
      | some w =>
        rw [hid] at h
        rw [H.sizes hid]
        exact h
      | none =>
        rw [hid] at h
        cases h
  | capability q o =>
    rw [eval] at h ⊢
    unfold evalCapability at h ⊢
    simp only [Context.within, H.limits] at h ⊢
    exact h
  | _ =>
    rw [eval] at h ⊢
    exact h

/-! ## Expressions with the same values -/

/-- where the first expression has a value, the second has it in linked states -/
def Follows (L : Link H) (e e' : Expr) : Prop := ∀ th s t v, L.Linked s t → L.Holds (· ∈ e'.scalars) t →
  eval (H.first.within th) s e.fold = .ok v → eval (H.second.within th) t e'.fold = .ok v

/-- the two expressions have the same values and use corresponding variables -/
structure Same (L : Link H) (e e' : Expr) : Prop where
  follows : L.Follows e e'
  uses : L.Uses e e'

/-- the two expressions are the same 64-bit numbers, in either form, and use corresponding variables -/
structure SameNumber (L : Link H) (e e' : Expr) : Prop where
  ty : e.ty = .i64
  ty' : e'.ty = .i64
  computes : ∀ f th s t v, L.Linked s t → L.Holds (· ∈ e'.scalars) t → eval (H.first.within th) s (f.expr e) = .ok v →
    ∃ a, Computes f (H.first.within th) s e a ∧ Computes f (H.second.within th) t e' a
  uses : L.Uses e e'

/-- a zero in the first program is one in the second -/
def Zeros (e e' : Expr) : Prop := e.constant? = some 0 → e'.constant? = some 0

theorem Follows.mono (h : L ≤ M) (hf : L.Follows e e') : M.Follows e e' := fun th s t v hs ht =>
  hf th s t v (hs.mono h) (ht.mono h)

theorem Same.mono (h : L ≤ M) (he : L.Same e e') : M.Same e e' := ⟨he.follows.mono h, he.uses.mono h⟩

theorem SameNumber.mono (h : L ≤ M) (he : L.SameNumber e e') : M.SameNumber e e' :=
  ⟨he.ty, he.ty', fun f th s t v hs ht => he.computes f th s t v (hs.mono h) (ht.mono h), he.uses.mono h⟩

theorem same_shared (h : H.SharedExpr e) : L.Same e e :=
  ⟨fun _ _ _ _ hs _ => eval_shared h.fold hs, uses_shared h⟩

theorem same_var (h : L.rel n m) (ty : Ty) : L.Same (.typed n ty) (.typed m ty) where
  follows th s t v hs _ hv := by
    exact eval_var.2 (hs.vars.get h ▸ eval_var.1 hv)
  uses := uses_var h ty .unknown .unknown

namespace SameNumber

theorem same (h : L.SameNumber e e') : L.Same e e' where
  follows th s t v hs ht hv := by
    obtain ⟨a, ha, ha'⟩ := h.computes .folded th s t v hs ht hv
    exact (Except.ok.inj (hv.symm.trans ha.evals)) ▸ ha'.evals
  uses := h.uses

theorem literal {k : Int} (hk : Word64.fits k = true) : L.SameNumber (.i64 k) (.i64 k) where
  ty := rfl
  ty' := rfl
  computes _ _ _ _ _ _ _ _ := ⟨k, .literal hk, .literal hk⟩
  uses := uses_shared sharedExpr_int

/-- a literal in the first program, a variable in the second -/
theorem value {k : Int} (h : L.value m = some k) : L.SameNumber (.i64 k) (.ofName m) where
  ty := rfl
  ty' := rfl
  computes _ _ _ _ _ _ ht _ := ⟨k, .literal (L.fits h), .ofName (ht m k (List.mem_singleton_self m) h) (L.fits h)⟩
  uses _ hM _ _ hu := hu.useValue (value_mono hM h)

theorem ofName (h : L.rel n m) (hw : L.word n) : L.SameNumber (.ofName n) (.ofName m) where
  ty := rfl
  ty' := rfl
  computes f th s t v hs _ hv := by
    have hn : s.vars.get? n = some v := by
      cases f <;> exact eval_var.1 hv
    obtain ⟨a, rfl, ha⟩ := (hs.vars.words h hw hn).of_isInteger rfl
    have hfits : Word64.fits a = true := ha ▸ Word64.fits_wrap a
    exact ⟨a, .ofName hn hfits, .ofName (hs.vars.get h ▸ hn) hfits⟩
  uses := uses_var h .i64 .unknown .unknown

/-- an operator on numbers; a zero may decide a product only if it does so in both programs, or if the other operand is
a literal -/
theorem op2 (op : Binary) (hop : op.isNumeric = true) (hl : L.SameNumber l l') (hr : L.SameNumber r r')
    (hz : op = .mul → (Zeros l l' ∨ ∃ k, r.constant? = some k) ∧ (Zeros r r' ∨ ∃ k, l.constant? = some k)) :
    L.SameNumber (.op2 op l r) (.op2 op l' r') where
  ty := (Binary.ty_of_isNumeric hop l r).trans hl.ty
  ty' := (Binary.ty_of_isNumeric hop l' r').trans hl.ty'
  uses := hl.uses.op2 hr.uses
  computes f th s t v hs ht hv := by
    have htl : L.Holds (· ∈ l'.scalars) t := ht.subset fun _ => List.mem_append_left _
    have htr : L.Holds (· ∈ r'.scalars) t := ht.subset fun _ => List.mem_append_right _
    have hmain {x y : Value} (hx : eval (H.first.within th) s (f.expr l) = .ok x)
        (hy : eval (H.first.within th) s (f.expr r) = .ok y) :
        ∃ a, Computes f (H.first.within th) s (.op2 op l r) a ∧ Computes f (H.second.within th) t (.op2 op l' r') a := by
      obtain ⟨a, ha, ha'⟩ := hl.computes f th s t x hs htl hx
      obtain ⟨b, hb, hb'⟩ := hr.computes f th s t y hs htr hy
      obtain ⟨n, hn⟩ := ha.number?_of_eval hop hb hv
      exact ⟨_, ha.wrapped hb hn, ha'.wrapped hb' hn⟩
    rcases operands_of_op2 (Binary.isLogical_of_isNumeric hop) hv with ⟨x, y, hx, hy⟩ | ⟨rfl, rfl, hk⟩
    · exact hmain hx hy
    obtain ⟨hzl, hzr⟩ := hz rfl
    rcases hk with hk | hk
    · obtain ⟨x, hx⟩ := eval_of_isLiteral hk (H.first.within th) s
      rcases hzl with hzl | ⟨k, hk'⟩
      · have hk' := isLiteral_of_constant? (hzl (Expr.constant?_of_isLiteral hk))
        obtain ⟨a, ha, ha'⟩ := hl.computes .folded th s t x hs htl hx
        obtain rfl := ha.word.of_isLiteral hk
        exact ⟨0, ha.mul_zero_left hk r, ha'.mul_zero_left hk' r'⟩
      · obtain ⟨y, hy⟩ := eval_of_isLiteral (isLiteral_of_constant? hk') (H.first.within th) s
        exact hmain hx hy
    · obtain ⟨y, hy⟩ := eval_of_isLiteral hk (H.first.within th) s
      rcases hzr with hzr | ⟨k, hk'⟩
      · have hk' := isLiteral_of_constant? (hzr (Expr.constant?_of_isLiteral hk))
        obtain ⟨b, hb, hb'⟩ := hr.computes .folded th s t y hs htr hy
        obtain rfl := hb.word.of_isLiteral hk
        exact ⟨0, hb.mul_zero_right hk hl.ty, hb'.mul_zero_right hk' hl.ty'⟩
      · obtain ⟨x, hx⟩ := eval_of_isLiteral (isLiteral_of_constant? hk') (H.first.within th) s
        exact hmain hx hy

theorem place (p : Place) (i : Axis) : L.SameNumber (.atPlace p i) (.atPlace p i) where
  ty := rfl
  ty' := rfl
  computes f th s t v _ _ hv := by
    have hplace {c : Context} {s : State} : eval c s (f.expr (.atPlace p i)) = evalPlace c p i .unknown := by
      cases f <;> exact eval.eq_def ..
    cases th with
    | none =>
      rw [hplace] at hv
      simp only [evalPlace, Context.within] at hv
      cases hv
    | some th =>
      have hword (c : Context) (s : State) :
          Computes f (c.within (some th)) s (.atPlace p i) (Word64.wrap (th.get i p)) := by
        refine ⟨rfl, ⟨?_, Word64.fits_wrap _, fun k ty o he => ?_⟩⟩
        · rw [hplace]
          exact congrArg Except.ok (Value.ofInt_of_isInteger _ rfl)
        · cases f <;> cases he
      exact ⟨_, hword _ _, hword _ _⟩
  uses := uses_shared fun k n hn => by
    cases k <;> cases hn

/-- comparisons of numbers have the same truth value -/
theorem compare (op : Binary) (hop : op.isComparison = true) (hl : L.SameNumber l l') (hr : L.SameNumber r r') :
    L.Same (.op2 op l r) (.op2 op l' r') where
  uses := hl.uses.op2 hr.uses
  follows th s t v hs ht hv := by
    have hlog : op.isLogical = false := by
      cases op <;> first | rfl | cases hop
    rcases operands_of_op2 (f := .folded) hlog hv with ⟨x, y, hx, hy⟩ | ⟨-, rfl, -⟩
    · obtain ⟨a, ha, ha'⟩ := hl.computes .folded th s t x hs (ht.subset fun _ => List.mem_append_left _) hx
      obtain ⟨b, hb, hb'⟩ := hr.computes .folded th s t y hs (ht.subset fun _ => List.mem_append_right _) hy
      obtain ⟨p, hp⟩ : ∃ p, op.compares? a b = some p := by
        cases op <;> first | exact ⟨_, rfl⟩ | cases hop
      have hfirst : eval _ s (Expr.op2 op l r).fold = _ := Evals.compare ha hb hp
      exact Except.ok.inj (hv.symm.trans hfirst) ▸ Evals.compare ha' hb' hp
    · cases hop

end SameNumber

/-- the expression has truth values only -/
def Truth (L : Link H) (e : Expr) : Prop := ∀ th s t v, L.Linked s t → eval (H.first.within th) s e.fold = .ok v →
  ∃ p, v = .bool p

/-- a comparison has truth values, whatever it compares -/
theorem truth_compare {op : Binary} (hop : op.isComparison = true) (l r : Expr) : L.Truth (.op2 op l r) := by
  intro th s t v _ hv
  have hty : (Expr.op2 op l r).fold = Expr.foldBinary op l.fold r.fold .bool .unknown := by
    cases op <;> first | rfl | cases hop
  have hnode {x y : Expr} (h : eval (H.first.within th) s (.binary op x y .bool .unknown) = .ok v) : ∃ p, v = .bool p := by
    rw [eval_binary (by cases op <;> first | rfl | cases hop)] at h
    obtain ⟨a, -, h⟩ := except_bind_eq_ok.1 h
    obtain ⟨b, -, h⟩ := except_bind_eq_ok.1 h
    exact Binary.bool_of_comparison hop (liftArithmetic_eq_ok.1 h)
  rw [hty] at hv
  unfold Expr.foldBinary at hv
  split at hv
  · rename_i a _ b _ _ _
    obtain ⟨p, hp⟩ : ∃ p, op.compares? a b = some p := by
      cases op <;> first | exact ⟨_, rfl⟩ | cases hop
    rw [Binary.foldWords?_compares hp] at hv
    exact ⟨p, (Except.ok.inj (hv.symm.trans (by simp only [Expr.withOrigin, eval])))⟩
  · have hmixed : Expr.foldMixed op l.fold r.fold .bool .unknown = .binary op l.fold r.fold .bool .unknown := by
      cases op <;> first | rfl | cases hop
    rw [hmixed] at hv
    exact hnode hv

theorem Truth.and (hl : L.Truth l) (hr : L.Truth r) : L.Truth (l.and r) := by
  intro th s t v hs hv
  obtain ⟨p, -, hfalse, htrue⟩ := eval_foldBinary_and (fun x => hl th s t x hs) (fun x => hr th s t x hs)
    (hv : eval _ s (Expr.foldBinary .and l.fold r.fold _ .unknown) = _)
  cases p with
  | false => exact ⟨false, hfalse rfl⟩
  | true => exact hr th s t v hs (htrue rfl)

theorem Same.and (hl : L.Same l l') (hr : L.Same r r') (htl : L.Truth l) (htr : L.Truth r) :
    L.Same (l.and r) (l'.and r') where
  uses := hl.uses.op2 hr.uses
  follows th s t v hs ht hv := by
    obtain ⟨p, hp, hfalse, htrue⟩ := eval_foldBinary_and (fun x => htl th s t x hs) (fun x => htr th s t x hs)
      (hv : eval _ s (Expr.foldBinary .and l.fold r.fold _ .unknown) = _)
    have hp' := hl.follows th s t _ hs (ht.subset fun _ => List.mem_append_left _) hp
    cases p with
    | false =>
      rw [hfalse rfl]
      exact Evals.and (f := .folded) (b := false) hp' nofun
    | true =>
      obtain ⟨q, rfl⟩ := htr th s t v hs (htrue rfl)
      have hq := hr.follows th s t _ hs (ht.subset fun _ => List.mem_append_right _) (htrue rfl)
      exact Evals.and (f := .folded) hp' fun _ => hq

theorem Same.element (hi : L.Same e e') (h : L.rel n m) (sc : Scalar) (sp : Space) :
    L.Same (.element n sc sp e) (.element m sc sp e') where
  uses _ hM _ _ hu := hi.uses _ hM _ _ (hu.use (rel_mono hM h) _)
  follows th s t v hs ht hv := by
    change eval _ s (.access (.var n _ _) e.fold _ _) = _ at hv
    change eval _ t (.access (.var m _ _) e'.fold _ _) = _
    rw [eval] at hv ⊢
    obtain ⟨_, hn, hv⟩ := except_bind_eq_ok.1 hv
    cases hn
    obtain ⟨x, hx, hv⟩ := except_bind_eq_ok.1 hv
    refine except_bind_eq_ok.2 ⟨m, rfl, except_bind_eq_ok.2 ⟨x, hi.follows th s t x hs ht hx, ?_⟩⟩
    cases hread : s.memory.read n x.toInt64 with
    | error f =>
      rw [hread] at hv
      cases hv
    | ok w =>
      rw [hread] at hv
      rwa [hs.memory.read h hread]

/-! ### Expressions that are no literals -/

theorem fold_ne_int (h : e.constant? = none) (v : Int) (ty : Ty) (o : Origin) : e.fold ≠ .int v ty o := fun he => by
  rw [Expr.constant?, he] at h
  cases h

theorem fold_cast (h : e.constant? = none) (sc : Scalar) : (e.cast sc).fold = .convert e.fold (.scalar sc) := by
  change Expr.foldConvert e.fold (.scalar sc) = _
  unfold Expr.foldConvert
  split
  · rename_i he _
    exact absurd he (fold_ne_int h _ _ _)
  · rfl

theorem fold_compare {op : Binary} (hop : op.isComparison = true) (h : l.constant? = none) (r : Expr) :
    (Expr.op2 op l r).fold = .binary op l.fold r.fold .bool .unknown := by
  have hty : (Expr.op2 op l r).fold = Expr.foldBinary op l.fold r.fold .bool .unknown := by
    cases op <;> first | rfl | cases hop
  rw [hty]
  unfold Expr.foldBinary
  split
  · rename_i he _
    exact absurd he (fold_ne_int h _ _ _)
  · cases op <;> first | rfl | cases hop

theorem Same.castIfNeeded (he : L.Same e e') (hv : e.constant? = none) (hv' : e'.constant? = none) (hty : e'.ty = e.ty) (sc : Scalar) :
    L.Same (e.castIfNeeded sc) (e'.castIfNeeded sc) := by
  unfold Expr.castIfNeeded
  rw [hty]
  split_ifs
  · exact he
  · refine ⟨fun th s t v hs ht h => ?_, he.uses⟩
    rw [fold_cast hv, eval] at h
    rw [fold_cast hv', eval]
    obtain ⟨x, hx, h⟩ := except_bind_eq_ok.1 h
    exact except_bind_eq_ok.2 ⟨x, he.follows th s t x hs ht hx, h⟩

theorem Same.sameBits (he : L.Same e e') (sc : Scalar) : L.Same (e.sameBits sc) (e'.sameBits sc) := by
  refine ⟨fun th s t v hs ht h => ?_, he.uses⟩
  change eval _ s (.bitCast e.fold _) = _ at h
  change eval _ t (.bitCast e'.fold _) = _
  rw [eval] at h ⊢
  obtain ⟨x, hx, h⟩ := except_bind_eq_ok.1 h
  refine except_bind_eq_ok.2 ⟨x, he.follows th s t x hs ht hx, ?_⟩
  unfold castBits at h ⊢
  split_ifs at h ⊢
  exact h

/-- the answer of a variable that is a truth value -/
theorem same_not (h : L.rel n m) : L.Same (.not (.typed n .bool)) (.not (.typed m .bool)) := by
  refine ⟨fun th s t v hs ht hv => ?_, uses_var h .bool .unknown .unknown⟩
  change eval _ s (.unary .not (.typed n .bool) _ _) = _ at hv
  change eval _ t (.unary .not (.typed m .bool) _ _) = _
  rw [eval] at hv ⊢
  obtain ⟨x, hx, hv⟩ := except_bind_eq_ok.1 hv
  exact except_bind_eq_ok.2 ⟨x, (same_var h .bool).follows th s t x hs ht hx, hv⟩

theorem Same.compare (op : Binary) (hop : op.isComparison = true) (hl : L.Same l l') (hr : L.Same r r')
    (hv : l.constant? = none) (hv' : l'.constant? = none) : L.Same (.op2 op l r) (.op2 op l' r') where
  uses := hl.uses.op2 hr.uses
  follows th s t v hs ht h := by
    rw [fold_compare hop hv] at h
    rw [fold_compare hop hv']
    exact eval_binary_elsewhere (fun x => hl.follows th s t x hs (ht.subset fun _ => List.mem_append_left _))
      (fun x => hr.follows th s t x hs (ht.subset fun _ => List.mem_append_right _)) h

theorem foldBinary_add_open (hr : ∀ v ty o, r ≠ .int v ty o) (l : Expr) (o : Origin) :
    Expr.foldBinary .add l r .i64 o = if l.isLiteral 0 then r else .binary .add l r .i64 o := by
  have hzero : r.isLiteral 0 = false := by
    cases r <;> first | rfl | exact absurd rfl (hr _ _ _)
  unfold Expr.foldBinary
  split
  · exact absurd rfl (hr _ _ _)
  · simp [Expr.foldMixed, Expr.foldNeutral, hzero]

/-- a sum of a number and an expression of the histogram, which need not be a number -/
theorem SameNumber.add_shared (hl : L.SameNumber l l') (hz : Zeros l l') (hz' : Zeros l' l) (hr : H.SharedExpr r)
    (hopen : r = 0 ∨ r.constant? = none) : L.Same (l + r) (l' + r) := by
  rcases hopen with rfl | hopen
  · exact (hl.op2 .add rfl (.literal (k := 0) rfl) fun h => nomatch h).same
  refine ⟨fun th s t v hs ht h => ?_, hl.uses.op2 (uses_shared hr)⟩
  have hne := fold_ne_int hopen
  have hlit : l'.fold.isLiteral 0 = l.fold.isLiteral 0 := Bool.eq_iff_iff.2
    ⟨fun h => isLiteral_of_constant? (hz' (Expr.constant?_of_isLiteral h)),
      fun h => isLiteral_of_constant? (hz (Expr.constant?_of_isLiteral h))⟩
  change eval _ s (Expr.foldBinary .add l.fold r.fold l.ty .unknown) = _ at h
  change eval _ t (Expr.foldBinary .add l'.fold r.fold l'.ty .unknown) = _
  rw [hl.ty, foldBinary_add_open hne] at h
  rw [hl.ty', foldBinary_add_open hne, hlit]
  split_ifs at h ⊢
  · exact eval_shared hr.fold hs h
  · exact eval_binary_elsewhere (fun x => hl.same.follows th s t x hs (ht.subset fun _ => List.mem_append_left _))
      (fun x => eval_shared hr.fold hs) h

end Machine.Link

end GpuHistogram
