/-
Folding and the values of expressions. A folded expression is typed as the expression itself (`Expr.Typed.fold`). Each of
the functions that put a folded node together gives what the plain node gives; by induction the folded expression has
the value of the expression (`eval_fold`), and what is known at compile time is the value (`folded_value`).

All of this rests on one condition. A negation may leave a literal that is out of the range of its type, and such a
literal stands for the number that it wraps to; a cast to 64 bits takes the literal as it is written instead. So the
literals that casts to 64 bits fold must be in range (`Expr.CastsOf Literal.InRange`). Without the condition values
change: see `folded_negation_of_unsigned`.
-/
import GpuHistogram.Proofs.Typing
import GpuHistogram.Proofs.Words

namespace GpuHistogram

/-- the literal is a number of its type -/
def Literal.InRange (v : Int) (ty : Ty) : Prop :=
  ty.elem.wrap v = v

/-- `P` holds of every literal that a cast to 64 bits takes when the expression is folded -/
def Expr.CastsOf (P : Int → Ty → Prop) : Expr → Prop
  | unary _ e _ _ => e.CastsOf P
  | binary _ l r _ _ => l.CastsOf P ∧ r.CastsOf P
  | select c t e _ _ => c.CastsOf P ∧ t.CastsOf P ∧ e.CastsOf P
  | access _ i _ _ => i.CastsOf P
  | convert e ty => e.CastsOf P ∧ (ty = .i64 → ∀ v t o, e.fold = .int v t o → P v t)
  | bitCast e _ => e.CastsOf P
  | _ => True

/-- a typed expression that folding does not change the value of -/
structure Expr.Foldable (Γ : Typing) (e : Expr) : Prop where
  typed : e.Typed Γ
  casts : e.CastsOf Literal.InRange

/-! ## Types -/

theorem Word64.fits_bitwise (f : BitVec 64 → BitVec 64 → BitVec 64) (l r : Int) : fits (bitwise f l r) = true := by
  rw [fits_iff]
  exact ⟨BitVec.le_toInt _, BitVec.toInt_lt⟩

theorem Word64.fits_tmod {a b : Int} (ha : fits a = true) : fits (a.tmod b) = true := by
  have h : (a.tmod b).natAbs ≤ a.natAbs := by
    rw [Int.natAbs_tmod]
    exact Nat.mod_le ..
  have hpos : 0 ≤ a → 0 ≤ a.tmod b := Int.tmod_nonneg b
  have hneg : 0 ≤ -a → 0 ≤ (-a).tmod b := Int.tmod_nonneg b
  rw [Int.neg_tmod] at hneg
  rw [fits_iff] at ha ⊢
  omega

namespace Binary

/-- the result of folding two words is a word or a truth value -/
theorem typed_of_foldWords? {op : Binary} {a b : Int} {e : Expr} (Γ : Typing) (ha : Word64.fits a = true)
    (hb : Word64.fits b = true) (h : op.foldWords? a b = some e) : e.Typed Γ ∧ e.ty = op.resultTy .i64 := by
  have hword (v : Int) (hv : Word64.fits v = true) : (Expr.int v .i64 .unknown).Typed Γ := ⟨rfl, hv⟩
  cases op <;> simp only [foldWords?, Option.map_eq_some_iff, Option.some.injEq, reduceCtorEq] at h
  case add | sub | mul =>
    obtain ⟨v, hv, rfl⟩ := h
    obtain ⟨hf, rfl⟩ := Word64.checked?_eq_some.1 hv
    exact ⟨hword _ hf, rfl⟩
  case div =>
    obtain ⟨v, hv, rfl⟩ := h
    split_ifs at hv
    obtain ⟨hf, rfl⟩ := Word64.checked?_eq_some.1 hv
    exact ⟨hword _ hf, rfl⟩
  case rem =>
    obtain ⟨v, hv, rfl⟩ := h
    split_ifs at hv
    cases hv
    exact ⟨hword _ (Word64.fits_tmod ha), rfl⟩
  case max | min =>
    obtain ⟨v, rfl, rfl⟩ := h
    exact ⟨hword _ (by split_ifs <;> assumption), rfl⟩
  case bitAnd | bitOr | bitXor =>
    obtain ⟨v, rfl, rfl⟩ := h
    exact ⟨hword _ (Word64.fits_bitwise ..), rfl⟩
  all_goals
    subst h
    exact ⟨rfl, rfl⟩

end Binary

namespace Expr

variable {Γ : Typing} {l r e : Expr}

theorem typed_withOrigin (o : Origin) : (e.withOrigin o).Typed Γ ↔ e.Typed Γ := by
  induction e with
  | access t i ty o' iht ihi => exact Iff.rfl
  | _ => simp_all [withOrigin, Typed]

theorem Typed.foldUnary {op : Unary} {ty : Ty} (he : e.Typed Γ) (hty : ty = op.resultTy e.ty) (o : Origin) :
    (Expr.foldUnary op e ty o).Typed Γ ∧ (Expr.foldUnary op e ty o).ty = ty := by
  unfold Expr.foldUnary
  split
  · rename_i v t p
    split_ifs with hv
    · exact ⟨⟨he, hty⟩, rfl⟩
    · obtain ⟨hi, hf⟩ := he
      have hneg : Word64.fits (-v) = true := by
        rw [Word64.fits_iff] at hf ⊢
        unfold Word64.least at hv
        omega
      obtain rfl : ty = t := hty
      exact ⟨⟨hi, hneg⟩, rfl⟩
  · exact ⟨hty, rfl⟩
  · exact ⟨⟨he, hty⟩, rfl⟩

/-- the parts of an operator node that is neither a comparison nor logical are of its type -/
theorem Typed.foldNeutral {op : Binary} (hl : l.Typed Γ) (hr : r.Typed Γ) (heq : l.ty = r.ty)
    (hlog : op.isLogical = true → l.ty = .bool) (hty : Ty.i64 = op.resultTy l.ty) (o : Origin) :
    (Expr.foldNeutral op l r .i64 o).Typed Γ ∧ (Expr.foldNeutral op l r .i64 o).ty = .i64 := by
  have hbin : (Expr.binary op l r .i64 o).Typed Γ := ⟨hl, hr, heq, hlog, hty⟩
  unfold Expr.foldNeutral
  split
  case h_5 => exact ⟨hbin, rfl⟩
  all_goals
    have hlt : l.ty = .i64 := hty.symm
    split_ifs
    all_goals first
      | exact ⟨hbin, rfl⟩
      | exact ⟨hl, hlt⟩
      | exact ⟨hr, heq ▸ hlt⟩
      | exact ⟨⟨rfl, by decide⟩, rfl⟩

theorem Typed.foldMixed {op : Binary} {ty : Ty} (hl : l.Typed Γ) (hr : r.Typed Γ) (heq : l.ty = r.ty)
    (hlog : op.isLogical = true → l.ty = .bool) (hty : ty = op.resultTy l.ty) (o : Origin) :
    (Expr.foldMixed op l r ty o).Typed Γ ∧ (Expr.foldMixed op l r ty o).ty = ty := by
  unfold Expr.foldMixed
  split
  · exact ⟨hty, rfl⟩
  · exact ⟨hty, rfl⟩
  · exact ⟨hr, by rw [← heq, hlog rfl, hty]; rfl⟩
  · exact ⟨hl, by rw [hlog rfl, hty]; rfl⟩
  · split_ifs with h
    · subst h
      exact hl.foldNeutral hr heq hlog hty o
    · exact ⟨⟨hl, hr, heq, hlog, hty⟩, rfl⟩

theorem Typed.foldBinary {op : Binary} {ty : Ty} (hl : l.Typed Γ) (hr : r.Typed Γ) (heq : l.ty = r.ty)
    (hlog : op.isLogical = true → l.ty = .bool) (hty : ty = op.resultTy l.ty) (o : Origin) :
    (Expr.foldBinary op l r ty o).Typed Γ ∧ (Expr.foldBinary op l r ty o).ty = ty := by
  unfold Expr.foldBinary
  split
  · split
    · rename_i e he
      obtain ⟨ht, hty'⟩ := Binary.typed_of_foldWords? Γ hl.2 hr.2 he
      exact ⟨(typed_withOrigin o).2 ht, by rw [ty_withOrigin, hty', hty]; rfl⟩
    · exact ⟨⟨hl, hr, heq, hlog, hty⟩, rfl⟩
  · exact hl.foldMixed hr heq hlog hty o

theorem Typed.foldConvert (he : e.Typed Γ) (ty : Ty) :
    (Expr.foldConvert e ty).Typed Γ ∧ (Expr.foldConvert e ty).ty = ty := by
  unfold Expr.foldConvert
  split
  · exact ⟨⟨rfl, he.2⟩, rfl⟩
  · exact ⟨he, rfl⟩

/-- **Folding keeps types.** -/
theorem Typed.fold {e : Expr} (he : e.Typed Γ) : e.fold.Typed Γ ∧ e.fold.ty = e.ty := by
  induction e with
  | unary op e ty o ih =>
    obtain ⟨h, hty⟩ := ih he.1
    exact h.foldUnary (hty ▸ he.2) o
  | binary op l r ty o ihl ihr =>
    obtain ⟨hl, hr, heq, hlog, hty⟩ := he
    obtain ⟨hl', hlt⟩ := ihl hl
    obtain ⟨hr', hrt⟩ := ihr hr
    exact hl'.foldBinary hr' (by rw [hlt, hrt, heq]) (by rwa [hlt]) (by rwa [hlt]) o
  | select c t e ty o ihc iht ihe =>
    obtain ⟨hc, ht, he, hb, heq, hty⟩ := he
    obtain ⟨hc', hct⟩ := ihc hc
    obtain ⟨ht', htt⟩ := iht ht
    obtain ⟨he', het⟩ := ihe he
    rw [Expr.fold]
    split
    · exact ⟨ht', by rw [htt, ← hty]; rfl⟩
    · exact ⟨he', by rw [het, ← heq, ← hty]; rfl⟩
    · exact ⟨⟨hc', ht', he', by rw [hct, hb], by rw [htt, het, heq], by rw [htt, hty]⟩, rfl⟩
  | access t i ty o iht ihi =>
    refine ⟨⟨?_, (ihi he.2).1⟩, rfl⟩
    cases t with
    | var => exact he.1
    | _ => exact he.1.elim
  | convert e ty ih => exact (ih he).1.foldConvert ty
  | bitCast e ty ih => exact ⟨(ih he).1, rfl⟩
  | _ => exact ⟨he, rfl⟩

/-- what holds of the literals that casts take also holds with what is known of typed literals -/
theorem CastsOf.mono {P Q : Int → Ty → Prop} (hPQ : ∀ {v ty}, Word64.fits v = true → P v ty → Q v ty) {e : Expr}
    (he : e.Typed Γ) (h : e.CastsOf P) : e.CastsOf Q := by
  induction e with
  | unary op e ty o ih => exact ih he.1 h
  | binary op l r ty o ihl ihr => exact ⟨ihl he.1 h.1, ihr he.2.1 h.2⟩
  | select c t e ty o ihc iht ihe => exact ⟨ihc he.1 h.1, iht he.2.1 h.2.1, ihe he.2.2.1 h.2.2⟩
  | access t i ty o iht ihi => exact ihi he.2 h
  | convert e ty ih =>
    refine ⟨ih he h.1, fun hty v t o hv => hPQ ?_ (h.2 hty v t o hv)⟩
    have ht : e.fold.Typed Γ := (Typed.fold (e := e) he).1
    rw [hv] at ht
    exact ht.2
  | bitCast e ty ih => exact ih he h
  | _ => trivial

end Expr

/-! ## Values -/

namespace Scalar

theorem wrap_neg_wrap (s : Scalar) (v : Int) : s.wrap (-s.wrap v) = s.wrap (-v) := by
  unfold wrap
  split_ifs
  · exact Int.bmod_neg_bmod
  · rw [← zero_sub, Int.sub_emod, Int.emod_emod, ← Int.sub_emod, zero_sub]

end Scalar

/-- a bitwise operator on wide words agrees in the low bits with the one on words -/
theorem wrap_wideBits {f : BitVec 128 → BitVec 128 → BitVec 128} {g : BitVec 64 → BitVec 64 → BitVec 64}
    (h : ∀ x y, (f x y).setWidth 64 = g (x.setWidth 64) (y.setWidth 64)) (a b : Int) :
    Scalar.i64.wrap (wideBits f a b) = Word64.bitwise g a b := by
  have hlow (x : BitVec 128) : x.toInt.bmod (2 ^ 64) = (x.setWidth 64).toInt := by
    rw [BitVec.toInt_setWidth, BitVec.toInt_eq_toNat_bmod]
    exact Int.bmod_bmod_of_dvd (by decide)
  have hcut (v : Int) : (BitVec.ofInt 128 v).setWidth 64 = BitVec.ofInt 64 v := by
    apply BitVec.eq_of_toInt_eq
    rw [← hlow, BitVec.toInt_ofInt, BitVec.toInt_ofInt]
    exact Int.bmod_bmod_of_dvd (by decide)
  change (f (BitVec.ofInt 128 a) (BitVec.ofInt 128 b)).toInt.bmod (2 ^ 64) = _
  rw [hlow, h, hcut, hcut]
  rfl

namespace Binary

/-- two folded words are what the operator gives on them -/
theorem eval_of_foldWords? {op : Binary} {a b : Int} {e : Expr} (ha : Word64.fits a = true)
    (h : op.foldWords? a b = some e) (c : Machine.Context) (s : Machine.State) (o : Origin) :
    Machine.eval c s (e.withOrigin o) =
      Machine.liftArithmetic o (op.eval (.word a) (.word b) (op.resultTy .i64).elem) := by
  have hnumber {v : Int} (hn : op.number? a b = some v) (hf : Word64.fits v = true) (hs : (op.resultTy .i64).elem = .i64) :
      Machine.eval c s (.int v .i64 o) =
        Machine.liftArithmetic o (op.eval (.word a) (.word b) (op.resultTy .i64).elem) := by
    rw [hs, eval_number hn hf, Machine.eval]
    exact congrArg Except.ok (Value.ofInt_i64 hf)
  have hbits {f : BitVec 128 → BitVec 128 → BitVec 128} {g : BitVec 64 → BitVec 64 → BitVec 64}
      (hfg : ∀ x y, (f x y).setWidth 64 = g (x.setWidth 64) (y.setWidth 64)) :
      Value.ofInt (Word64.bitwise g a b) .i64 = Value.ofInt (wideBits f a b) .i64 := by
    rw [Value.ofInt_i64 (Word64.fits_bitwise g a b), Value.ofInt_of_isInteger _ rfl, wrap_wideBits hfg]
  cases op <;> simp only [foldWords?, Option.map_eq_some_iff, Option.some.injEq, reduceCtorEq] at h
  case add | sub | mul =>
    obtain ⟨v, hv, rfl⟩ := h
    obtain ⟨hf, rfl⟩ := Word64.checked?_eq_some.1 hv
    exact hnumber rfl hf rfl
  case div =>
    obtain ⟨v, hv, rfl⟩ := h
    split_ifs at hv with h0
    obtain ⟨hf, rfl⟩ := Word64.checked?_eq_some.1 hv
    exact hnumber (if_neg h0) hf rfl
  case rem =>
    obtain ⟨v, hv, rfl⟩ := h
    split_ifs at hv with h0
    cases hv
    exact hnumber (if_neg fun hb => h0 (.inl hb)) (Word64.fits_tmod ha) rfl
  case bitAnd =>
    obtain ⟨v, rfl, rfl⟩ := h
    exact congrArg Except.ok (hbits fun _ _ => BitVec.setWidth_and)
  case bitOr =>
    obtain ⟨v, rfl, rfl⟩ := h
    exact congrArg Except.ok (hbits fun _ _ => BitVec.setWidth_or)
  case bitXor =>
    obtain ⟨v, rfl, rfl⟩ := h
    exact congrArg Except.ok (hbits fun _ _ => BitVec.setWidth_xor)
  case max | min =>
    obtain ⟨v, rfl, rfl⟩ := h
    rfl
  all_goals
    subst h
    rfl

end Binary

namespace Machine

variable {Γ : Typing} {c : Context} {s : State} {l r e : Expr}

/-- an operator node has the value that it has for other parts with the same values -/
theorem eval_binary_mono {op : Binary} {l' r' : Expr} {ty : Ty} {o : Origin} {v : Value}
    (hl : ∀ x, eval c s l = .ok x → eval c s l' = .ok x) (hr : ∀ x, eval c s r = .ok x → eval c s r' = .ok x)
    (h : eval c s (.binary op l r ty o) = .ok v) : eval c s (.binary op l' r' ty o) = .ok v := by
  cases hop : op.isLogical with
  | false =>
    obtain ⟨x, y, hx, hy, hv⟩ := (eval_binary_eq_ok hop).1 h
    exact (eval_binary_eq_ok hop).2 ⟨x, y, hl x hx, hr y hy, hv⟩
  | true =>
    cases op <;> cases hop
    · obtain ⟨x, hx, hv⟩ := eval_and_eq_ok.1 h
      refine eval_and_eq_ok.2 ⟨x, hl x hx, ?_⟩
      split_ifs at hv ⊢
      · exact hv.imp fun y hy => ⟨hr y hy.1, hy.2⟩
      · exact hv
    · obtain ⟨x, hx, hv⟩ := eval_or_eq_ok.1 h
      refine eval_or_eq_ok.2 ⟨x, hl x hx, ?_⟩
      split_ifs at hv ⊢
      · exact hv
      · exact hv.imp fun y hy => ⟨hr y hy.1, hy.2⟩

theorem eval_foldUnary {op : Unary} {ty : Ty} (he : e.Typed Γ) (hty : ty = op.resultTy e.ty) (o : Origin) :
    eval c s (e.foldUnary op ty o) = eval c s (.unary op e ty o) := by
  unfold Expr.foldUnary
  split
  · rename_i v t p
    obtain rfl : ty = t := hty
    split_ifs
    · rfl
    · have hneg : (Value.ofInt v ty.elem) = .int (ty.elem.wrap v) ty.elem := Value.ofInt_of_isInteger v he.1
      simp only [eval, hneg, Unary.eval, bind, Except.bind, liftArithmetic, Value.ofInt_of_isInteger _ he.1,
        Scalar.wrap_neg_wrap]
  · rfl
  · rfl

/-- a 64-bit expression has a word as its value -/
theorem Word.of_typed (he : e.Typed Γ) (hty : e.ty = .i64) (hs : s.Conforms Γ) {v : Value} (h : eval c s e = .ok v) :
    ∃ a, v = .word a ∧ Word c s e a := by
  have hv := eval_fits he hs h
  rw [hty] at hv
  obtain ⟨a, rfl, ha⟩ := hv.of_isInteger rfl
  refine ⟨a, rfl, h, ha ▸ Word64.fits_wrap a, fun x ty o hx => ?_⟩
  subst hx
  obtain rfl : ty = .i64 := hty
  have hval : Value.ofInt x .i64 = .word a := Except.ok.inj h
  rw [Value.ofInt_i64 he.2] at hval
  exact (Value.int.inj hval).1

/-- a word is not changed by a neutral element, and a product with zero is zero -/
theorem Word.eval_foldNeutral {op : Binary} {a b : Int} (hl : Word c s l a) (hr : Word c s r b) (o : Origin) :
    eval c s (Expr.foldNeutral op l r .i64 o) = eval c s (.binary op l r .i64 o) := by
  have hresult {v : Int} (hv : op.number? a b = some v) (hf : Word64.fits v = true) :
      eval c s (.binary op l r .i64 o) = .ok (.word v) := (hl.binary hr hv hf o).value
  unfold Expr.foldNeutral
  split
  case h_1 =>
    split_ifs with h0 h0'
    · rw [hl.value, hresult (congrArg some (by rw [hr.of_isLiteral h0, add_zero])) hl.fits]
    · rw [hr.value, hresult (congrArg some (by rw [hl.of_isLiteral h0', zero_add])) hr.fits]
    · rfl
  case h_2 =>
    split_ifs with h0
    · rw [hl.value, hresult (congrArg some (by rw [hr.of_isLiteral h0, sub_zero])) hl.fits]
    · rfl
  case h_3 =>
    split_ifs with h1 h1' h0
    · rw [hl.value, hresult (congrArg some (by rw [hr.of_isLiteral h1, mul_one])) hl.fits]
    · rw [hr.value, hresult (congrArg some (by rw [hl.of_isLiteral h1', one_mul])) hr.fits]
    · have hzero : a * b = 0 := by
        rcases Bool.or_eq_true_iff.1 h0 with h | h
        · rw [hl.of_isLiteral h, zero_mul]
        · rw [hr.of_isLiteral h, mul_zero]
      rw [hresult (congrArg some hzero) (by decide)]
      rfl
    · rfl
  case h_4 =>
    split_ifs with h1
    · have hdiv : Binary.div.number? a b = some a := by
        rw [hr.of_isLiteral h1]
        exact congrArg some (Int.tdiv_one a)
      rw [hl.value, hresult hdiv hl.fits]
    · rfl
  case h_5 => rfl

theorem eval_foldMixed {op : Binary} {ty : Ty} {o : Origin} (hl : l.Typed Γ) (hr : r.Typed Γ) (heq : l.ty = r.ty)
    (hlog : op.isLogical = true → l.ty = .bool) (hty : ty = op.resultTy l.ty) (hs : s.Conforms Γ) {v : Value}
    (h : eval c s (.binary op l r ty o) = .ok v) : eval c s (Expr.foldMixed op l r ty o) = .ok v := by
  have htruth {e : Expr} (he : e.Typed Γ) (hb : e.ty = .bool) {x : Value} (hx : eval c s e = .ok x) :
      Value.bool x.truth = x := by
    have hfit := eval_fits he hs hx
    rw [hb] at hfit
    cases x with
    | bool => rfl
    | int => exact absurd hfit.2.1 (by decide)
    | float => exact absurd hfit.2 (by decide)
  unfold Expr.foldMixed
  split
  · rename_i a _ _ b _ _
    cases a <;> exact h
  · rename_i a _ _ b _ _
    cases a <;> exact h
  · -- only the second part counts
    obtain ⟨x, hx, hv⟩ := eval_and_eq_ok.1 h
    cases hx
    obtain ⟨y, hy, rfl⟩ := hv
    rw [hy, htruth hr (heq ▸ hlog rfl) hy]
  · obtain ⟨x, hx, hv⟩ := eval_and_eq_ok.1 h
    have hx' : v = .bool x.truth := by
      split_ifs at hv with ht
      · obtain ⟨y, hy, rfl⟩ := hv
        cases hy
        rw [ht]
        rfl
      · rw [← hv, Bool.eq_false_iff.2 ht]
    rw [hx, hx', htruth hl (hlog rfl) hx]
  · split_ifs with hi
    · subst hi
      cases hop : op.isComparison || op.isLogical with
      | true =>
        rw [Binary.resultTy, hop, if_pos rfl] at hty
        cases hty
      | false =>
        rw [Binary.resultTy, hop, if_neg (by decide)] at hty
        have hnot := (Bool.or_eq_false_iff.1 hop).2
        obtain ⟨x, y, hx, hy, -⟩ := (eval_binary_eq_ok hnot).1 h
        obtain ⟨a, rfl, hla⟩ := Word.of_typed hl hty.symm hs hx
        obtain ⟨b, rfl, hrb⟩ := Word.of_typed hr (heq ▸ hty.symm) hs hy
        rw [hla.eval_foldNeutral hrb, h]
    · exact h

theorem eval_foldBinary {op : Binary} {ty : Ty} {o : Origin} (hl : l.Typed Γ) (hr : r.Typed Γ) (heq : l.ty = r.ty)
    (hlog : op.isLogical = true → l.ty = .bool) (hty : ty = op.resultTy l.ty) (hs : s.Conforms Γ) {v : Value}
    (h : eval c s (.binary op l r ty o) = .ok v) : eval c s (Expr.foldBinary op l r ty o) = .ok v := by
  unfold Expr.foldBinary
  split
  · rename_i a p b q
    split
    · rename_i e he
      have hnot : op.isLogical = false := by
        cases hop : op.isLogical with
        | false => rfl
        | true => exact nomatch hlog hop
      rw [Binary.eval_of_foldWords? hl.2 he, ← h, eval_binary hnot, hty]
      change _ = liftArithmetic o (op.eval (.ofInt a .i64) (.ofInt b .i64) _)
      rw [Value.ofInt_i64 hl.2, Value.ofInt_i64 hr.2]
      rfl
    · exact h
  · exact eval_foldMixed hl hr heq hlog hty hs h

/-- a cast of a literal in the range of its type -/
theorem eval_foldConvert {ty : Ty} (he : e.Typed Γ)
    (hc : ty = .i64 → ∀ v t o, e = .int v t o → Literal.InRange v t) :
    eval c s (e.foldConvert ty) = eval c s (.convert e ty) := by
  unfold Expr.foldConvert
  split
  · rename_i v t o
    have hv : Value.ofInt v t.elem = .int v t.elem := by
      rw [Value.ofInt_of_isInteger v he.1, hc rfl v t o rfl]
    change _ = Except.ok ((Value.ofInt v t.elem).convert .i64)
    rw [hv]
    rfl
  · rfl

/-- **Folding keeps values.** A typed expression in whose folding casts to 64 bits meet only literals in range has the
same value when it is folded. -/
theorem eval_fold {e : Expr} (he : e.Foldable Γ) (hs : s.Conforms Γ) {v : Value} (h : eval c s e = .ok v) :
    eval c s e.fold = .ok v := by
  obtain ⟨he, hc⟩ := he
  induction e generalizing v with
  | unary op e ty o ih =>
    obtain ⟨w, hw, hv⟩ := eval_unary_eq_ok.1 h
    obtain ⟨hf, hft⟩ := he.1.fold
    rw [Expr.fold, eval_foldUnary hf (hft ▸ he.2) o]
    exact eval_unary_eq_ok.2 ⟨w, ih hw he.1 hc, hv⟩
  | binary op l r ty o ihl ihr =>
    obtain ⟨hl, hr, heq, hlog, hty⟩ := he
    obtain ⟨hlf, hlt⟩ := hl.fold
    obtain ⟨hrf, hrt⟩ := hr.fold
    exact eval_foldBinary hlf hrf (by rw [hlt, hrt, heq]) (by rwa [hlt]) (by rwa [hlt]) hs
      (eval_binary_mono (fun _ hx => ihl hx hl hc.1) (fun _ hy => ihr hy hr hc.2) h)
  | select b t e ty o ihb iht ihe =>
    obtain ⟨x, hx, hv⟩ := eval_select_eq_ok.1 h
    have hb := ihb hx he.1 hc.1
    have hv' : if x.truth then eval c s t.fold = .ok v else eval c s e.fold = .ok v := by
      split_ifs at hv ⊢
      · exact iht hv he.2.1 hc.2.1
      · exact ihe hv he.2.2.1 hc.2.2
    rw [Expr.fold]
    split
    · rename_i p q hfold
      rw [hfold] at hb
      cases hb
      exact hv'
    · rename_i p q hfold
      rw [hfold] at hb
      cases hb
      exact hv'
    · exact eval_select_eq_ok.2 ⟨x, hb, hv'⟩
  | access t i ty o iht ihi =>
    obtain ⟨n, ty', o', k, rfl, hk, hv⟩ := eval_access_eq_ok.1 h
    exact eval_access_eq_ok.2 ⟨n, ty', o', k, rfl, ihi hk he.2 hc, hv⟩
  | convert e ty ih =>
    obtain ⟨w, hw, hv⟩ := eval_convert_eq_ok.1 h
    rw [Expr.fold, eval_foldConvert (Expr.Typed.fold (e := e) he).1 hc.2]
    exact eval_convert_eq_ok.2 ⟨w, ih hw he hc.1, hv⟩
  | bitCast e ty ih =>
    obtain ⟨w, hw, hv⟩ := eval_bitCast_eq_ok.1 h
    exact eval_bitCast_eq_ok.2 ⟨w, ih hw he hc, hv⟩
  | _ => exact h

/-- **Constants are values.** The folded expression has the value of the expression; if it is a literal, the value is the
number of the literal at the type of the expression. -/
theorem folded_value {e : Expr} (he : e.Foldable Γ) (hs : s.Conforms Γ) {v : Value} (h : eval c s e = .ok v) :
    eval c s e.fold = .ok v ∧
      ∀ n, e.constant? = some n → v = .ofInt n e.ty.elem ∧ (e.ty = .i64 → v = .word n) := by
  have hfold := eval_fold he hs h
  refine ⟨hfold, fun n hn => ?_⟩
  obtain ⟨ht, hty⟩ := he.typed.fold
  unfold Expr.constant? at hn
  split at hn
  · rename_i w ty o hw
    obtain rfl := Option.some.inj hn
    rw [hw] at hfold ht hty
    obtain rfl : ty = e.ty := hty
    obtain rfl : Value.ofInt w e.ty.elem = v := Except.ok.inj hfold
    refine ⟨rfl, fun h64 => ?_⟩
    rw [h64]
    exact Value.ofInt_i64 ht.2
  · cases hn

/-- a negated literal of a signed type as a 64-bit number: folded to a literal, with the value it has -/
theorem folded_value_of_signed : let e := Expr.cast (.op1 .neg (.literal 5 .i32)) .i64
    e.constant? = some (-5) ∧ eval (({} : GpuHistogram.Machine).context {}) {} e = .ok (.word (-5)) ∧
      eval (({} : GpuHistogram.Machine).context {}) {} e.fold = .ok (.word (-5)) := by
  have he : (Expr.cast (.op1 .neg (.literal 5 .i32)) .i64).Foldable ⟨fun _ => none, fun _ => none⟩ :=
    ⟨⟨⟨rfl, rfl⟩, rfl⟩, trivial, fun _ v t o h => by cases h; rfl⟩
  exact ⟨rfl, rfl, (folded_value he (.empty _) rfl).1⟩

/-- the same of an unsigned type: the negated literal is out of range, and the cast takes it as it is -/
theorem folded_negation_of_unsigned : let e := Expr.cast (.op1 .neg (.literal 5 .u32)) .i64
    e.Typed ⟨fun _ => none, fun _ => none⟩ ∧ Literal.InRange 5 (.scalar .u32) ∧
      State.Conforms ⟨fun _ => none, fun _ => none⟩ {} ∧
      eval (({} : GpuHistogram.Machine).context {}) {} e = .ok (.word 4294967291) ∧
      eval (({} : GpuHistogram.Machine).context {}) {} e.fold = .ok (.word (-5)) ∧ e.constant? = some (-5) :=
  ⟨⟨⟨rfl, rfl⟩, rfl⟩, rfl, .empty _, rfl, rfl, rfl⟩

end Machine

end GpuHistogram
