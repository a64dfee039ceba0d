/-
Arithmetic on indices and sizes. Where no operator overflows, 64-bit expressions are computed on numbers, and folding
an expression does not change its value.

`Word c s e a`: the expression `e` has the 64-bit value `a`; if it is a literal it is the literal `a`. The second part is
what folding relies on, since it looks at literals only.
`Computes f c s e a`: the same of the form `f` of a 64-bit expression. One lemma for each operator says how words are
combined.
-/
import GpuHistogram.Code.Build
import GpuHistogram.Machine.Eval
import GpuHistogram.Proofs.Form
import GpuHistogram.Scalar.Word64
import Mathlib.Tactic.Ring

namespace GpuHistogram

/-- the 64-bit value of a number -/
abbrev Value.word (a : Int) : Value := .int a .i64

theorem Scalar.wrap_i64 {a : Int} (h : Word64.fits a = true) : Scalar.i64.wrap a = a :=
  Word64.wrap_of_fits h

theorem Value.ofInt_i64 {a : Int} (h : Word64.fits a = true) : Value.ofInt a .i64 = .word a := by
  rw [Value.ofInt_of_isInteger a rfl, Scalar.wrap_i64 h]

theorem Value.toInt64_word {a : Int} (h : Word64.fits a = true) : (Value.word a).toInt64 = a :=
  Word64.wrap_of_fits h

theorem Value.convert_word {a : Int} (h : Word64.fits a = true) : (Value.word a).convert .i64 = .word a :=
  Value.ofInt_i64 h

/-- a result that is a word is not changed on its way through wider words -/
theorem wideWord_of_fits {a : Int} (h : Word64.fits a = true) : wideWord a = a := by
  rw [Word64.fits_iff] at h
  exact Int.bmod_eq_of_le (by omega) (by omega)

namespace Binary

/-- the number an arithmetic operator yields; none for a division by zero, and for operators not used on indices -/
def number? (op : Binary) (a b : Int) : Option Int :=
  match op with
  | add => some (a + b)
  | sub => some (a - b)
  | mul => some (a * b)
  | div => if b = 0 then none else some (a.tdiv b)
  | rem => if b = 0 then none else some (a.tmod b)
  | max => some (Max.max a b)
  | _ => none

/-- the answer a comparison gives -/
def compares? (op : Binary) (a b : Int) : Option Bool :=
  match op with
  | eq => some (a = b)
  | ne => some (a ≠ b)
  | le => some (a ≤ b)
  | ge => some (b ≤ a)
  | lt => some (a < b)
  | gt => some (b < a)
  | _ => none

theorem isLogical_of_number? {op : Binary} {a b r : Int} (h : op.number? a b = some r) : op.isLogical = false := by
  cases op <;> simp_all [number?, isLogical]

theorem isLogical_of_compares? {op : Binary} {a b : Int} {r : Bool} (h : op.compares? a b = some r) :
    op.isLogical = false := by
  cases op <;> simp_all [compares?, isLogical]

theorem eval_number {op : Binary} {a b r : Int} (h : op.number? a b = some r) (hr : Word64.fits r = true) :
    op.eval (.word a) (.word b) .i64 = .ok (.word r) := by
  cases op <;> simp only [number?, reduceCtorEq, Option.some.injEq] at h
  case max =>
    subst h
    have hm : (if a < b then b else a) = Max.max a b := by
      split_ifs <;> omega
    change Except.ok (Value.ofInt (if a < b then b else a) .i64) = _
    rw [hm, Value.ofInt_i64 hr]
  case div | rem =>
    split_ifs at h with hb
    cases h
    simp only [eval, evalInt, operand, hb, if_false, wideWord_of_fits hr, Value.ofInt_i64 hr]
  all_goals
    subst h
    simp only [eval, evalInt, operand, wideWord_of_fits hr, Value.ofInt_i64 hr]

/-- a sum or a difference of words is reduced to a word -/
theorem eval_wraps {op : Binary} (hop : op = .add ∨ op = .sub) {a b v : Int} (ha : Word64.fits a = true)
    (hb : Word64.fits b = true) (hv : op.number? a b = some v) :
    op.eval (.word a) (.word b) .i64 = .ok (.word (Word64.wrap v)) := by
  rw [Word64.fits_iff] at ha hb
  have hbounds : -(2 ^ 64) ≤ v ∧ v ≤ 2 ^ 64 := by
    rcases hop with rfl | rfl <;> cases hv <;> omega
  have hwide : wideWord v = v := Int.bmod_eq_of_le (by omega) (by omega)
  rcases hop with rfl | rfl <;> cases hv <;>
    simp only [eval, evalInt, operand, hwide] <;> rw [Value.ofInt_of_isInteger _ rfl] <;> rfl

theorem eval_compares {op : Binary} {a b : Int} {r : Bool} (h : op.compares? a b = some r) (s : Scalar) :
    op.eval (.word a) (.word b) s = .ok (.bool r) := by
  cases op <;> simp only [compares?, reduceCtorEq, Option.some.injEq] at h <;> subst h <;> rfl

theorem foldWords?_number {op : Binary} {a b r : Int} {e : Expr} (h : op.number? a b = some r)
    (he : op.foldWords? a b = some e) : e = .int r .i64 .unknown := by
  cases op <;> simp only [number?, reduceCtorEq, Option.some.injEq] at h <;>
    simp only [foldWords?, Option.map_eq_some_iff, Word64.checked?_eq_some, Option.some.injEq] at he
  case max =>
    obtain ⟨v, rfl, rfl⟩ := he
    have hm : (if a < b then b else a) = r := by
      split_ifs <;> omega
    rw [hm]
  case div =>
    split_ifs at h he with hb
    cases h
    obtain ⟨v, hv, rfl⟩ := he
    rw [Word64.checked?_eq_some] at hv
    exact hv.2 ▸ rfl
  case rem =>
    split_ifs at h with hb
    cases h
    split_ifs at he with hb'
    · simp at he
    · obtain ⟨v, hv, rfl⟩ := he
      cases hv
      rfl
  all_goals
    obtain ⟨v, ⟨-, rfl⟩, rfl⟩ := he
    subst h
    rfl

theorem foldWords?_compares {op : Binary} {a b : Int} {r : Bool} (h : op.compares? a b = some r) :
    op.foldWords? a b = some (.bool r .bool .unknown) := by
  cases op <;> simp only [compares?, reduceCtorEq, Option.some.injEq] at h <;> subst h <;> rfl

end Binary

namespace Machine

variable {c : Context} {s : State}

theorem eval_binary {op : Binary} (h : op.isLogical = false) (l r : Expr) (ty : Ty) (o : Origin) :
    eval c s (.binary op l r ty o) = (do
      let x ← eval c s l
      let y ← eval c s r
      liftArithmetic o (op.eval x y ty.elem)) := by
  cases op <;> first | rfl | exact absurd h (by decide)

/-- the expression has a 64-bit value; as a literal it is written as that value -/
structure Word (c : Context) (s : State) (e : Expr) (a : Int) : Prop where
  value : eval c s e = .ok (.word a)
  fits : Word64.fits a = true
  exact : ∀ v ty o, e = .int v ty o → v = a

theorem Word.of_isLiteral {e : Expr} {a v : Int} (h : Word c s e a) (hv : e.isLiteral v = true) : a = v := by
  cases e <;> simp only [Expr.isLiteral, Bool.false_eq_true, decide_eq_true_eq] at hv
  rw [← h.exact _ _ _ rfl, hv]

theorem Word.literal {a : Int} (h : Word64.fits a = true) (ty : Ty) (hty : ty.elem = .i64) (o : Origin) :
    Word c s (.int a ty o) a where
  value := by rw [eval, hty, Value.ofInt_i64 h]
  fits := h
  exact := fun v ty' o' he => by cases he; rfl

theorem Word.binary {op : Binary} {l r : Expr} {a b v : Int} (hl : Word c s l a) (hr : Word c s r b)
    (hv : op.number? a b = some v) (hf : Word64.fits v = true) (o : Origin) :
    Word c s (.binary op l r .i64 o) v where
  value := by
    rw [eval_binary (Binary.isLogical_of_number? hv), hl.value, hr.value]
    change liftArithmetic o (op.eval (.word a) (.word b) .i64) = _
    rw [Binary.eval_number hv hf]
    rfl
  fits := hf
  exact := fun _ _ _ he => by cases he

/-- dropping a neutral operand, or a product with zero, does not change a 64-bit value -/
theorem Word.foldNeutral {op : Binary} {l r : Expr} {a b v : Int} (hl : Word c s l a) (hr : Word c s r b)
    (hv : op.number? a b = some v) (hf : Word64.fits v = true) (o : Origin) :
    Word c s (Expr.foldNeutral op l r .i64 o) v := by
  have hbin := hl.binary hr hv hf o
  have eqv {e : Expr} {w : Int} (h : Word c s e w) (hw : w = v) : Word c s e v := hw ▸ h
  cases op <;> simp only [Binary.number?, reduceCtorEq, Option.some.injEq] at hv
  case add =>
    simp only [Expr.foldNeutral]
    split_ifs with h1 h2
    · exact eqv hl (by have := hr.of_isLiteral h1; omega)
    · exact eqv hr (by have := hl.of_isLiteral h2; omega)
    · exact hbin
  case sub =>
    simp only [Expr.foldNeutral]
    split_ifs with h1
    · exact eqv hl (by have := hr.of_isLiteral h1; omega)
    · exact hbin
  case mul =>
    simp only [Expr.foldNeutral]
    split_ifs with h1 h2 h3
    · exact eqv hl (by rw [← hv, hr.of_isLiteral h1, mul_one])
    · exact eqv hr (by rw [← hv, hl.of_isLiteral h2, one_mul])
    · have h0 : v = 0 := by
        rcases Bool.or_eq_true_iff.1 h3 with h | h
        · rw [← hv, hl.of_isLiteral h, zero_mul]
        · rw [← hv, hr.of_isLiteral h, mul_zero]
      subst h0
      exact Word.literal hf .i64 rfl o
    · exact hbin
  case div =>
    simp only [Expr.foldNeutral]
    split_ifs at hv with hb
    cases hv
    split_ifs with h1
    · exact eqv hl (by rw [hr.of_isLiteral h1, Int.tdiv_one])
    · exact hbin
  all_goals exact hbin

theorem Word.foldMixed {op : Binary} {l r : Expr} {a b v : Int} (hl : Word c s l a) (hr : Word c s r b)
    (hv : op.number? a b = some v) (hf : Word64.fits v = true) (o : Origin) :
    Word c s (Expr.foldMixed op l r .i64 o) v := by
  have h := hl.foldNeutral hr hv hf o
  cases op <;> first | exact h | simp [Binary.number?] at hv

/-- folding one operator on words -/
theorem Word.foldBinary {op : Binary} {l r : Expr} {a b v : Int} (hl : Word c s l a) (hr : Word c s r b)
    (hv : op.number? a b = some v) (hf : Word64.fits v = true) (o : Origin) :
    Word c s (Expr.foldBinary op l r .i64 o) v := by
  unfold Expr.foldBinary
  split
  · rename_i x o₁ y o₂
    obtain rfl : x = a := hl.exact _ _ _ rfl
    obtain rfl : y = b := hr.exact _ _ _ rfl
    split
    · rename_i e he
      rw [Binary.foldWords?_number hv he]
      exact Word.literal hf .i64 rfl o
    · exact hl.binary hr hv hf o
  · exact hl.foldMixed hr hv hf o

/-- a sum or a difference that is no word is not folded -/
theorem Word.foldBinary_of_not_fits {op : Binary} (hop : op = .add ∨ op = .sub) {l r : Expr} {a b v : Int}
    (hl : Word c s l a) (hr : Word c s r b) (hv : op.number? a b = some v) (hf : Word64.fits v = false) (ty : Ty)
    (o : Origin) : Expr.foldBinary op l r ty o = .binary op l r ty o := by
  have hleft : a ≠ v := fun h => by rw [← h, hl.fits] at hf; cases hf
  have hright : b ≠ v := fun h => by rw [← h, hr.fits] at hf; cases hf
  unfold Expr.foldBinary
  split
  · rename_i x o₁ y o₂
    obtain rfl : x = a := hl.exact _ _ _ rfl
    obtain rfl : y = b := hr.exact _ _ _ rfl
    have hnone : op.foldWords? x y = none := by
      rcases hop with rfl | rfl <;> cases hv <;> simp [Binary.foldWords?, Word64.checked?, hf]
    rw [hnone]
  · have hzero {e : Expr} {w : Int} (he : Word c s e w) (hne : w ≠ 0) : e.isLiteral 0 = false := by
      cases h : e.isLiteral 0 with
      | false => rfl
      | true => exact absurd (he.of_isLiteral h) hne
    rcases hop with rfl | rfl <;> cases hv
    · have hr0 : r.isLiteral 0 = false := hzero hr (by omega)
      have hl0 : l.isLiteral 0 = false := hzero hl (by omega)
      simp [Expr.foldMixed, Expr.foldNeutral, hl0, hr0]
    · have hr0 : r.isLiteral 0 = false := hzero hr (by omega)
      simp [Expr.foldMixed, Expr.foldNeutral, hr0]

/-- the expression has a value, also when it is folded -/
def Evals (f : Form) (c : Context) (s : State) (e : Expr) (v : Value) : Prop :=
  eval c s (f.expr e) = .ok v

/-- the 64-bit expression has a value, also when it is folded -/
structure Computes (f : Form) (c : Context) (s : State) (e : Expr) (a : Int) : Prop where
  ty : e.ty = .i64
  word : Word c s (f.expr e) a

namespace Computes

variable {f : Form} {l r e : Expr} {a b : Int}

theorem fits (h : Computes f c s e a) : Word64.fits a = true := h.word.fits

theorem evals (h : Computes f c s e a) : Evals f c s e (.word a) := h.word.value

theorem literal (h : Word64.fits a = true) : Computes f c s (.i64 a) a where
  ty := rfl
  word := by cases f <;> exact Word.literal h .i64 rfl .unknown

theorem zero : Computes f c s 0 0 := literal (by decide)

theorem one : Computes f c s 1 1 := literal (by decide)

theorem ofName {n : Name} (h : s.vars.get? n = some (.word a)) (hf : Word64.fits a = true) :
    Computes f c s (.ofName n) a where
  ty := rfl
  word := by
    have hv : Word c s (.var n .i64 .unknown) a :=
      ⟨by rw [eval, h], hf, fun _ _ _ he => by cases he⟩
    cases f <;> exact hv

/-- an operator on words, if its result is a word -/
theorem op2 {op : Binary} (hl : Computes f c s l a) (hr : Computes f c s r b) {v : Int}
    (hv : op.number? a b = some v) (hf : Word64.fits v = true) : Computes f c s (.op2 op l r) v := by
  have hlog := Binary.isLogical_of_number? hv
  have hcmp : op.isComparison = false := by
    cases op <;> simp_all [Binary.number?, Binary.isComparison]
  have hty : (if op.isComparison || op.isLogical then Ty.bool else l.ty) = .i64 := by
    simp [hlog, hcmp, hl.ty]
  refine ⟨hty, ?_⟩
  cases f
  · change Word c s (.binary op l r (if _ then _ else _) .unknown) v
    rw [hty]
    exact hl.word.binary hr.word hv hf .unknown
  · change Word c s (Expr.foldBinary op l.fold r.fold (if _ then _ else _) .unknown) v
    rw [hty]
    exact hl.word.foldBinary hr.word hv hf .unknown

/-- a sum or a difference of words, reduced to a word -/
theorem wraps {op : Binary} (hop : op = .add ∨ op = .sub) (hl : Computes f c s l a) (hr : Computes f c s r b) {v : Int}
    (hv : op.number? a b = some v) : Computes f c s (.op2 op l r) (Word64.wrap v) := by
  cases hf : Word64.fits v with
  | true =>
    rw [Word64.wrap_of_fits hf]
    exact hl.op2 hr hv hf
  | false =>
    have hlog := Binary.isLogical_of_number? hv
    have hcmp : op.isComparison = false := by rcases hop with rfl | rfl <;> rfl
    have hty : (if op.isComparison || op.isLogical then Ty.bool else l.ty) = .i64 := by
      simp [hlog, hcmp, hl.ty]
    have hbinary : Word c s (.binary op (f.expr l) (f.expr r) .i64 .unknown) (Word64.wrap v) := by
      refine ⟨?_, Word64.fits_wrap v, fun _ _ _ he => by cases he⟩
      rw [eval_binary hlog, hl.word.value, hr.word.value]
      change liftArithmetic .unknown (op.eval (.word a) (.word b) .i64) = _
      rw [Binary.eval_wraps hop hl.fits hr.fits hv]
      rfl
    refine ⟨hty, ?_⟩
    cases f
    · change Word c s (.binary op l r (if _ then _ else _) .unknown) _
      rw [hty]
      exact hbinary
    · have hfold : Expr.foldBinary op l.fold r.fold .i64 .unknown = .binary op l.fold r.fold .i64 .unknown :=
        Word.foldBinary_of_not_fits hop hl.word hr.word hv hf _ _
      change Word c s (Expr.foldBinary op l.fold r.fold (if _ then _ else _) .unknown) _
      rw [hty, hfold]
      exact hbinary

theorem add (hl : Computes f c s l a) (hr : Computes f c s r b) (h : Word64.fits (a + b) = true) :
    Computes f c s (l + r) (a + b) := hl.op2 hr rfl h

theorem sub (hl : Computes f c s l a) (hr : Computes f c s r b) (h : Word64.fits (a - b) = true) :
    Computes f c s (l - r) (a - b) := hl.op2 hr rfl h

theorem mul (hl : Computes f c s l a) (hr : Computes f c s r b) (h : Word64.fits (a * b) = true) :
    Computes f c s (l * r) (a * b) := hl.op2 hr rfl h

theorem max (hl : Computes f c s l a) (hr : Computes f c s r b) : Computes f c s (.max l r) (Max.max a b) := by
  refine hl.op2 hr rfl ?_
  rcases max_choice a b with h | h <;> rw [h]
  · exact hl.fits
  · exact hr.fits

/-- a sum of natural numbers -/
theorem addNat {m k : ℕ} (hl : Computes f c s l m) (hr : Computes f c s r k) (h : Word64.fits (m + k : ℕ) = true) :
    Computes f c s (l + r) (m + k : ℕ) := by
  rw [Nat.cast_add] at h ⊢
  exact hl.add hr h

/-- a product of natural numbers -/
theorem mulNat {m k : ℕ} (hl : Computes f c s l m) (hr : Computes f c s r k) (h : Word64.fits (m * k : ℕ) = true) :
    Computes f c s (l * r) (m * k : ℕ) := by
  rw [Nat.cast_mul] at h ⊢
  exact hl.mul hr h

/-- a quotient of natural numbers -/
theorem div {m k : ℕ} (hl : Computes f c s l m) (hr : Computes f c s r k) (hk : 0 < k) :
    Computes f c s (l / r) (m / k : ℕ) := by
  have hv : Binary.div.number? m k = some ((m / k : ℕ) : Int) := by
    simp only [Binary.number?]
    rw [if_neg (by omega), Int.tdiv_eq_ediv_of_nonneg (by omega), Int.natCast_ediv]
  refine hl.op2 hr hv ?_
  have h1 := Word64.fits_iff.1 hl.fits
  have h2 : m / k ≤ m := Nat.div_le_self m k
  rw [Word64.fits_iff]
  generalize m / k = q at h2
  omega

/-- a remainder of natural numbers -/
theorem mod {m k : ℕ} (hl : Computes f c s l m) (hr : Computes f c s r k) (hk : 0 < k) :
    Computes f c s (l % r) (m % k : ℕ) := by
  have hv : Binary.rem.number? m k = some ((m % k : ℕ) : Int) := by
    simp only [Binary.number?]
    rw [if_neg (by omega), Int.tmod_eq_emod_of_nonneg (by omega), Int.natCast_emod]
  refine hl.op2 hr hv ?_
  have h1 := Word64.fits_iff.1 hl.fits
  have h2 : m % k ≤ m := Nat.mod_le m k
  rw [Word64.fits_iff]
  generalize m % k = q at h2
  omega

/-- the quotient rounded up; the sum may be one too large for a word, since one is taken off again -/
theorem ceilDiv_wide {m k : ℕ} (hl : Computes f c s l m) (hr : Computes f c s r k) (hk : 0 < k) (h : m + k ≤ 2 ^ 63) :
    Computes f c s (.ceilDiv l r) ((m + k - 1) / k : ℕ) := by
  have hnumerator := (hl.wraps (.inl rfl) hr rfl).wraps (.inr rfl) .one rfl
  have hvalue : Word64.wrap (Word64.wrap (m + k) - 1) = (m + k - 1 : ℕ) := by
    have hstep : Word64.wrap (Word64.wrap (m + k) - 1) = Word64.wrap (m + k - 1) := Int.bmod_sub_bmod
    rw [hstep, Word64.wrap_of_fits (Word64.fits_iff.2 (by omega))]
    omega
  rw [hvalue] at hnumerator
  exact hnumerator.div hr hk

/-- the quotient rounded up -/
theorem ceilDiv {m k : ℕ} (hl : Computes f c s l m) (hr : Computes f c s r k) (hk : 0 < k)
    (h : Word64.fits (m + k : ℕ) = true) : Computes f c s (.ceilDiv l r) ((m + k - 1) / k : ℕ) :=
  hl.ceilDiv_wide hr hk (by rw [Word64.fits_iff] at h; omega)

/-- a quotient by zero is a fault, also when it is folded -/
theorem eval_div_zero (hl : Computes f c s l a) (hr : Computes f c s r 0) :
    eval c s (f.expr (l / r)) = .error ⟨.arithmetic .divisionByZero, .unknown⟩ := by
  have hdiv : eval c s (.binary .div (f.expr l) (f.expr r) .i64 .unknown) =
      .error ⟨.arithmetic .divisionByZero, .unknown⟩ := by
    rw [eval_binary rfl, hl.word.value, hr.word.value]
    rfl
  have hty : (l / r).ty = .i64 := hl.ty
  cases f with
  | plain =>
    change eval c s (.binary .div l r (l / r).ty .unknown) = _
    rw [hty]
    exact hdiv
  | folded =>
    have hone : r.fold.isLiteral 1 = false := by
      cases h1 : r.fold.isLiteral 1 with
      | false => rfl
      | true => exact absurd (hr.word.of_isLiteral h1) (by decide)
    change eval c s (Expr.foldBinary .div l.fold r.fold (l / r).ty .unknown) = _
    rw [hty]
    unfold Expr.foldBinary
    split
    · rename_i hw
      obtain rfl := hr.word.exact _ _ _ hw
      simp only [Binary.foldWords?, if_true, Option.map_none]
      exact hdiv
    · unfold Expr.foldMixed
      simp only [if_true, Expr.foldNeutral, hone, Bool.false_eq_true, if_false]
      exact hdiv

end Computes

/-- a comparison of words -/
theorem Evals.compare {f : Form} {op : Binary} {l r : Expr} {a b : Int} {v : Bool} (hl : Computes f c s l a)
    (hr : Computes f c s r b) (hv : op.compares? a b = some v) : Evals f c s (.op2 op l r) (.bool v) := by
  have hlog := Binary.isLogical_of_compares? hv
  have hplain {x y : Expr} (ty : Ty) (hx : Word c s x a) (hy : Word c s y b) :
      eval c s (.binary op x y ty .unknown) = .ok (.bool v) := by
    rw [eval_binary hlog, hx.value, hy.value]
    change liftArithmetic .unknown (op.eval (.word a) (.word b) ty.elem) = _
    rw [Binary.eval_compares hv]
    rfl
  have hcmp : op.isComparison = true := by
    cases op <;> simp_all [Binary.compares?, Binary.isComparison]
  have hty : (if op.isComparison || op.isLogical then Ty.bool else l.ty) = .bool := by
    simp [hcmp]
  cases f
  · exact hplain _ hl.word hr.word
  · change eval c s (Expr.foldBinary op l.fold r.fold (if _ then _ else _) .unknown) = _
    rw [hty]
    unfold Expr.foldBinary
    split
    · rename_i x o₁ y o₂ hx hy
      have hx' : x = a := hl.word.exact _ _ _ hx
      have hy' : y = b := hr.word.exact _ _ _ hy
      subst hx' hy'
      rw [Binary.foldWords?_compares hv]
      rfl
    · have hfold : Expr.foldMixed op l.fold r.fold .bool .unknown = .binary op l.fold r.fold .bool .unknown := by
        cases op <;> first | rfl | simp [Binary.compares?] at hv
      rw [hfold]
      exact hplain _ hl.word hr.word

theorem Evals.lt {f : Form} {l r : Expr} {a b : Int} (hl : Computes f c s l a) (hr : Computes f c s r b) :
    Evals f c s (l.lt r) (.bool (a < b)) := Evals.compare hl hr rfl

theorem Evals.le {f : Form} {l r : Expr} {a b : Int} (hl : Computes f c s l a) (hr : Computes f c s r b) :
    Evals f c s (l.le r) (.bool (a ≤ b)) := Evals.compare hl hr rfl

theorem Evals.gt {f : Form} {l r : Expr} {a b : Int} (hl : Computes f c s l a) (hr : Computes f c s r b) :
    Evals f c s (l.gt r) (.bool (b < a)) := Evals.compare hl hr rfl

theorem Evals.ge {f : Form} {l r : Expr} {a b : Int} (hl : Computes f c s l a) (hr : Computes f c s r b) :
    Evals f c s (l.ge r) (.bool (b ≤ a)) := Evals.compare hl hr rfl

theorem Evals.eq {f : Form} {l r : Expr} {a b : Int} (hl : Computes f c s l a) (hr : Computes f c s r b) :
    Evals f c s (l.eq r) (.bool (a = b)) := Evals.compare hl hr rfl

theorem Evals.ne {f : Form} {l r : Expr} {a b : Int} (hl : Computes f c s l a) (hr : Computes f c s r b) :
    Evals f c s (l.ne r) (.bool (a ≠ b)) := Evals.compare hl hr rfl

theorem eval_and {l r : Expr} {a b : Bool} (ty : Ty) (o : Origin) (hl : eval c s l = .ok (.bool a))
    (hr : a = true → eval c s r = .ok (.bool b)) : eval c s (.binary .and l r ty o) = .ok (.bool (a && b)) := by
  rw [eval, hl]
  cases a
  · rfl
  · change (do return Value.bool (← eval c s r).truth) = _
    rw [hr rfl]
    rfl

/-- a conjunction of truth values; the second is only asked for when the first holds -/
theorem Evals.and {f : Form} {l r : Expr} {a b : Bool} (hl : Evals f c s l (.bool a))
    (hr : a = true → Evals f c s r (.bool b)) : Evals f c s (l.and r) (.bool (a && b)) := by
  cases f
  · exact eval_and .bool .unknown hl hr
  · change eval c s (Expr.foldBinary .and l.fold r.fold .bool .unknown) = _
    have hl' : eval c s l.fold = .ok (.bool a) := hl
    have hr' : a = true → eval c s r.fold = .ok (.bool b) := hr
    generalize l.fold = x at hl'
    generalize r.fold = y at hr'
    unfold Expr.foldBinary
    split
    · cases hl'
    · unfold Expr.foldMixed
      split
      · cases hl'
        cases a
        · rfl
        · cases hr' rfl
          rfl
      · rename_i h _
        cases h
      · cases hl'
        exact hr' rfl
      · rw [hl']
        cases a
        · rfl
        · cases hr' rfl
          rfl
      · rw [if_neg (by decide)]
        exact eval_and .bool .unknown hl' hr'

end Machine

end GpuHistogram
