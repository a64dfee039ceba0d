/-
Integer arithmetic of the machine, against the integers. Values are computed in signed words of 128 bits and then cast to
their type; the cast moves the low bits of the word up and back down, or masks them.

Model: `Scalar.range` is the range of a type, and `s.Represents n w` says that `w` is the number of the type `s` with the
low bits of the integer `n`. `Unary.integer?` and `Binary.integer?` are the operators on integers without bounds; the
bitwise ones work on two's complement without end.

Results, for every integer type:
- `represents_iff`: every integer has exactly one representative, and it is what the cast gives;
- `wrap_eq_extend`: the cast is the pair of shifts, or the mask, on words of 128 bits;
- `Binary.eval_integer`, `Unary.eval_integer`: an operator gives the representative of its result on integers, also where
  a product is too large for 128 bits;
- `arithmetic_modulo`: all of it together, with the one way in which an operator fails.
-/
import GpuHistogram.Proofs.Values
import GpuHistogram.Proofs.Words
import Mathlib.Data.Int.Bitwise
import Mathlib.Data.Int.ModEq

namespace GpuHistogram

/-! ## Representatives -/

namespace Scalar

/-- the numbers of an integer type -/
def range (s : Scalar) : Set Int :=
  if s.isSigned then {n | -(2 ^ (s.bits - 1)) ≤ n ∧ n < 2 ^ (s.bits - 1)} else {n | 0 ≤ n ∧ n < 2 ^ s.bits}

/-- `w` is the number of the type that agrees with `n` in the low bits -/
structure Represents (s : Scalar) (n w : Int) : Prop where
  mem : w ∈ s.range
  congr : w ≡ n [ZMOD 2 ^ s.bits]

variable {s : Scalar} {n w : Int}

theorem wrap_mem_range (hs : s.isInteger = true) (n : Int) : s.wrap n ∈ s.range := by
  have hbmod (k : ℕ) : -(2 ^ k) ≤ n.bmod (2 ^ (k + 1)) ∧ n.bmod (2 ^ (k + 1)) < 2 ^ k := by
    have hpos : 0 < 2 ^ (k + 1) := by positivity
    have hle := Int.le_bmod (x := n) hpos
    have hlt := Int.bmod_lt (x := n) hpos
    rw [pow_succ] at hle hlt ⊢
    push_cast at hle hlt
    omega
  have hmod (k : ℕ) : 0 ≤ n % 2 ^ k ∧ n % 2 ^ k < 2 ^ k :=
    ⟨Int.emod_nonneg n (by positivity), Int.emod_lt_of_pos n (by positivity)⟩
  cases s <;> first | exact absurd hs (by decide) | exact hbmod _ | exact hmod _

theorem wrap_congr (s : Scalar) (n : Int) : s.wrap n ≡ n [ZMOD 2 ^ s.bits] := s.emod_wrap n

/-- the cast looks at the low bits only -/
theorem wrap_eq_of_congr {v : Int} (s : Scalar) (h : v ≡ n [ZMOD 2 ^ s.bits]) : s.wrap v = s.wrap n := by
  rw [← s.wrap_emod v, h, s.wrap_emod]

/-- a number of the type is not changed by the cast -/
theorem wrap_of_mem (hs : s.isInteger = true) (h : w ∈ s.range) : s.wrap w = w := by
  cases s <;> first
    | exact absurd hs (by decide)
    | exact Int.bmod_eq_of_le h.1 h.2
    | exact Int.emod_eq_of_lt h.1 h.2

/-- the numbers of the type are those that the cast leaves alone -/
theorem wrap_eq_self_iff (hs : s.isInteger = true) : s.wrap w = w ↔ w ∈ s.range :=
  ⟨fun h => h ▸ wrap_mem_range hs w, wrap_of_mem hs⟩

/-- every integer has one representative, the one the cast gives -/
theorem represents_iff (hs : s.isInteger = true) : s.Represents n w ↔ w = s.wrap n := by
  constructor
  · intro h
    rw [← wrap_of_mem hs h.mem, s.wrap_eq_of_congr h.congr]
  · rintro rfl
    exact ⟨wrap_mem_range hs n, s.wrap_congr n⟩

end Scalar

/-! ## Words of 128 bits -/

/-- the bits of a word are those of the integer -/
theorem getLsbD_ofInt (n : Int) {k : ℕ} (hk : k < 128) : (BitVec.ofInt 128 n).getLsbD k = n.testBit k := by
  cases n with
  | ofNat m =>
    rw [Int.ofNat_eq_natCast, BitVec.ofInt_natCast, BitVec.getLsbD_ofNat, decide_eq_true hk, Bool.true_and]
    rfl
  | negSucc m =>
    rw [BitVec.ofInt_negSucc_eq_not_ofNat, BitVec.getLsbD_not, BitVec.getLsbD_ofNat, decide_eq_true hk, Bool.true_and,
      Bool.true_and]
    rfl

/-- an operator that works bit by bit gives the low bits of its result on integers -/
theorem wideBits_congr {f : BitVec 128 → BitVec 128 → BitVec 128} {g : Int → Int → Int} {b : Bool → Bool → Bool}
    (hf : ∀ x y k, (f x y).getLsbD k = b (x.getLsbD k) (y.getLsbD k))
    (hg : ∀ m n k, (g m n).testBit k = b (m.testBit k) (n.testBit k)) (l r : Int) :
    wideBits f l r ≡ g l r [ZMOD 2 ^ 128] := by
  have hword : f (BitVec.ofInt 128 l) (BitVec.ofInt 128 r) = BitVec.ofInt 128 (g l r) := by
    apply BitVec.eq_of_getLsbD_eq
    intro k hk
    rw [hf, getLsbD_ofInt _ hk, getLsbD_ofInt _ hk, getLsbD_ofInt _ hk, hg]
  rw [wideBits, hword, BitVec.toInt_ofInt]
  exact Int.bmod_emod

theorem wideWord_congr (n : Int) : wideWord n ≡ n [ZMOD 2 ^ 128] := Int.bmod_emod

/-- what has the low bits of `n` in 128 bits is cast to the representative of `n` -/
theorem Scalar.wrap_of_wide (s : Scalar) {v n : Int} (h : v ≡ n [ZMOD 2 ^ 128]) : s.wrap v = s.wrap n := by
  apply s.wrap_eq_of_congr
  apply h.of_dvd
  apply pow_dvd_pow
  cases s <;> decide

theorem bmod_congr {a b : Int} {m : ℕ} (h : a ≡ b [ZMOD m]) : a.bmod m = b.bmod m := by
  rw [← Int.emod_bmod a, h, Int.emod_bmod]

/-- a number moved up by `k` and cut off keeps its low part above those `k` places -/
theorem bmod_mul_div (n : Int) {k h : ℕ} (hk : 0 < k) (hh : 0 < h) :
    (n * k).bmod (2 * h * k) / k = n.bmod (2 * h) := by
  have hpos : 0 < 2 * h := by omega
  have hkz : (0 : Int) < k := by exact_mod_cast hk
  have hlow := Int.le_bmod (x := n) hpos
  have hhigh := Int.bmod_lt (x := n) hpos
  have hcongr : n * k ≡ n.bmod (2 * h) * k [ZMOD (2 * h * k : ℕ)] := by
    rw [Nat.cast_mul (2 * h)]
    exact (Int.ModEq.symm Int.bmod_emod).mul_right'
  rw [bmod_congr hcongr, Int.bmod_eq_of_le, Int.mul_ediv_cancel _ hkz.ne']
  · have hle : -(h : Int) * k ≤ n.bmod (2 * h) * k := Int.mul_le_mul_of_nonneg_right (by omega) hkz.le
    have hneg : -(h : Int) * k = -(h * k) := by ring
    have hhalf : ((2 * h * k : ℕ) : Int) = 2 * (h * k) := by
      push_cast
      ring
    omega
  · have hlt : n.bmod (2 * h) * k < (h : Int) * k := Int.mul_lt_mul_of_pos_right (by omega) hkz
    have hhalf : ((2 * h * k : ℕ) : Int) = 2 * (h * k) := by
      push_cast
      ring
    omega

theorem toNat_ofInt_congr (v : Int) : ((BitVec.ofInt 128 v).toNat : Int) ≡ v [ZMOD 2 ^ 128] := by
  rw [BitVec.toNat_ofInt, Int.toNat_of_nonneg (Int.emod_nonneg _ (by decide))]
  exact_mod_cast Int.mod_modEq v _

/-- up by `k` places and back down with the sign is the remainder by what is left, with its sign -/
theorem sshiftRight_shiftLeft (v : Int) {k b : ℕ} (hb : 0 < b) (h : b + k = 128) :
    (BitVec.sshiftRight (BitVec.ofInt 128 v <<< k) k).toInt = v.bmod (2 ^ b) := by
  have hhalf : 2 * 2 ^ (b - 1) = 2 ^ b := by
    rw [← pow_succ']
    congr 1
    omega
  have hpow : 2 ^ 128 = 2 * 2 ^ (b - 1) * 2 ^ k := by
    rw [hhalf, ← pow_add, h]
  rw [BitVec.toInt_sshiftRight, BitVec.toInt_shiftLeft, Int.shiftRight_eq_div_pow, Nat.shiftLeft_eq, Nat.cast_mul, hpow,
    bmod_mul_div _ (by positivity) (by positivity), hhalf]
  apply bmod_congr
  apply (toNat_ofInt_congr v).of_dvd
  exact_mod_cast pow_dvd_pow 2 (show b ≤ 128 by omega)

/-- a mask of ones below the sign leaves the remainder -/
theorem wideBits_mask (v : Int) {b : ℕ} (hb : b < 127) : wideBits (· &&& ·) v (2 ^ b - 1) = v % 2 ^ b := by
  have hpow : 2 ^ b ≤ 2 ^ 126 := Nat.pow_le_pow_right (by decide) (by omega)
  have hmask : (BitVec.ofInt 128 (2 ^ b - 1)).toNat = 2 ^ b - 1 := by
    have hcast : ((2 : Int) ^ b - 1) = ((2 ^ b - 1 : ℕ) : Int) := by
      rw [Nat.cast_sub Nat.one_le_two_pow]
      push_cast
      rfl
    rw [hcast, BitVec.ofInt_natCast, BitVec.toNat_ofNat, Nat.mod_eq_of_lt]
    omega
  have hbits : (BitVec.ofInt 128 v &&& BitVec.ofInt 128 (2 ^ b - 1)).toNat = (BitVec.ofInt 128 v).toNat % 2 ^ b := by
    rw [BitVec.toNat_and, hmask, Nat.and_two_pow_sub_one_eq_mod]
  have hlt := Nat.mod_lt (BitVec.ofInt 128 v).toNat (show 0 < 2 ^ b by positivity)
  unfold wideBits
  rw [BitVec.toInt_eq_toNat_of_lt (by rw [hbits]; omega), hbits]
  push_cast
  exact (toNat_ofInt_congr v).of_dvd (pow_dvd_pow 2 (by omega))

/-- the low bits of a wide word, moved up and back down with the sign of the type, or masked -/
def Scalar.extend (s : Scalar) (v : Int) : Int :=
  if s.isSigned then (BitVec.sshiftRight (BitVec.ofInt 128 v <<< (128 - s.bits)) (128 - s.bits)).toInt
  else wideBits (· &&& ·) v (2 ^ s.bits - 1)

/-- the cast is done by shifts and masks -/
theorem Scalar.wrap_eq_extend (s : Scalar) (v : Int) : s.wrap v = s.extend v := by
  have hbits : 0 < s.bits ∧ s.bits ≤ 64 := by
    cases s <;> decide
  unfold wrap extend
  split_ifs
  · exact (sshiftRight_shiftLeft v hbits.1 (by omega)).symm
  · exact (wideBits_mask v (by omega)).symm

/-! ## The operators -/

theorem lnot_eq (a : Int) : a.lnot = -a - 1 := by
  cases a <;> simp only [Int.lnot, Int.ofNat_eq_natCast] <;> omega

/-- the operator on integers without bounds -/
def Unary.integer? (op : Unary) (a : Int) : Option Int :=
  match op with
  | neg => some (-a)
  | bitNeg => some a.lnot
  | abs => some |a|
  | _ => none

/-- the operator on integers without bounds; none for a division by zero -/
def Binary.integer? (op : Binary) (a b : Int) : Option Int :=
  match op with
  | bitAnd => some (a.land b)
  | bitOr => some (a.lor b)
  | bitXor => some (a.xor b)
  | min => some (Min.min a b)
  | op => op.number? a b

section

variable {s : Scalar} (hs : s.isInteger = true)
include hs

theorem Unary.eval_integer {op : Unary} {a n : Int} (h : op.integer? a = some n) :
    op.eval (.int a s) s = .ok (.int (s.wrap n) s) := by
  cases op <;> simp only [integer?, reduceCtorEq, Option.some.injEq] at h <;> subst h
  case neg => rw [eval, Value.ofInt_of_isInteger _ hs]
  case bitNeg =>
    rw [eval, Value.ofInt_of_isInteger _ hs, lnot_eq]
  case abs => rw [eval, Value.ofInt_of_isInteger _ hs, Int.natCast_natAbs]

/-- the operator on integers, then the cast: this also holds where the result is too large for 128 bits -/
theorem Binary.eval_integer {op : Binary} {a b n : Int} (h : op.integer? a b = some n) :
    op.eval (.int a s) (.int b s) s = .ok (.int (s.wrap n) s) := by
  have hwide (m : Int) : Value.ofInt (wideWord m) s = .int (s.wrap m) s := by
    rw [Value.ofInt_of_isInteger _ hs, s.wrap_of_wide (wideWord_congr m)]
  cases op <;> simp only [integer?, number?, reduceCtorEq, Option.some.injEq] at h
  case div | rem =>
    split_ifs at h with hb
    cases h
    simp only [eval, evalInt, operand, hb, if_false, hwide]
  case bitAnd =>
    subst h
    have hbits : wideBits (· &&& ·) a b ≡ a.land b [ZMOD 2 ^ 128] :=
      wideBits_congr (fun _ _ _ => BitVec.getLsbD_and) Int.testBit_land a b
    simp only [eval, evalInt, operand, Value.ofInt_of_isInteger _ hs, s.wrap_of_wide hbits]
  case bitOr =>
    subst h
    have hbits : wideBits (· ||| ·) a b ≡ a.lor b [ZMOD 2 ^ 128] :=
      wideBits_congr (fun _ _ _ => BitVec.getLsbD_or) Int.testBit_lor a b
    simp only [eval, evalInt, operand, Value.ofInt_of_isInteger _ hs, s.wrap_of_wide hbits]
  case bitXor =>
    subst h
    have hbits : wideBits (· ^^^ ·) a b ≡ a.xor b [ZMOD 2 ^ 128] :=
      wideBits_congr (fun _ _ _ => BitVec.getLsbD_xor) Int.testBit_lxor a b
    simp only [eval, evalInt, operand, Value.ofInt_of_isInteger _ hs, s.wrap_of_wide hbits]
  case max =>
    have hmax : (if a < b then b else a) = n := by
      split_ifs <;> omega
    change Except.ok (Value.ofInt (if a < b then b else a) s) = _
    rw [hmax, Value.ofInt_of_isInteger _ hs]
  case min =>
    have hmin : (if b < a then b else a) = n := by
      split_ifs <;> omega
    change Except.ok (Value.ofInt (if b < a then b else a) s) = _
    rw [hmin, Value.ofInt_of_isInteger _ hs]
  all_goals
    subst h
    simp only [eval, evalInt, operand, hwide]

end

/-- a comparison of integers is the comparison of the numbers, whatever the type of the result -/
theorem Binary.eval_compare {op : Binary} {a b : Int} {r : Bool} (h : op.compares? a b = some r) (s t u : Scalar) :
    op.eval (.int a s) (.int b t) u = .ok (.bool r) := by
  cases op <;> simp only [compares?, reduceCtorEq, Option.some.injEq] at h <;> subst h <;> rfl

/-- an operator on integers fails for a divisor of zero, and for no other reason -/
theorem Binary.eval_error_iff (op : Binary) (a b : Int) (s t u : Scalar) (e : ArithmeticError) :
    op.eval (.int a s) (.int b t) u = .error e ↔ (op = .div ∨ op = .rem) ∧ b = 0 ∧ e = .divisionByZero := by
  cases op <;> simp only [eval, evalInt, operand, reduceCtorEq, false_or, or_false, false_and, true_and, or_self]
  all_goals
    split_ifs with hb <;> simp [hb, eq_comm]

/-! ## Values in the range of their type -/

/-- the values of an integer type are the numbers in its range -/
theorem Value.fits_int_iff {s : Scalar} {a : Int} : Value.Fits s (.int a s) ↔ s.isInteger = true ∧ a ∈ s.range := by
  constructor
  · rintro ⟨-, hs, ha⟩
    exact ⟨hs, ha ▸ Scalar.wrap_mem_range hs a⟩
  · rintro ⟨hs, ha⟩
    exact ⟨rfl, hs, Scalar.wrap_of_mem hs ha⟩

theorem Scalar.bounds_of_mem {s : Scalar} {a : Int} (h : a ∈ s.range) : -(2 ^ 63) ≤ a ∧ a < 2 ^ 64 := by
  have hbits : s.bits ≤ 64 := by
    cases s <;> decide
  unfold range at h
  split_ifs at h <;> obtain ⟨hl, hr⟩ := h
  · have hle : (2 : Int) ^ (s.bits - 1) ≤ 2 ^ 63 := pow_le_pow_right₀ (by decide) (by omega)
    omega
  · have hle : (2 : Int) ^ s.bits ≤ 2 ^ 64 := pow_le_pow_right₀ (by decide) hbits
    omega

/-- an operator of one operand does not leave the words of 128 bits -/
theorem Unary.wideWord_integer {op : Unary} {s : Scalar} {a n : Int} (ha : a ∈ s.range) (h : op.integer? a = some n) :
    wideWord n = n := by
  have hbounds := Scalar.bounds_of_mem ha
  have hn : -(2 ^ 64) ≤ n ∧ n ≤ 2 ^ 64 := by
    cases op <;> simp only [integer?, reduceCtorEq, Option.some.injEq] at h <;> subst h
    case neg => omega
    case bitNeg =>
      rw [lnot_eq]
      omega
    case abs =>
      have hle : |a| ≤ 2 ^ 64 := abs_le.mpr (by omega)
      have hnonneg := abs_nonneg a
      omega
  exact Int.bmod_eq_of_le (by omega) (by omega)

/-- the result is the one number of the type that represents `n` -/
def Scalar.Yields (s : Scalar) (n : Int) (r : Arithmetic) : Prop :=
  ∃ w, r = .ok (.int w s) ∧ ∀ v, s.Represents n v ↔ v = w

theorem Scalar.yields_wrap {s : Scalar} (hs : s.isInteger = true) (n : Int) : s.Yields n (.ok (.int (s.wrap n) s)) :=
  ⟨_, rfl, fun _ => represents_iff hs⟩

/-- Integer arithmetic is arithmetic modulo the size of the type. On two numbers of a type, an operator gives the one
number of the type that agrees with the result on integers in its low bits, and fails only for a divisor of zero; a
comparison is that of the integers, and so are the larger and the smaller of both. The cast is done by shifts and masks
on words of 128 bits, and a number cast to another integer type keeps the low bits that both types have. -/
theorem arithmetic_modulo {s : Scalar} (hs : s.isInteger = true) {a b : Int} (ha : a ∈ s.range) (hb : b ∈ s.range) :
    (∀ (op : Unary) n, op.integer? a = some n → wideWord n = n ∧ s.Yields n (op.eval (.int a s) s)) ∧
    (∀ (op : Binary) n, op.integer? a b = some n → s.Yields n (op.eval (.int a s) (.int b s) s)) ∧
    (∀ (op : Binary) e, op.eval (.int a s) (.int b s) s = .error e ↔
      (op = .div ∨ op = .rem) ∧ b = 0 ∧ e = .divisionByZero) ∧
    Binary.max.eval (.int a s) (.int b s) s = .ok (.int (max a b) s) ∧
    Binary.min.eval (.int a s) (.int b s) s = .ok (.int (min a b) s) ∧
    (∀ (op : Binary) r t, op.compares? a b = some r → op.eval (.int a s) (.int b s) t = .ok (.bool r)) ∧
    (∀ n, Value.ofInt n s = .int (s.extend n) s) ∧
    ∀ t : Scalar, t.isInteger = true →
      t.Yields a (.ok ((Value.int a s).convert t)) ∧
      ∀ w, (Value.int a s).convert t = .int w t → w ≡ a [ZMOD 2 ^ min s.bits t.bits] := by
  have hconvert (t : Scalar) (ht : t.isInteger = true) : (Value.int a s).convert t = .int (t.wrap a) t :=
    Value.ofInt_of_isInteger a ht
  have hmem : max a b ∈ s.range ∧ min a b ∈ s.range := by
    constructor
    · rcases max_choice a b with h | h <;> rwa [h]
    · rcases min_choice a b with h | h <;> rwa [h]
  refine ⟨fun op n h => ⟨Unary.wideWord_integer ha h, ?_⟩, fun op n h => ?_, fun op e => op.eval_error_iff a b s s s e,
    ?_, ?_, fun op r t h => Binary.eval_compare h s s t, fun n => ?_, fun t ht => ⟨?_, fun w hw => ?_⟩⟩
  · rw [Unary.eval_integer hs h]
    exact Scalar.yields_wrap hs n
  · rw [Binary.eval_integer hs h]
    exact Scalar.yields_wrap hs n
  · have hmax : Binary.max.integer? a b = some (max a b) := rfl
    rw [Binary.eval_integer hs hmax, Scalar.wrap_of_mem hs hmem.1]
  · have hmin : Binary.min.integer? a b = some (min a b) := rfl
    rw [Binary.eval_integer hs hmin, Scalar.wrap_of_mem hs hmem.2]
  · rw [Value.ofInt_of_isInteger _ hs, s.wrap_eq_extend]
  · rw [hconvert t ht]
    exact Scalar.yields_wrap ht a
  · rw [hconvert t ht] at hw
    cases hw
    exact (t.wrap_congr a).of_dvd (pow_dvd_pow 2 (min_le_right s.bits t.bits))

/-- the least number divided by -1 wraps around to itself, and the largest product of unsigned words to 1 -/
theorem arithmetic_modulo_extremes :
    (-128 ∈ Scalar.i8.range ∧ -1 ∈ Scalar.i8.range ∧
      Scalar.i8.Yields 128 (Binary.div.eval (.int (-128) .i8) (.int (-1) .i8) .i8)) ∧
    (2 ^ 64 - 1 ∈ Scalar.u64.range ∧
      Scalar.u64.Yields ((2 ^ 64 - 1) * (2 ^ 64 - 1))
        (Binary.mul.eval (.int (2 ^ 64 - 1) .u64) (.int (2 ^ 64 - 1) .u64) .u64)) := by
  have hleast : -128 ∈ Scalar.i8.range := ⟨by decide, by decide⟩
  have hminus : -1 ∈ Scalar.i8.range := ⟨by decide, by decide⟩
  have hmost : 2 ^ 64 - 1 ∈ Scalar.u64.range := ⟨by decide, by decide⟩
  exact ⟨⟨hleast, hminus, (arithmetic_modulo rfl hleast hminus).2.1 .div 128 rfl⟩, hmost,
    (arithmetic_modulo rfl hmost hmost).2.1 .mul _ rfl⟩

end GpuHistogram
