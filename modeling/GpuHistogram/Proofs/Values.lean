/-
Values of an element type. A value that fits a type is not changed by a cast to it. An integer that fits is determined by
its bits, so it survives the way through the unsigned type of its size (`ofBits_toBits`, `toBits_bitPattern`).
-/
import GpuHistogram.Scalar.Value
import Mathlib.Tactic.Linarith
import Mathlib.Tactic.Positivity
import Mathlib.Tactic.Zify

namespace GpuHistogram

namespace Scalar

theorem wrap_emod (s : Scalar) (v : Int) : s.wrap (v % 2 ^ s.bits) = s.wrap v := by
  unfold wrap
  split
  · have h : ((2 : Int) ^ s.bits) = ((2 ^ s.bits : ℕ) : Int) := by
      push_cast
      rfl
    rw [h]
    exact Int.emod_bmod v _
  · exact Int.emod_emod_of_dvd _ (dvd_refl _)

/-- the cast keeps the low bits -/
theorem emod_wrap (s : Scalar) (v : Int) : s.wrap v % 2 ^ s.bits = v % 2 ^ s.bits := by
  unfold wrap
  split
  · exact_mod_cast Int.bmod_emod (x := v) (m := 2 ^ s.bits)
  · exact Int.emod_emod_of_dvd _ (dvd_refl _)

theorem wrap_wrap (s : Scalar) (v : Int) : s.wrap (s.wrap v) = s.wrap v := by
  unfold wrap
  split
  · exact Int.bmod_bmod ..
  · exact Int.emod_emod_of_dvd _ (dvd_refl _)

theorem isInteger_bitPattern (s : Scalar) : s.bitPattern.isInteger = true := by
  simp [isInteger, isUnsigned_bitPattern]

end Scalar

namespace Value

/-- the value is one of the element type -/
def Fits (s : Scalar) : Value → Prop
  | .bool _ => s = .bool
  | .int x t => t = s ∧ s.isInteger = true ∧ s.wrap x = x
  | .float _ t => t = s ∧ s.isFloat = true

instance (s : Scalar) (v : Value) : Decidable (Fits s v) := by
  cases v <;> unfold Fits <;> infer_instance

/-- an integer of a type is a number in its range -/
theorem Fits.of_isInteger {s : Scalar} {v : Value} (h : Fits s v) (hs : s.isInteger = true) :
    ∃ x, v = .int x s ∧ s.wrap x = x := by
  cases v with
  | bool b =>
    cases h
    simp [Scalar.isInteger, Scalar.isSigned, Scalar.isUnsigned] at hs
  | int x t =>
    obtain ⟨rfl, -, hx⟩ := h
    exact ⟨x, rfl, hx⟩
  | float b t =>
    obtain ⟨rfl, hf⟩ := h
    cases t <;> simp [Scalar.isInteger, Scalar.isSigned, Scalar.isUnsigned, Scalar.isFloat] at hs hf

theorem Fits.convert_eq {s : Scalar} {v : Value} (h : Fits s v) : v.convert s = v := by
  cases v with
  | bool b =>
    cases h
    cases b <;> rfl
  | int x t =>
    obtain ⟨rfl, ht, hx⟩ := h
    rw [convert, ofInt_of_isInteger _ ht, hx]
  | float b t =>
    obtain ⟨rfl, -⟩ := h
    simp [convert]

theorem Fits.scalar_eq {s : Scalar} {v : Value} (h : Fits s v) : v.scalar = s := by
  rw [← h.convert_eq, scalar_convert]

/-- a value of some type is one of its own -/
theorem Fits.own {s : Scalar} {v : Value} (h : Fits s v) : Fits v.scalar v := by
  rwa [h.scalar_eq]

theorem fits_ofFloat (x : Float) (s : Scalar) : Fits s (ofFloat x s) := by
  cases s <;> first | exact rfl | exact ⟨rfl, rfl⟩ | exact ⟨rfl, rfl, Scalar.wrap_wrap _ _⟩

/-- a number cast to a type is a value of it -/
theorem fits_ofInt (v : Int) (s : Scalar) : Fits s (ofInt v s) := by
  unfold ofInt
  split_ifs with hf hb
  · exact fits_ofFloat _ s
  · cases s <;> first | rfl | cases hb
  · refine ⟨rfl, ?_, s.wrap_wrap v⟩
    have h := s.isInteger_or_isFloat (by rintro rfl; exact hb rfl)
    simpa [hf] using h

/-- a value of some type cast to another is a value of that -/
theorem Fits.convert {t : Scalar} {v : Value} (h : Fits t v) (s : Scalar) : Fits s (v.convert s) := by
  cases v with
  | bool b => exact fits_ofInt _ s
  | int x t' => exact fits_ofInt x s
  | float b t' =>
    obtain ⟨rfl, hf⟩ := h
    simp only [Value.convert]
    split_ifs with hs
    · exact ⟨rfl, hs ▸ hf⟩
    · exact fits_ofFloat _ s

theorem fits_word {a : Int} (h : Scalar.i64.wrap a = a) : Fits .i64 (.int a .i64) :=
  ⟨rfl, rfl, h⟩

/-! ## Bits -/

theorem ofBits_of_isInteger (n : ℕ) {s : Scalar} (hs : s.isInteger = true) :
    ofBits n s = ofInt (n % 2 ^ s.bits : ℕ) s := by
  cases s <;> first | rfl | simp [Scalar.isInteger, Scalar.isSigned, Scalar.isUnsigned] at hs

theorem fits_ofBits (n : ℕ) (s : Scalar) : Fits s (ofBits n s) := by
  cases s <;> first | exact fits_ofInt _ _ | exact ⟨rfl, rfl⟩

/-- the bits of an integer given by its bits -/
theorem toBits_ofBits (n : ℕ) {s : Scalar} (hs : s.isInteger = true) : (ofBits n s).toBits = n % 2 ^ s.bits := by
  rw [ofBits_of_isInteger n hs, ofInt_of_isInteger _ hs, toBits, Scalar.emod_wrap]
  push_cast
  rw [Int.emod_emod_of_dvd _ (dvd_refl _)]
  exact_mod_cast Int.toNat_natCast (n % 2 ^ s.bits)

theorem toBits_lt {s : Scalar} {v : Value} (h : Fits s v) (hs : s.isInteger = true) : v.toBits < 2 ^ s.bits := by
  obtain ⟨x, rfl, -⟩ := h.of_isInteger hs
  have h0 : (0 : Int) < 2 ^ s.bits := by positivity
  have h1 := Int.emod_lt_of_pos x h0
  have h2 := Int.emod_nonneg x h0.ne'
  simp only [toBits]
  zify
  rw [Int.toNat_of_nonneg h2]
  exact h1

/-- an integer is determined by its bits -/
theorem ofBits_toBits {s : Scalar} {v : Value} (h : Fits s v) (hs : s.isInteger = true) : ofBits v.toBits s = v := by
  have hlt := toBits_lt h hs
  obtain ⟨x, rfl, hx⟩ := h.of_isInteger hs
  rw [ofBits_of_isInteger _ hs, Nat.mod_eq_of_lt hlt, ofInt_of_isInteger _ hs]
  have hn : (((Value.int x s).toBits : ℕ) : Int) = x % 2 ^ s.bits :=
    Int.toNat_of_nonneg (Int.emod_nonneg x (by positivity))
  rw [hn, Scalar.wrap_emod, hx]

/-- only the low bits of a bit pattern count -/
theorem ofBits_mod (n : ℕ) (s : Scalar) : ofBits (n % 2 ^ s.bits) s = ofBits n s := by
  unfold ofBits
  rw [Nat.mod_mod]

/-- the way through the unsigned type of the same size leads to the value with the same bits -/
theorem ofBits_bitPattern (n : ℕ) (s : Scalar) : ofBits (ofBits n s.bitPattern).toBits s = ofBits n s := by
  have hbits : s.bitPattern.bits = s.bits := by
    simp only [Scalar.bits, Scalar.bytes_bitPattern]
  rw [toBits_ofBits _ s.isInteger_bitPattern, hbits, ofBits_mod]

theorem bitPattern_ofBits (n : ℕ) (s : Scalar) :
    ofBits (ofBits n s.bitPattern).toBits s.bitPattern = ofBits n s.bitPattern := by
  rw [toBits_ofBits _ s.isInteger_bitPattern, ofBits_mod]

/-- the bits of an integer are those of its bit pattern -/
theorem toBits_bitPattern {s : Scalar} {v : Value} (h : Fits s v) (hs : s.isInteger = true) :
    (ofBits v.toBits s.bitPattern).toBits = v.toBits := by
  have hbits : s.bitPattern.bits = s.bits := by
    simp only [Scalar.bits, Scalar.bytes_bitPattern]
  rw [toBits_ofBits _ s.isInteger_bitPattern, hbits, Nat.mod_eq_of_lt (toBits_lt h hs)]

/-- two integers of a type with the same bit pattern are equal -/
theorem eq_of_bitPattern {s : Scalar} {v w : Value} (hv : Fits s v) (hw : Fits s w) (hs : s.isInteger = true)
    (h : ofBits v.toBits s.bitPattern = ofBits w.toBits s.bitPattern) : v = w := by
  rw [← ofBits_toBits hv hs, ← ofBits_toBits hw hs, ← toBits_bitPattern hv hs, h, toBits_bitPattern hw hs]

end Value

end GpuHistogram
