/-
Signed words of 64 bits inside the integers: which numbers are words, and what becomes of a result that is none. It is
dropped (`checked?`), replaced by the nearest word (`saturate`), or reduced to the word with the same low bits (`wrap`).
-/
namespace GpuHistogram.Word64

-- powers of numbers are those of the core library, also beside a library with its own
attribute [local instance (2000)] instPowNat instNatPowNat Int.instNatPow

/-- the least word -/
def least : Int := -(2 ^ (63 : Nat))

/-- the greatest word -/
def greatest : Int := 2 ^ (63 : Nat) - 1

/-- whether a number is a word -/
def fits (v : Int) : Bool := least ≤ v && v ≤ greatest

/-- the number, if it is a word -/
def checked? (v : Int) : Option Int := if fits v then some v else none

/-- the nearest word -/
def saturate (v : Int) : Int := max least (min v greatest)

/-- the word with the same low bits -/
def wrap (v : Int) : Int := v.bmod (2 ^ (64 : Nat))

/-- a bitwise operator on words -/
def bitwise (f : BitVec 64 → BitVec 64 → BitVec 64) (l r : Int) : Int :=
  (f (BitVec.ofInt 64 l) (BitVec.ofInt 64 r)).toInt

theorem fits_iff {v : Int} : fits v = true ↔ -(2 ^ (63 : Nat)) ≤ v ∧ v < 2 ^ (63 : Nat) := by
  unfold fits least greatest
  rw [Bool.and_eq_true, decide_eq_true_iff, decide_eq_true_iff]
  omega

theorem checked?_eq_some {v w : Int} : checked? v = some w ↔ fits v = true ∧ v = w := by
  unfold checked?
  split <;> simp_all

theorem fits_saturate (v : Int) : fits (saturate v) = true := by
  rw [fits_iff]
  unfold saturate least greatest
  omega

theorem saturate_of_fits {v : Int} (h : fits v = true) : saturate v = v := by
  rw [fits_iff] at h
  unfold saturate least greatest
  omega

theorem fits_wrap (v : Int) : fits (wrap v) = true := by
  rw [fits_iff]
  have h1 : -(((2 ^ (64 : Nat) : Nat) : Int) / 2) ≤ v.bmod (2 ^ (64 : Nat)) := Int.le_bmod (by decide)
  have h2 : v.bmod (2 ^ (64 : Nat)) < (((2 ^ (64 : Nat) : Nat) : Int) + 1) / 2 := Int.bmod_lt (by decide)
  unfold wrap
  omega

theorem wrap_of_fits {v : Int} (h : fits v = true) : wrap v = v := by
  rw [fits_iff] at h
  unfold wrap
  exact Int.bmod_eq_of_le (by omega) (by omega)

end GpuHistogram.Word64
