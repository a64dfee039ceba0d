/-
Doubles as exact numbers. A finite double is a mantissa times a power of two with a sign; `decode?` reads these off the
bit pattern. On them rest the conversions between doubles and integers of any size and the remainder of two doubles,
each computed in exact integer arithmetic and rounded once at the end.
-/
namespace GpuHistogram

-- powers of numbers are those of the core library, also beside a library with its own
attribute [local instance (2000)] instPowNat instNatPowNat Int.instNatPow

/-- the number `mantissa * 2 ^ exponent`, negated if `negative` -/
structure Binary64 where
  negative : Bool
  mantissa : Nat
  exponent : Int
  deriving DecidableEq, Inhabited

namespace Binary64

/-- the stored exponent and fraction of a bit pattern -/
def fields (bits : Nat) : Nat × Nat :=
  (bits / 2 ^ (52 : Nat) % 2 ^ (11 : Nat), bits % 2 ^ (52 : Nat))

/-- the number a bit pattern stands for, none for infinities and NaN -/
def ofBits? (bits : Nat) : Option Binary64 :=
  let (stored, fraction) := fields bits
  let negative := bits / 2 ^ (63 : Nat) % 2 = 1
  if stored = 2047 then none
  else if stored = 0 then some ⟨negative, fraction, -1074⟩
  else some ⟨negative, 2 ^ (52 : Nat) + fraction, (stored : Int) - 1075⟩

/-- the number a double stands for, none for infinities and NaN -/
def decode? (x : Float) : Option Binary64 :=
  ofBits? x.toBits.toNat

/-- the absolute value rounded towards zero -/
def wholePart (b : Binary64) : Nat :=
  if 0 ≤ b.exponent then b.mantissa * 2 ^ b.exponent.toNat else b.mantissa / 2 ^ (-b.exponent).toNat

/-- rounding towards zero -/
def truncate (b : Binary64) : Int :=
  if b.negative then -(b.wholePart : Int) else b.wholePart

/-- the nearest number to `v` among the signed integers of the given width -/
def clamp (width : Nat) (v : Int) : Int :=
  max (-(2 ^ (width - 1))) (min v (2 ^ (width - 1) - 1))

/-- rounding towards zero into the signed integers of the given width: too large goes to the nearest end, NaN to 0 -/
def toInt (width : Nat) (x : Float) : Int :=
  match decode? x with
  | some b => clamp width b.truncate
  | none => if x.isNaN then 0 else if x < 0 then -(2 ^ (width - 1)) else 2 ^ (width - 1) - 1

/-- the double nearest to a natural number: beyond 64 bits, the bits cut off leave a one behind if any was set, so that
the final rounding sees on which side of a tie the number lies -/
def ofNat (n : Nat) : Float :=
  if n < 2 ^ (64 : Nat) then n.toUInt64.toFloat
  else
    let cut := n.log2 - 63
    let sticky := if n % 2 ^ cut = 0 then 0 else 1
    (n / 2 ^ cut ||| sticky).toUInt64.toFloat.scaleB cut

/-- the double nearest to an integer -/
def ofInt (v : Int) : Float :=
  if v < 0 then -(ofNat v.natAbs) else ofNat v.natAbs

/-- the remainder of two finite numbers over their smaller power of two, with the sign of the first -/
def remParts (a b : Binary64) : Binary64 :=
  let e := min a.exponent b.exponent
  let m := a.mantissa * 2 ^ (a.exponent - e).toNat % (b.mantissa * 2 ^ (b.exponent - e).toNat)
  ⟨a.negative, m, e⟩

/-- the double of an exactly representable number -/
def encode (b : Binary64) : Float :=
  let x := (ofNat b.mantissa).scaleB b.exponent
  if b.negative then -x else x

/-- the remainder of the quotient rounded towards zero, with the sign of the dividend -/
def rem (x y : Float) : Float :=
  match decode? x, decode? y with
  | some a, some b =>
    if b.mantissa = 0 then 0.0 / 0.0 else if a.mantissa = 0 then x else encode (remParts a b)
  | some _, none => if y.isNaN then y else x
  | none, _ => 0.0 / 0.0

/-- the larger of two doubles; a NaN gives way to the other operand, and of equal operands the first is kept -/
def maximum (x y : Float) : Float :=
  if x.isNaN then y else if x < y then y else x

/-- the smaller of two doubles; a NaN gives way to the other operand, and of equal operands the first is kept -/
def minimum (x y : Float) : Float :=
  if x.isNaN then y else if y < x then y else x

theorem clamp_of_mem {width : Nat} {v : Int} (hl : -(2 ^ (width - 1)) ≤ v) (hr : v < 2 ^ (width - 1)) :
    clamp width v = v := by
  unfold clamp
  omega

theorem clamp_bounds {width : Nat} (v : Int) :
    -(2 ^ (width - 1)) ≤ clamp width v ∧ clamp width v < 2 ^ (width - 1) := by
  have h : (0 : Int) < 2 ^ (width - 1) := Int.pow_pos (by decide)
  unfold clamp
  omega

theorem remParts_lt (a b : Binary64) (h : 0 < b.mantissa) :
    (remParts a b).mantissa < b.mantissa * 2 ^ (b.exponent - min a.exponent b.exponent).toNat :=
  Nat.mod_lt _ (Nat.mul_pos h (Nat.two_pow_pos _))

end Binary64

end GpuHistogram
