/-
Scalar values. An integer is kept in the range of its element type, so that signed and unsigned integers of 64 bits
compare as numbers, and a float is kept as the bit pattern of its own format. `ofInt` and `ofFloat` build a value of an
element type from any number, with the meaning of a cast; `toBits` and `ofBits` go to the bit pattern and back.
-/
import GpuHistogram.Scalar.Basic
import GpuHistogram.Scalar.Decimal

namespace GpuHistogram

-- powers of numbers are those of the core library, also beside a library with its own
attribute [local instance (2000)] instPowNat instNatPowNat Int.instNatPow

/-- a scalar value with its element type -/
inductive Value where
  | bool (b : Bool)
  | int (v : Int) (s : Scalar)
  | float (bits : UInt64) (s : Scalar)
  deriving DecidableEq, Inhabited

/-- the number in the range of an integer type that agrees with `v` in its low bits -/
def Scalar.wrap (s : Scalar) (v : Int) : Int :=
  if s.isSigned then v.bmod (2 ^ s.bits) else v % 2 ^ s.bits

namespace Value

/-- a float cast to an element type -/
def ofFloat (x : Float) (s : Scalar) : Value :=
  match s with
  | .f32 => .float x.toFloat32.toBits.toUInt64 s
  | .f64 => .float x.toBits s
  | .bool => .bool (x != 0)
  | _ => .int (s.wrap (Binary64.toInt 128 x)) s

/-- an integer cast to an element type -/
def ofInt (v : Int) (s : Scalar) : Value :=
  if s.isFloat then ofFloat (Binary64.ofInt v) s
  else if s.isBool then .bool (v ≠ 0)
  else .int (s.wrap v) s

/-- what new memory holds -/
def zero (s : Scalar) : Value :=
  ofInt 0 s

/-- the element type of a value -/
def scalar : Value → Scalar
  | .bool _ => .bool
  | .int _ s => s
  | .float _ s => s

/-- a truth value as a number -/
def ofBool (b : Bool) : Int :=
  if b then 1 else 0

/-- the double that a bit pattern of a format stands for -/
def floatOfBits (bits : UInt64) (s : Scalar) : Float :=
  if s = .f32 then (Float32.ofBits bits.toUInt32).toFloat else Float.ofBits bits

/-- a value as a signed integer of 64 bits -/
def toInt64 : Value → Int
  | .bool b => ofBool b
  | .int v _ => v.bmod (2 ^ (64 : Nat))
  | .float b s => Binary64.toInt 64 (floatOfBits b s)

/-- a value as a double -/
def toFloat : Value → Float
  | .bool b => if b then 1 else 0
  | .int v _ => Binary64.ofInt v
  | .float b s => floatOfBits b s

/-- whether a value counts as true -/
def truth : Value → Bool
  | .bool b => b
  | .int v _ => v ≠ 0
  | .float b s => floatOfBits b s != 0

/-- a value cast to another element type -/
def convert (v : Value) (s : Scalar) : Value :=
  match v with
  | .bool b => ofInt (ofBool b) s
  | .int v _ => ofInt v s
  | .float b t => if t = s then .float b s else ofFloat (floatOfBits b t) s

/-- the bit pattern of a value -/
def toBits : Value → Nat
  | .bool b => if b then 1 else 0
  | .int v s => (v % 2 ^ s.bits).toNat
  | .float b _ => b.toNat

/-- the value of an element type with a given bit pattern, of which only the low bits count -/
def ofBits (bits : Nat) (s : Scalar) : Value :=
  match s with
  | .f32 | .f64 => .float (bits % 2 ^ s.bits).toUInt64 s
  | _ => ofInt (bits % 2 ^ s.bits : Nat) s

/-- whether two values of one element type are equal as numbers: the two zeros are, and NaN differs from itself -/
def agrees : Value → Value → Bool
  | .bool a, .bool b => a = b
  | .int a s, .int b t => a = b && s = t
  | .float a s, .float b t => floatOfBits a s == floatOfBits b t && s = t
  | _, _ => false

/-- the text of a value in messages: the number followed by its element type -/
def text : Value → String
  | .bool b => toString b
  | .int v s => toString v ++ s.text
  | .float b s => Decimal.Style.plain.text (floatOfBits b s) ++ s.text

@[simp] theorem scalar_bool (b : Bool) : (Value.bool b).scalar = .bool := rfl

@[simp] theorem scalar_int (v : Int) (s : Scalar) : (Value.int v s).scalar = s := rfl

@[simp] theorem scalar_float (b : UInt64) (s : Scalar) : (Value.float b s).scalar = s := rfl

@[simp] theorem scalar_ofFloat (x : Float) (s : Scalar) : (ofFloat x s).scalar = s := by
  cases s <;> rfl

@[simp] theorem scalar_ofInt (v : Int) (s : Scalar) : (ofInt v s).scalar = s := by
  cases s <;> simp [ofInt, Scalar.isFloat, Scalar.isBool]

@[simp] theorem scalar_convert (v : Value) (s : Scalar) : (v.convert s).scalar = s := by
  cases v with
  | bool b => simp [convert]
  | int v t => simp [convert]
  | float b t =>
    by_cases h : t = s <;> simp [convert, h]

theorem scalar_ofBits (bits : Nat) (s : Scalar) : (ofBits bits s).scalar = s := by
  cases s <;> simp [ofBits]

theorem ofInt_of_isInteger (v : Int) {s : Scalar} (h : s.isInteger = true) : ofInt v s = .int (s.wrap v) s := by
  cases s <;> simp_all [ofInt, Scalar.isInteger, Scalar.isSigned, Scalar.isUnsigned, Scalar.isFloat, Scalar.isBool]

end Value

end GpuHistogram
