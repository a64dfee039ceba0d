/-
The operators on values. The element type of the result is given from outside. Integers are computed in signed words of
128 bits, wide enough that every operator but the product of large unsigned words and the left shift is exact, and then
cast to the result type. Comparisons and the logical operators give truth values whatever the result type.
-/
import GpuHistogram.Scalar.Operator
import GpuHistogram.Scalar.Value

namespace GpuHistogram

-- powers of numbers are those of the core library, also beside a library with its own
attribute [local instance (2000)] instPowNat instNatPowNat Int.instNatPow

/-- why an operator gave no value -/
inductive ArithmeticError where
  | unaryUndefined (op : Unary) (v : Value)
  | divisionByZero
  | floatUndefined (op : Binary)

/-- the text of an arithmetic error -/
def ArithmeticError.message : ArithmeticError → String
  | .unaryUndefined op v => "Unary operator " ++ op.title ++ " is not defined on " ++ v.text
  | .divisionByZero => "Integer division by zero"
  | .floatUndefined op => "Binary operator " ++ op.title ++ " is not defined on floating-point values"

/-- the outcome of an operator -/
abbrev Arithmetic := Except ArithmeticError Value

/-- the signed word of 128 bits with the low bits of `v` -/
def wideWord (v : Int) : Int :=
  v.bmod (2 ^ (128 : Nat))

/-- a bitwise operator on the two's complement words of two integers -/
def wideBits (f : BitVec 128 → BitVec 128 → BitVec 128) (l r : Int) : Int :=
  (f (BitVec.ofInt 128 l) (BitVec.ofInt 128 r)).toInt

/-- how far a shift by `r` goes: shift counts are taken modulo the width of the word -/
def shiftCount (r : Int) : Nat :=
  (r % 128).toNat

namespace Unary

/-- the operator on a value, with a result of the given element type -/
def eval (op : Unary) (v : Value) (s : Scalar) : Arithmetic :=
  match op, v with
  | neg, .int x _ => .ok (.ofInt (-x) s)
  | neg, .float b t => .ok (.ofFloat (-Value.floatOfBits b t) s)
  | not, v => .ok (.bool (!v.truth))
  | bitNeg, .int x _ => .ok (.ofInt (-x - 1) s)
  | bitNeg, .bool b => .ok (.bool (!b))
  | abs, .int x _ => .ok (.ofInt x.natAbs s)
  | abs, .float b t => .ok (.ofFloat (Value.floatOfBits b t).abs s)
  | exp, .float b t => .ok (.ofFloat (Value.floatOfBits b t).exp s)
  | log, .float b t => .ok (.ofFloat (Value.floatOfBits b t).log s)
  | sqrt, .float b t => .ok (.ofFloat (Value.floatOfBits b t).sqrt s)
  | op, v => .error (.unaryUndefined op v)

end Unary

namespace Binary

/-- the operator on two integers of at most 128 bits -/
def evalInt (op : Binary) (l r : Int) (s : Scalar) : Arithmetic :=
  match op with
  | add => .ok (.ofInt (wideWord (l + r)) s)
  | sub => .ok (.ofInt (wideWord (l - r)) s)
  | mul => .ok (.ofInt (wideWord (l * r)) s)
  | div => if r = 0 then .error .divisionByZero else .ok (.ofInt (wideWord (l.tdiv r)) s)
  | rem => if r = 0 then .error .divisionByZero else .ok (.ofInt (wideWord (l.tmod r)) s)
  | bitAnd => .ok (.ofInt (wideBits (· &&& ·) l r) s)
  | bitOr => .ok (.ofInt (wideBits (· ||| ·) l r) s)
  | bitXor => .ok (.ofInt (wideBits (· ^^^ ·) l r) s)
  | shl => .ok (.ofInt (wideWord (l * 2 ^ shiftCount r)) s)
  | shr => .ok (.ofInt (l / 2 ^ shiftCount r) s)
  | max => .ok (.ofInt (if l < r then r else l) s)
  | min => .ok (.ofInt (if r < l then r else l) s)
  | eq => .ok (.bool (l = r))
  | ne => .ok (.bool (l ≠ r))
  | le => .ok (.bool (l ≤ r))
  | ge => .ok (.bool (r ≤ l))
  | lt => .ok (.bool (l < r))
  | gt => .ok (.bool (r < l))
  | and => .ok (.bool (l ≠ 0 && r ≠ 0))
  | or => .ok (.bool (l ≠ 0 || r ≠ 0))

/-- the operator on two doubles -/
def evalFloat (op : Binary) (l r : Float) (s : Scalar) : Arithmetic :=
  match op with
  | add => .ok (.ofFloat (l + r) s)
  | sub => .ok (.ofFloat (l - r) s)
  | mul => .ok (.ofFloat (l * r) s)
  | div => .ok (.ofFloat (l / r) s)
  | rem => .ok (.ofFloat (Binary64.rem l r) s)
  | max => .ok (.ofFloat (Binary64.maximum l r) s)
  | min => .ok (.ofFloat (Binary64.minimum l r) s)
  | eq => .ok (.bool (l == r))
  | ne => .ok (.bool (l != r))
  | le => .ok (.bool (l ≤ r))
  | ge => .ok (.bool (l ≥ r))
  | lt => .ok (.bool (l < r))
  | gt => .ok (.bool (l > r))
  | _ => .error (.floatUndefined op)

/-- the operator on two truth values; what is not logical is computed on the numbers 0 and 1 -/
def evalBool (op : Binary) (l r : Bool) (s : Scalar) : Arithmetic :=
  match op with
  | and | bitAnd => .ok (.bool (l && r))
  | or | bitOr => .ok (.bool (l || r))
  | bitXor | ne => .ok (.bool (l != r))
  | eq => .ok (.bool (l == r))
  | _ => evalInt op (Value.ofBool l) (Value.ofBool r) s

/-- the integer that a value enters integer arithmetic as -/
def operand : Value → Int
  | .int v _ => v
  | v => v.toInt64

/-- the operator on two values, with a result of the given element type: on doubles as soon as one is a float -/
def eval (op : Binary) (l r : Value) (s : Scalar) : Arithmetic :=
  match l, r with
  | .float .., _ => evalFloat op l.toFloat r.toFloat s
  | _, .float .. => evalFloat op l.toFloat r.toFloat s
  | .bool x, .bool y => evalBool op x y s
  | l, r => evalInt op (operand l) (operand r) s

end Binary

namespace Atomic

/-- the value stored by the operation on an element of the given type -/
def eval (op : Atomic) (old v : Value) (s : Scalar) : Arithmetic :=
  match op.binary? with
  | some b => b.eval (old.convert s) (v.convert s) s
  | none => .ok (v.convert s)

end Atomic

end GpuHistogram
