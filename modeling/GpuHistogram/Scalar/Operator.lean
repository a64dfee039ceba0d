/-
The operators of expressions and the read-modify-write operations on memory. Binary operators carry the precedence that
printing goes by: `precedence l r` compares how tightly two operators bind.
-/
namespace GpuHistogram

/-- operators of one operand -/
inductive Unary where
  | neg
  | not
  | bitNeg
  | abs
  | exp
  | log
  | sqrt
  deriving DecidableEq, Inhabited, Repr

namespace Unary

/-- all operators of one operand -/
def all : List Unary := [neg, not, bitNeg, abs, exp, log, sqrt]

/-- whether the operator is written as a function of its operand -/
def isFunction : Unary → Bool
  | neg | not | bitNeg => false
  | abs | exp | log | sqrt => true

/-- how the operator is written -/
def symbol : Unary → String
  | neg => "-"
  | not => "!"
  | bitNeg => "~"
  | abs => "abs"
  | exp => "exp"
  | log => "log"
  | sqrt => "sqrt"

/-- what the operator is called in messages -/
def title : Unary → String
  | neg => "Neg"
  | not => "Not"
  | bitNeg => "BitNeg"
  | abs => "Abs"
  | exp => "Exp"
  | log => "Log"
  | sqrt => "Sqrt"

end Unary

/-- operators of two operands -/
inductive Binary where
  | add
  | sub
  | mul
  | div
  | rem
  | and
  | or
  | bitAnd
  | bitOr
  | bitXor
  | shl
  | shr
  | eq
  | ne
  | le
  | ge
  | lt
  | gt
  | max
  | min
  deriving DecidableEq, Inhabited, Repr

namespace Binary

/-- all operators of two operands -/
def all : List Binary :=
  [add, sub, mul, div, rem, and, or, bitAnd, bitOr, bitXor, shl, shr, eq, ne, le, ge, lt, gt, max, min]

/-- how tightly the operator binds -/
def strength : Binary → Nat
  | or => 2
  | and => 3
  | bitOr => 4
  | bitXor => 5
  | bitAnd => 6
  | eq | ne => 7
  | le | ge | lt | gt => 8
  | shl | shr => 10
  | add | sub => 11
  | mul | div | rem => 12
  | max | min => 20

/-- compares how tightly two operators bind -/
def precedence (l r : Binary) : Ordering :=
  compare l.strength r.strength

/-- whether the operator is written between its operands -/
def isInfix : Binary → Bool
  | max | min => false
  | _ => true

def isComparison : Binary → Bool
  | eq | ne | le | ge | lt | gt => true
  | _ => false

/-- whether the operator combines truth values and skips its second operand when the first decides -/
def isLogical : Binary → Bool
  | and | or => true
  | _ => false

/-- whether exchanging the operands never affects the result -/
def isCommutative : Binary → Bool
  | add | mul | and | or | bitAnd | bitOr | bitXor | eq | ne | max | min => true
  | _ => false

/-- how the operator is written -/
def symbol : Binary → String
  | add => "+"
  | sub => "-"
  | mul => "*"
  | div => "/"
  | rem => "%"
  | and => "&&"
  | or => "||"
  | bitAnd => "&"
  | bitOr => "|"
  | bitXor => "^"
  | shl => "<<"
  | shr => ">>"
  | eq => "=="
  | ne => "!="
  | le => "<="
  | ge => ">="
  | lt => "<"
  | gt => ">"
  | max => "max"
  | min => "min"

/-- what the operator is called in messages -/
def title : Binary → String
  | add => "Add"
  | sub => "Sub"
  | mul => "Mul"
  | div => "Div"
  | rem => "Rem"
  | and => "And"
  | or => "Or"
  | bitAnd => "BitAnd"
  | bitOr => "BitOr"
  | bitXor => "BitXor"
  | shl => "BitShl"
  | shr => "BitShr"
  | eq => "Eq"
  | ne => "Neq"
  | le => "Leq"
  | ge => "Geq"
  | lt => "Lt"
  | gt => "Gt"
  | max => "Max"
  | min => "Min"

theorem isCommutative_of_isLogical (op : Binary) (h : op.isLogical = true) : op.isCommutative = true := by
  cases op <;> simp_all [isLogical, isCommutative]

end Binary

/-- operations that read an element and store a new value in one step -/
inductive Atomic where
  | add
  | smin
  | smax
  | umin
  | umax
  | and
  | or
  | xor
  | xchg
  deriving DecidableEq, Inhabited, Repr

namespace Atomic

/-- all operations in their order -/
def all : List Atomic := [add, smin, smax, umin, umax, and, or, xor, xchg]

/-- the place of the operation in the order of all of them -/
def rank : Atomic → Nat
  | add => 0
  | smin => 1
  | smax => 2
  | umin => 3
  | umax => 4
  | and => 5
  | or => 6
  | xor => 7
  | xchg => 8

/-- the name of the operation in printed programs -/
def text : Atomic → String
  | add => "add"
  | smin => "smin"
  | smax => "smax"
  | umin => "umin"
  | umax => "umax"
  | and => "and"
  | or => "or"
  | xor => "xor"
  | xchg => "xchg"

/-- the binary operator that gives the stored value, if the old value matters at all -/
def binary? : Atomic → Option Binary
  | add => some .add
  | smin | umin => some .min
  | smax | umax => some .max
  | and => some .bitAnd
  | or => some .bitOr
  | xor => some .bitXor
  | xchg => none

end Atomic

end GpuHistogram
