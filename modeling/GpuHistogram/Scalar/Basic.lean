/-
The element types of arrays and variables: booleans, signed and unsigned integers of four widths, and two floating-point
formats. Everything that depends on the layout of an element (its bytes, its bits, the unsigned type with the same bits)
is decided here once.
-/
namespace GpuHistogram

/-- an element type -/
inductive Scalar where
  | bool
  | i8
  | i16
  | i32
  | i64
  | u8
  | u16
  | u32
  | u64
  | f32
  | f64
  deriving DecidableEq, Inhabited, Repr

namespace Scalar

/-- all element types in their order -/
def all : List Scalar := [bool, i8, i16, i32, i64, u8, u16, u32, u64, f32, f64]

/-- the place of an element type in the order of all of them -/
def rank : Scalar → Nat
  | bool => 0
  | i8 => 1
  | i16 => 2
  | i32 => 3
  | i64 => 4
  | u8 => 5
  | u16 => 6
  | u32 => 7
  | u64 => 8
  | f32 => 9
  | f64 => 10

def isBool : Scalar → Bool
  | bool => true
  | _ => false

def isSigned : Scalar → Bool
  | i8 | i16 | i32 | i64 => true
  | _ => false

def isUnsigned : Scalar → Bool
  | u8 | u16 | u32 | u64 => true
  | _ => false

def isInteger (s : Scalar) : Bool :=
  s.isSigned || s.isUnsigned

def isFloat : Scalar → Bool
  | f32 | f64 => true
  | _ => false

/-- the size of one element in device memory -/
def bytes : Scalar → Nat
  | bool | i8 | u8 => 1
  | i16 | u16 => 2
  | i32 | u32 | f32 => 4
  | i64 | u64 | f64 => 8

/-- the number of bits of one element in device memory -/
def bits (s : Scalar) : Nat :=
  s.bytes * 8

/-- the unsigned integer type of the same size, used when a value is taken bit by bit -/
def bitPattern (s : Scalar) : Scalar :=
  match s.bytes with
  | 1 => u8
  | 2 => u16
  | 4 => u32
  | _ => u64

/-- the name of an element type in printed programs -/
def text : Scalar → String
  | bool => "bool"
  | i8 => "i8"
  | i16 => "i16"
  | i32 => "i32"
  | i64 => "i64"
  | u8 => "u8"
  | u16 => "u16"
  | u32 => "u32"
  | u64 => "u64"
  | f32 => "f32"
  | f64 => "f64"

instance : ToString Scalar := ⟨text⟩

/-- the element type of a given name -/
def ofText? (s : String) : Option Scalar :=
  all.find? fun t => t.text == s

theorem bytes_bitPattern (s : Scalar) : s.bitPattern.bytes = s.bytes := by
  cases s <;> rfl

theorem isUnsigned_bitPattern (s : Scalar) : s.bitPattern.isUnsigned = true := by
  cases s <;> rfl

theorem isInteger_or_isFloat (s : Scalar) (h : s ≠ bool) : (s.isInteger || s.isFloat) = true := by
  cases s <;> first | rfl | exact absurd rfl h

end Scalar

end GpuHistogram
