/-
Decimal texts of doubles. `shortest` gives the fewest digits from which the double is read back; among texts of that
length the nearest to the double is taken, and of two equally near the larger. For one digit, two digits and so on it
tries the two neighbours of the double on the grid of decimals with that many digits, in exact arithmetic; seventeen
digits always suffice.

How the digits are laid out is a `Style`: `Style.plain` never uses an exponent, `Style.literal` is the one used for
literals in programs.
-/
import GpuHistogram.Scalar.Binary64

namespace GpuHistogram.Decimal

-- powers of numbers are those of the core library, also beside a library with its own
attribute [local instance (2000)] instPowNat instNatPowNat Int.instNatPow

/-- a positive fraction -/
structure Ratio where
  num : Nat
  den : Nat

/-- `n * 2 ^ e` as a fraction -/
def Ratio.ofBinary (n : Nat) (e : Int) : Ratio :=
  if 0 ≤ e then ⟨n * 2 ^ e.toNat, 1⟩ else ⟨n, 2 ^ (-e).toNat⟩

/-- `n * 10 ^ e` as a fraction -/
def Ratio.ofDecimal (n : Nat) (e : Int) : Ratio :=
  if 0 ≤ e then ⟨n * 10 ^ e.toNat, 1⟩ else ⟨n, 10 ^ (-e).toNat⟩

def Ratio.lt (a b : Ratio) : Bool := a.num * b.den < b.num * a.den

def Ratio.le (a b : Ratio) : Bool := a.num * b.den ≤ b.num * a.den

/-- the quotient rounded down -/
def Ratio.quotient (a b : Ratio) : Nat := a.num * b.den / (a.den * b.num)

/-- the number of decimal digits -/
def digitCount (n : Nat) : Nat := (Nat.toDigits 10 n).length

/-- the exponent of the leading decimal digit -/
def leadingExponent (r : Ratio) : Int :=
  if r.den ≤ r.num then digitCount (r.num / r.den) - 1
  else
    let j := digitCount (r.den / r.num) - 1
    if r.den ≤ r.num * 10 ^ j then -(j : Int) else -((j : Int) + 1)

/-- the numbers that round to one double: between two ends, which belong to it if `closed` -/
structure Interval where
  value : Ratio
  low : Ratio
  high : Ratio
  closed : Bool

/-- whether a fraction rounds to the double -/
def Interval.contains (i : Interval) (r : Ratio) : Bool :=
  if i.closed then i.low.le r && r.le i.high else i.low.lt r && r.lt i.high

/-- the interval of a double with mantissa `m > 0`: half a unit to both sides, a quarter downwards at a power of two -/
def Interval.ofBinary (m : Nat) (e : Int) : Interval :=
  let below := if m = 2 ^ (52 : Nat) ∧ -1074 < e then 1 else 2
  ⟨.ofBinary (4 * m) (e - 2), .ofBinary (4 * m - below) (e - 2), .ofBinary (4 * m + 2) (e - 2), m % 2 = 0⟩

/-- decimal digits, the first of which stands for that many times `10 ^ exponent` -/
structure Digits where
  digits : List Char
  exponent : Int
  deriving DecidableEq

/-- the digits of `q * 10 ^ e`, without zeros at the end -/
def Digits.ofScaled (q : Nat) (e : Int) : Digits :=
  let ds := Nat.toDigits 10 q
  ⟨(ds.reverse.dropWhile (· = '0')).reverse, e + (ds.length - 1 : Nat)⟩

/-- of the two neighbours of the value on the grid `10 ^ e`, the nearer one that rounds to the double; the larger one
on a tie -/
def Interval.neighbour? (i : Interval) (e : Int) : Option Nat :=
  let q := i.value.quotient (.ofDecimal 1 e)
  let low := i.contains (.ofDecimal q e)
  let high := i.contains (.ofDecimal (q + 1) e)
  if low && high then
    -- the value against the middle of its neighbours
    let middle := Ratio.ofDecimal (2 * q + 1) e
    if Ratio.lt ⟨2 * i.value.num, i.value.den⟩ middle then some q else some (q + 1)
  else if low then some q
  else if high then some (q + 1)
  else none

/-- the fewest digits, trying `count` digits and then more while `tries` are left -/
def Interval.search (i : Interval) (lead : Int) : (count tries : Nat) → Digits
  | count, 0 => .ofScaled (i.value.quotient (.ofDecimal 1 (lead - count))) (lead - count)
  | count, tries + 1 =>
    let e := lead - count
    match i.neighbour? e with
    | some q => .ofScaled q e
    | none => i.search lead (count + 1) tries

/-- the fewest digits from which the double `m * 2 ^ e` is read back -/
def shortest (m : Nat) (e : Int) : Digits :=
  let i := Interval.ofBinary m e
  i.search (leadingExponent i.value) 0 17

/-- how digits are laid out -/
structure Style where
  /-- which leading exponents are written without an exponent -/
  positional : Int → Bool
  /-- what follows a number without a fraction -/
  wholeEnd : String

/-- never an exponent, and nothing after a whole number -/
def Style.plain : Style := ⟨fun _ => true, ""⟩

/-- an exponent below `10 ^ -4` and from `10 ^ 16` on, and a zero after the point of a whole number -/
def Style.literal : Style := ⟨fun k => -4 ≤ k && k < 16, ".0"⟩

/-- a run of zeros -/
def zeros (n : Nat) : String := String.ofList (List.replicate n '0')

/-- digits around a decimal point -/
def Digits.positional (d : Digits) (wholeEnd : String) : String :=
  let n := d.digits.length
  if d.exponent < 0 then "0." ++ zeros (-d.exponent - 1).toNat ++ String.ofList d.digits
  else
    let whole := d.exponent.toNat + 1
    if n ≤ whole then String.ofList d.digits ++ zeros (whole - n) ++ wholeEnd
    else String.ofList (d.digits.take whole) ++ "." ++ String.ofList (d.digits.drop whole)

/-- one digit, the other digits after a point, and an exponent -/
def Digits.scientific (d : Digits) : String :=
  let tail := d.digits.drop 1
  String.ofList (d.digits.take 1) ++ (if tail.isEmpty then "" else "." ++ String.ofList tail) ++ "e" ++ toString d.exponent

/-- the text of digits in a style -/
def Style.layout (s : Style) (d : Digits) : String :=
  if s.positional d.exponent then d.positional s.wholeEnd else d.scientific

/-- the text of a double -/
def Style.text (s : Style) (x : Float) : String :=
  match Binary64.decode? x with
  | some b =>
    (if b.negative then "-" else "") ++
      (if b.mantissa = 0 then "0" ++ s.wholeEnd else s.layout (shortest b.mantissa b.exponent))
  | none => if x.isNaN then "NaN" else if x < 0 then "-inf" else "inf"

end GpuHistogram.Decimal
