/-
The text of kernels for a device compiler. Operators associate to the left, so a right operand gets parentheses also when
its operator binds as tightly as the one around it. Numbers are written so that C gives them the type they have here: an
integer that is not an `int` is cast or has a suffix, and the least number of a type, whose digits without the sign are
none of that type, is written as a difference.
-/
import GpuHistogram.Scalar.Decimal
import GpuHistogram.Scalar.Word64
import GpuHistogram.Source.Basic
import GpuHistogram.Text.Identifiers

namespace GpuHistogram

-- powers of numbers are those of the core library, also beside a library with its own
attribute [local instance (2000)] instPowNat instNatPowNat Int.instNatPow

/-- the name of an element type in C -/
def Scalar.cText : Scalar → String
  | bool => "bool"
  | i8 => "int8_t"
  | i16 => "int16_t"
  | i32 => "int32_t"
  | i64 => "int64_t"
  | u8 => "uint8_t"
  | u16 => "uint16_t"
  | u32 => "uint32_t"
  | u64 => "uint64_t"
  | f32 => "float"
  | f64 => "double"

/-- what a kernel is marked with -/
def Target.kernelMark : Target → String
  | openCL => "__kernel"
  | cuda => "extern \"C\" __global__"

namespace Source

/-- the qualifier as it is written, if it is -/
def Qualifier.text? : Qualifier → Option String
  | unqualified => none
  | global => some "__global"
  | group => some "__local"
  | shared => some "__shared__"

/-- a text behind its qualifier -/
def Qualifier.qualify (q : Qualifier) (s : String) : String :=
  match q.text? with
  | some t => t ++ " " ++ s
  | none => s

/-- the text of a type -/
def Ty.text : Ty → String
  | void => "void"
  | scalar s => s.cText
  | pointer s q => q.qualify (s.cText ++ "*")

/-- a number in hexadecimal digits -/
def hexText (n : Nat) : String :=
  "0x" ++ String.ofList (Nat.toDigits 16 n)

/-- the text of an integer of a type -/
def intText (v : Int) (ty : Ty) : String :=
  match ty.scalar? with
  | some .i32 => if v = -(2 ^ (31 : Nat)) then s!"({v + 1} - 1)" else toString v
  | some .u32 => s!"{v % 2 ^ (32 : Nat)}u"
  | some .i64 => if v = Word64.least then s!"((int64_t)({v + 1}) - 1)" else s!"(int64_t){v}"
  | some .u64 => if v < 0 then s!"(uint64_t){hexText (v % 2 ^ (64 : Nat)).toNat}" else s!"(uint64_t){v}"
  | some s => s!"({s.cText}){v}"
  | none => toString v

/-- the suffix of a floating-point number of a type -/
def floatSuffix (ty : Ty) : String :=
  if ty.scalar? = some .f32 then "f" else ""

/-- the text of a floating-point number of a type -/
def floatText (x : Float) (ty : Ty) : String :=
  if x.isNaN then "NAN"
  else if x.isInf then (if x < 0 then "-INFINITY" else "INFINITY")
  else Decimal.Style.literal.text x ++ floatSuffix ty

namespace Expr

/-- whether an operand under an operator gets parentheses -/
def isGrouped (outer : Binary) (right : Bool) : Expr → Bool
  | binary op _ _ _ =>
    match Binary.precedence op outer with
    | .lt => true
    | .eq => right
    | .gt => false
  | ternary .. | convert .. | addressOf .. | unary .. => true
  | _ => false

/-- the text of an operand under an operator -/
def operand (outer : Binary) (right : Bool) (e : Expr) (s : String) : String :=
  if e.isGrouped outer right then s!"({s})" else s

/-- the text of an argument under a prefix operator; two signs must not meet -/
def prefixArgument (e : Expr) (s : String) : String :=
  if e.isLeaf && s.toList.head? ≠ some '-' then s else s!"({s})"

mutual

/-- print an expression -/
def print : Expr → Printer String
  | var n _ => Printer.name n
  | bool b _ => return toString b
  | int v ty => return intText v ty
  | float b ty => return floatText (Float.ofBits b) ty
  | unary op arg _ => return op.symbol ++ arg.prefixArgument (← arg.print)
  | binary op lhs rhs _ => do
    let l ← lhs.print
    let r ← rhs.print
    return s!"{lhs.operand op false l} {op.symbol} {rhs.operand op true r}"
  | ternary cond thn els _ => do
    let c ← cond.print
    let t ← thn.print
    let e ← els.print
    return s!"({c} ? {t} : {e})"
  | access target idx _ => do
    let t ← target.print
    return s!"{t}[{← idx.print}]"
  | addressOf e _ => return s!"&{← e.print}"
  | convert e ty => do
    let s ← e.print
    return if e.isLeaf then s!"({ty.text}){s}" else s!"({ty.text})({s})"
  | call id args _ => do
    let l ← printAll args
    return id ++ "(" ++ ", ".intercalate l ++ ")"

/-- print expressions from left to right -/
def printAll : List Expr → Printer (List String)
  | [] => return []
  | e :: rest => do
    let s ← e.print
    return s :: (← printAll rest)

end

/-- the text of an expression printed by itself -/
def text (e : Expr) : String :=
  e.print.text

end Expr

mutual

/-- print a statement, from the margin of its first line on -/
def Stmt.print : Stmt → Printer String
  | .define ty n e => do
    let margin ← Printer.margin
    let n ← Printer.name n
    return s!"{margin}{ty.text} {n} = {← e.print};"
  | .assign dst e => do
    let margin ← Printer.margin
    let d ← dst.print
    return s!"{margin}{d} = {← e.print};"
  | .forLoop ty n init cond incr body => do
    let margin ← Printer.margin
    let n ← Printer.name n
    let init ← init.print
    let cond ← cond.print
    let incr ← incr.print
    let body ← Printer.block (printStmts body)
    return s!"{margin}for ({ty.text} {n} = {init}; {cond}; {n} = {incr}) \x7b\n{body}\n{margin}\x7d"
  | .ifElse cond thn els => do
    let margin ← Printer.margin
    let c ← cond.print
    let t ← Printer.block (printStmts thn)
    if els.isEmpty then
      return s!"{margin}if ({c}) \x7b\n{t}\n{margin}\x7d"
    else
      let e ← Printer.block (printStmts els)
      return s!"{margin}if ({c}) \x7b\n{t}\n{margin}\x7d else \x7b\n{e}\n{margin}\x7d"
  | .whileLoop cond body => do
    let margin ← Printer.margin
    let c ← cond.print
    let body ← Printer.block (printStmts body)
    return s!"{margin}while ({c}) \x7b\n{body}\n{margin}\x7d"
  | .scope body => do
    let margin ← Printer.margin
    let body ← Printer.block (printStmts body)
    return s!"{margin}\x7b\n{body}\n{margin}\x7d"
  | .expr e => do
    let margin ← Printer.margin
    return s!"{margin}{← e.print};"
  | .localArray n s size q => do
    let margin ← Printer.margin
    let n ← Printer.name n
    return margin ++ q.qualify s!"{s.cText} {n}[{size}];"
  | .externShared n => do
    let margin ← Printer.margin
    return s!"{margin}extern __shared__ __align__(8) uint8_t {← Printer.name n}[];"

/-- print statements one after the other -/
def printStmts : List Stmt → Printer (List String)
  | [] => return []
  | s :: rest => do
    let t ← s.print
    return t :: (← printStmts rest)

end

/-- print statements one level further in, one a line -/
def printBlock (body : List Stmt) : Printer String :=
  Printer.block (printStmts body)

/-- print a parameter -/
def Param.print (p : Param) : Printer String :=
  return s!"{p.ty.text} {← Printer.name p.name}"

/-- print a kernel -/
def Kernel.print (k : Kernel) : Printer String := do
  let n ← Printer.name k.name
  let params ← Printer.separated ", " Param.print k.params
  let body ← printBlock k.body
  return s!"{k.target.kernelMark} void {n}({params}) \x7b\n{body}\n\x7d"

end Source

end GpuHistogram
