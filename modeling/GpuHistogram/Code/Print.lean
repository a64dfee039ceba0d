/-
The text of programs. Operators are written with as few parentheses as the strengths of infix operators ask for: an
infix operand gets them when it binds less tightly than the operator around it. A conditional is always in parentheses,
and the operand of a cast too. Names become identifiers through `Printer.name`, in the order in which they are printed.
-/
import GpuHistogram.Code.Basic
import GpuHistogram.Scalar.Decimal
import GpuHistogram.Text.Identifiers

namespace GpuHistogram

/-- the text of a type -/
def Ty.text : Ty → String
  | scalar s => s.text
  | pointer s space => space.text ++ " " ++ s.text ++ "*"

/-- the text of an infix operand under an operator -/
def Expr.parenthesize (outer : Binary) (operand : Expr) (s : String) : String :=
  match operand with
  | .binary op _ _ _ _ => if op.isInfix && Binary.precedence op outer = .lt then s!"({s})" else s
  | _ => s

/-- print an expression -/
def Expr.print : Expr → Printer String
  | .var n _ _ => Printer.name n
  | .bool b _ _ => return toString b
  | .int v ty _ => return toString v ++ ty.elem.text
  | .float b ty _ => return Decimal.Style.literal.text (Float.ofBits b) ++ ty.elem.text
  | .unary op arg _ _ => do
    let a ← arg.print
    if op.isFunction || !arg.isLeaf then return s!"{op.symbol}({a})" else return op.symbol ++ a
  | .binary op lhs rhs _ _ => do
    let l ← lhs.print
    let r ← rhs.print
    if op.isInfix then
      return s!"{lhs.parenthesize op l} {op.symbol} {rhs.parenthesize op r}"
    else
      return s!"{op.symbol}({l}, {r})"
  | .select cond thn els _ _ => do
    let c ← cond.print
    let t ← thn.print
    let e ← els.print
    return s!"(if {c} then {t} else {e})"
  | .access target idx _ _ => do
    let t ← target.print
    let i ← idx.print
    return s!"{t}[{i}]"
  | .convert e ty => return s!"({ty.text})({← e.print})"
  | .bitCast e ty => return s!"bitcast<{ty.text}>({← e.print})"
  | .place p axis _ => return s!"{p.text}({axis.index})"
  | .size id _ => return s!"size<{id}>"
  | .capability c _ => return s!"device<{c.title}>"

/-- the text of an expression printed by itself -/
def Expr.text (e : Expr) : String :=
  e.print.text

/-- print expressions separated by commas -/
def printExprs (l : List Expr) : Printer String :=
  Printer.separated ", " Expr.print l

/-- print the declaration of a block of local memory -/
def LocalBlock.print (b : LocalBlock) : Printer String := do
  let n ← Printer.name b.name
  let size ← match b.size with
    | .fixed k => pure (toString k)
    | .computed e => e.print
  return s!"local {b.elem.text} {n}[{size}];"

/-- the text of a block of local memory printed by itself -/
def LocalBlock.text (b : LocalBlock) : String :=
  b.print.text

/-- print a captured variable with its type -/
def printCapture (c : Name × Ty) : Printer String :=
  return s!"{← Printer.name c.1}: {c.2.text}"

/-- print the head of a kernel: its name, its captures and the shape of its grid -/
def LaunchSpec.printHead (k : LaunchSpec) : Printer String := do
  let n ← Printer.name k.name
  let captures ← Printer.separated ", " printCapture k.captures
  let groups ← printExprs k.groups
  let size ← printExprs k.groupSize
  return s!"kernel {n}({captures}) <<<[{groups}], [{size}]>>>"

/-- print the local memory of a kernel, one block a line -/
def LaunchSpec.printBlocks (k : LaunchSpec) : Printer (List String) :=
  Printer.inner (k.blocks.mapM fun b => return (← Printer.margin) ++ (← b.print))

mutual

/-- print a statement, from the margin of its first line on -/
def Stmt.print : Stmt → Printer String
  | .define ty n e _ => do
    let margin ← Printer.margin
    let n ← Printer.name n
    return s!"{margin}{ty.text} {n} = {← e.print};"
  | .assign dst e _ => do
    let margin ← Printer.margin
    let d ← dst.print
    return s!"{margin}{d} = {← e.print};"
  | .forLoop ty n init cond incr body _ => do
    let margin ← Printer.margin
    let n ← Printer.name n
    let init ← init.print
    let cond ← cond.print
    let incr ← incr.print
    let body ← Printer.block (printStmts body)
    return s!"{margin}for ({ty.text} {n} = {init}; {cond}; {n} = {incr}) \x7b\n{body}\n{margin}\x7d"
  | .ifElse cond thn els _ => do
    let margin ← Printer.margin
    let c ← cond.print
    let t ← Printer.block (printStmts thn)
    if els.isEmpty then
      return s!"{margin}if ({c}) \x7b\n{t}\n{margin}\x7d"
    else
      let e ← Printer.block (printStmts els)
      return s!"{margin}if ({c}) \x7b\n{t}\n{margin}\x7d else \x7b\n{e}\n{margin}\x7d"
  | .whileLoop cond body _ => do
    let margin ← Printer.margin
    let c ← cond.print
    let body ← Printer.block (printStmts body)
    return s!"{margin}while ({c}) \x7b\n{body}\n{margin}\x7d"
  | .scope body _ => do
    let margin ← Printer.margin
    let body ← Printer.block (printStmts body)
    return s!"{margin}\x7b\n{body}\n{margin}\x7d"
  | .barrier scope _ => return s!"{← Printer.margin}barrier({scope.title});"
  | .fence space _ => return s!"{← Printer.margin}mem_fence({space.text});"
  | .atomic op space s target idx value old _ => do
    let margin ← Printer.margin
    let old ← match old with
      | some n => pure s!"{s.text} {← Printer.name n} = "
      | none => pure ""
    let t ← Printer.name target
    let i ← idx.print
    let v ← value.print
    return s!"{margin}{old}atomic_{op.text}_{space.text}(&{t}[{i}], {v});"
  | .compareSwap old space s target idx cmp new _ => do
    let margin ← Printer.margin
    let old ← Printer.name old
    let t ← Printer.name target
    let i ← idx.print
    let c ← cmp.print
    let n ← new.print
    return s!"{margin}{s.bitPattern.text} {old} = atomic_cas_{space.text}(&{t}[{i}], {c}, {n});"
  | .alloc n s count _ => do
    let margin ← Printer.margin
    let n ← Printer.name n
    return s!"{margin}{n} = alloc<{s.text}>({← count.print});"
  | .free n _ => return s!"{← Printer.margin}free({← Printer.name n});"
  | .copy dst dstOffset src srcOffset count _ => do
    let margin ← Printer.margin
    let d ← Printer.name dst
    let i ← dstOffset.print
    let s ← Printer.name src
    let j ← srcOffset.print
    let c ← count.print
    return s!"{margin}copy({d} + {i}, {s} + {j}, {c});"
  | .fill n offset count value _ => do
    let margin ← Printer.margin
    let n ← Printer.name n
    let i ← offset.print
    let c ← count.print
    let v ← value.print
    return s!"{margin}fill({n} + {i}, {c}, {v});"
  | .rebind dst src _ => do
    let margin ← Printer.margin
    let d ← Printer.name dst
    return s!"{margin}{d} <- {← Printer.name src};"
  | .table n s values _ => do
    let margin ← Printer.margin
    let n ← Printer.name n
    return s!"{margin}static {s.text} {n}[] = \x7b{← printExprs values}\x7d;"
  | .launch spec body _ => do
    let margin ← Printer.margin
    let head ← spec.printHead
    let blocks ← spec.printBlocks
    let body ← Printer.block (printStmts body)
    let lines := "\n".intercalate (blocks ++ [body])
    return s!"{margin}{head} \x7b\n{lines}\n{margin}\x7d"

/-- print statements one after the other -/
def printStmts : List Stmt → Printer (List String)
  | [] => return []
  | s :: rest => return (← s.print) :: (← printStmts rest)

end

/-- print statements at the current level, one a line -/
def printLines (body : List Stmt) : Printer String :=
  return "\n".intercalate (← printStmts body)

/-- the text of statements printed by themselves -/
def textOfStmts (body : List Stmt) : String :=
  (printLines body).text

/-- the text of a statement printed by itself -/
def Stmt.text (s : Stmt) : String :=
  s.print.text

/-- the text of a program: its sizes, then the host code -/
def Program.text (p : Program) : String :=
  let sizes := p.sizes.map fun (id, c) => s!"size {id}: {c.text};"
  let body := textOfStmts p.body
  if sizes.isEmpty then body else "\n".intercalate sizes ++ "\n" ++ body

end GpuHistogram
