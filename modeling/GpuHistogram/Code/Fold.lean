/-
Folding constants. Literals of 64 bits are combined where the result is again such a literal; neutral elements of 64-bit
arithmetic and of the conjunction disappear, and a conditional on a literal gives way to the branch taken. In statements
the branch taken replaces the conditional. A product with the literal zero becomes zero.

`Expr.fold` works from the parts to the whole, so `foldBinary` and `foldUnary` meet parts that are already folded.
-/
import GpuHistogram.Code.Children
import GpuHistogram.Scalar.Word64

namespace GpuHistogram

namespace Binary

/-- the operator on 64-bit literals, as a literal; none for an overflow, a division by zero and a shift -/
def foldWords? (op : Binary) (l r : Int) : Option Expr :=
  let int (v : Option Int) := v.map fun v => Expr.int v .i64 .unknown
  let bool (b : Bool) := some (Expr.bool b .bool .unknown)
  match op with
  | add => int (Word64.checked? (l + r))
  | sub => int (Word64.checked? (l - r))
  | mul => int (Word64.checked? (l * r))
  | div => int (if r = 0 then none else Word64.checked? (l.tdiv r))
  | rem => int (if r = 0 ∨ (l = Word64.least ∧ r = -1) then none else some (l.tmod r))
  | bitAnd => int (some (Word64.bitwise (· &&& ·) l r))
  | bitOr => int (some (Word64.bitwise (· ||| ·) l r))
  | bitXor => int (some (Word64.bitwise (· ^^^ ·) l r))
  | max => int (some (if l < r then r else l))
  | min => int (some (if r < l then r else l))
  | eq => bool (l = r)
  | ne => bool (l ≠ r)
  | le => bool (l ≤ r)
  | ge => bool (r ≤ l)
  | lt => bool (l < r)
  | gt => bool (r < l)
  | _ => none

end Binary

namespace Expr

/-- whether an expression is the integer literal `v`, of whatever type -/
def isLiteral (v : Int) : Expr → Bool
  | int w _ _ => w = v
  | _ => false

/-- an operator on parts one of which is a neutral element of 64-bit arithmetic, or zero in a product -/
def foldNeutral (op : Binary) (l r : Expr) (ty : Ty) (o : Origin) : Expr :=
  match op with
  | .add => if r.isLiteral 0 then l else if l.isLiteral 0 then r else binary .add l r ty o
  | .sub => if r.isLiteral 0 then l else binary .sub l r ty o
  | .mul =>
    if r.isLiteral 1 then l
    else if l.isLiteral 1 then r
    else if l.isLiteral 0 || r.isLiteral 0 then int 0 ty o
    else binary .mul l r ty o
  | .div => if r.isLiteral 1 then l else binary .div l r ty o
  | op => binary op l r ty o

/-- an operator on folded parts that are not two 64-bit literals -/
def foldMixed (op : Binary) (l r : Expr) (ty : Ty) (o : Origin) : Expr :=
  match op, l, r with
  | .and, bool a _ _, bool b _ _ => bool (a && b) ty o
  | .or, bool a _ _, bool b _ _ => bool (a || b) ty o
  | .and, bool true _ _, r => r
  | .and, l, bool true _ _ => l
  | op, l, r => if ty = .i64 then foldNeutral op l r ty o else binary op l r ty o

/-- an operator on folded parts -/
def foldBinary (op : Binary) (l r : Expr) (ty : Ty) (o : Origin) : Expr :=
  match l, r with
  | int v (.scalar .i64) _, int w (.scalar .i64) _ =>
    match op.foldWords? v w with
    | some e => e.withOrigin o
    | none => binary op l r ty o
  | l, r => foldMixed op l r ty o

/-- an operator on a folded part -/
def foldUnary (op : Unary) (arg : Expr) (ty : Ty) (o : Origin) : Expr :=
  match op, arg with
  | .neg, int v t p => if v = Word64.least then unary .neg (int v t p) ty o else int (-v) ty o
  | .not, bool b _ _ => bool (!b) ty o
  | op, arg => unary op arg ty o

/-- a cast of a folded part -/
def foldConvert (e : Expr) (ty : Ty) : Expr :=
  match e, ty with
  | int v _ o, .scalar .i64 => int v (.scalar .i64) o
  | e, ty => convert e ty

/-- the expression with its constant parts computed -/
def fold : Expr → Expr
  | unary op arg ty o => foldUnary op arg.fold ty o
  | binary op l r ty o => foldBinary op l.fold r.fold ty o
  | select c t e ty o =>
    match c.fold with
    | bool true _ _ => t.fold
    | bool false _ _ => e.fold
    | c' => select c' t.fold e.fold ty o
  | access t i ty o => access t.fold i.fold ty o
  | convert e ty => foldConvert e.fold ty
  | bitCast e ty => bitCast e.fold ty
  | e => e

/-- the value of an expression that folds to an integer literal -/
def constant? (e : Expr) : Option Int :=
  match e.fold with
  | int v _ _ => some v
  | _ => none

end Expr

/-- the kernel without its body, with the shape of the grid folded -/
def LaunchSpec.fold (k : LaunchSpec) : LaunchSpec :=
  { k with groups := k.groups.map Expr.fold, groupSize := k.groupSize.map Expr.fold }

mutual

/-- the statements that a folded statement is replaced by -/
def Stmt.fold : Stmt → List Stmt
  | .ifElse cond thn els o =>
    match cond.fold with
    | .bool true _ _ => foldBlock thn
    | .bool false _ _ => foldBlock els
    | c => [.ifElse c (foldBlock thn) (foldBlock els) o]
  | .launch spec body o => [.launch spec.fold (foldBlock body) o]
  | .forLoop ty n init cond incr body o => [.forLoop ty n init.fold cond.fold incr.fold (foldBlock body) o]
  | .whileLoop cond body o => [.whileLoop cond.fold (foldBlock body) o]
  | .scope body o => [.scope (foldBlock body) o]
  | s => [Id.run (s.mapExprs fun e => pure e.fold)]

/-- statements with their constant parts computed and their decided conditionals resolved -/
def foldBlock : List Stmt → List Stmt
  | [] => []
  | s :: rest => s.fold ++ foldBlock rest

end

attribute [grind =] Stmt.fold foldBlock

/-- the program with its host code folded -/
def Program.fold (p : Program) : Program :=
  { p with body := foldBlock p.body }

end GpuHistogram
