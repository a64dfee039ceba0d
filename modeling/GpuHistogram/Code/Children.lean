/-
Visiting the direct parts of a node. For expressions, for the expressions of a statement and for the statements of a
statement there is one function that replaces the parts from left to right inside any monad, and one that folds over
them. Both visit the same parts: the conditions and sizes of a statement, but not those of the kernel it launches, nor
its body.

`accumulate` and `foldWith` run such a traversal with an accumulator that may already have failed.
-/
import GpuHistogram.Code.Basic

namespace GpuHistogram

variable {m : Type → Type} [Monad m] {α ε σ τ : Type}

/-- run a traversal that replaces parts, with an accumulator that each step updates -/
def accumulate (visit : (σ → StateT α (Except ε) σ) → τ → StateT α (Except ε) τ)
    (start : Except ε α) (step : α → σ → Except ε (α × σ)) (x : τ) : Except ε (α × τ) := do
  let a ← start
  let (y, b) ← (visit (fun s a => (step a s).map fun r => (r.2, r.1)) x).run a
  return (b, y)

/-- run a traversal that folds over parts -/
def foldWith (visit : (α → σ → Except ε α) → α → τ → Except ε α)
    (start : Except ε α) (step : α → σ → Except ε α) (x : τ) : Except ε α := do
  visit step (← start) x

/-- replace the content of an option -/
def mapOption (f : σ → m σ) : Option σ → m (Option σ)
  | none => return none
  | some s => return some (← f s)

/-- fold over the content of an option -/
def foldOption (f : α → σ → m α) (a : α) : Option σ → m α
  | none => return a
  | some s => f a s

namespace Expr

/-- replace the parts of an expression from left to right -/
def mapChildren (f : Expr → m Expr) : Expr → m Expr
  | unary op arg ty o => return unary op (← f arg) ty o
  | binary op l r ty o => return binary op (← f l) (← f r) ty o
  | select c t e ty o => return select (← f c) (← f t) (← f e) ty o
  | access t i ty o => return access (← f t) (← f i) ty o
  | convert e ty => return convert (← f e) ty
  | bitCast e ty => return bitCast (← f e) ty
  | e => return e

/-- fold over the parts of an expression from left to right -/
def foldChildren (f : α → Expr → m α) (a : α) : Expr → m α
  | unary _ arg _ _ => f a arg
  | binary _ l r _ _ => do f (← f a l) r
  | select c t e _ _ => do f (← f (← f a c) t) e
  | access t i _ _ => do f (← f a t) i
  | convert e _ => f a e
  | bitCast e _ => f a e
  | _ => return a

/-- the parts of an expression from left to right -/
def children (e : Expr) : List Expr :=
  Id.run (e.foldChildren (fun l c => l ++ [c]) [])

end Expr

namespace Stmt

/-- replace the expressions of a statement from left to right -/
def mapExprs (f : Expr → m Expr) : Stmt → m Stmt
  | define ty n e o => return define ty n (← f e) o
  | assign dst e o => return assign (← f dst) (← f e) o
  | forLoop ty n init cond incr body o => return forLoop ty n (← f init) (← f cond) (← f incr) body o
  | ifElse cond thn els o => return ifElse (← f cond) thn els o
  | whileLoop cond body o => return whileLoop (← f cond) body o
  | atomic op space s target idx value old o => return atomic op space s target (← f idx) (← f value) old o
  | compareSwap old space s target idx cmp new o =>
    return compareSwap old space s target (← f idx) (← f cmp) (← f new) o
  | alloc n s count o => return alloc n s (← f count) o
  | copy dst dstOffset src srcOffset count o => return copy dst (← f dstOffset) src (← f srcOffset) (← f count) o
  | fill n offset count value o => return fill n (← f offset) (← f count) (← f value) o
  | table n s values o => return table n s (← values.mapM f) o
  | s => return s

/-- fold over the expressions of a statement from left to right -/
def foldExprs (f : α → Expr → m α) (a : α) : Stmt → m α
  | define _ _ e _ => f a e
  | assign dst e _ => do f (← f a dst) e
  | forLoop _ _ init cond incr _ _ => do f (← f (← f a init) cond) incr
  | ifElse cond _ _ _ => f a cond
  | whileLoop cond _ _ => f a cond
  | atomic _ _ _ _ idx value _ _ => do f (← f a idx) value
  | compareSwap _ _ _ _ idx cmp new _ => do f (← f (← f a idx) cmp) new
  | alloc _ _ count _ => f a count
  | copy _ dstOffset _ srcOffset count _ => do f (← f (← f a dstOffset) srcOffset) count
  | fill _ offset count value _ => do f (← f (← f a offset) count) value
  | table _ _ values _ => values.foldlM f a
  | _ => return a

/-- replace the statements inside a statement in order -/
def mapStmts (f : Stmt → m Stmt) : Stmt → m Stmt
  | forLoop ty n init cond incr body o => return forLoop ty n init cond incr (← body.mapM f) o
  | ifElse cond thn els o => return ifElse cond (← thn.mapM f) (← els.mapM f) o
  | whileLoop cond body o => return whileLoop cond (← body.mapM f) o
  | scope body o => return scope (← body.mapM f) o
  | s => return s

/-- fold over the statements inside a statement in order -/
def foldStmts (f : α → Stmt → m α) (a : α) : Stmt → m α
  | forLoop _ _ _ _ _ body _ => body.foldlM f a
  | ifElse _ thn els _ => do els.foldlM f (← thn.foldlM f a)
  | whileLoop _ body _ => body.foldlM f a
  | scope body _ => body.foldlM f a
  | _ => return a

end Stmt

attribute [grind =] Stmt.mapExprs Stmt.foldExprs

end GpuHistogram
