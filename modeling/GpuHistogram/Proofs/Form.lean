/-
Code in two forms, as it is generated and with its constants folded. A fact proved for a form `f` holds of both, so
what generated code does is shown once and also holds of the folded program that is really run.

`Form.block_append`: folding works statement by statement, so code put together from parts folds part by part.
-/
import GpuHistogram.Code.Fold

namespace GpuHistogram

/-- code as it is generated, or folded -/
inductive Form where
  | plain
  | folded
  deriving DecidableEq, Inhabited

namespace Form

/-- an expression in a form -/
def expr : Form → Expr → Expr
  | plain, e => e
  | folded, e => e.fold

/-- statements in a form -/
def block : Form → List Stmt → List Stmt
  | plain, l => l
  | folded, l => foldBlock l

/-- the launch of a kernel in a form -/
def spec : Form → LaunchSpec → LaunchSpec
  | plain, k => k
  | folded, k => k.fold

end Form

theorem foldBlock_append (l l' : List Stmt) : foldBlock (l ++ l') = foldBlock l ++ foldBlock l' := by
  induction l with
  | nil => simp [foldBlock]
  | cons s l ih => simp [foldBlock, ih]

namespace Form

@[simp] theorem block_nil (f : Form) : f.block [] = [] := by
  cases f
  · rfl
  · simp [block, foldBlock]

theorem block_append (f : Form) (l l' : List Stmt) : f.block (l ++ l') = f.block l ++ f.block l' := by
  cases f
  · rfl
  · exact foldBlock_append l l'

/-- the form of a statement that is neither a conditional nor a loop nor a launch -/
theorem block_define (f : Form) (ty : Ty) (n : Name) (e : Expr) (o : Origin) :
    f.block [.define ty n e o] = [.define ty n (f.expr e) o] := by
  cases f
  · rfl
  · simp [block, expr, foldBlock, Stmt.fold, Stmt.mapExprs]

theorem block_assign (f : Form) (dst e : Expr) (o : Origin) :
    f.block [.assign dst e o] = [.assign (f.expr dst) (f.expr e) o] := by
  cases f
  · rfl
  · simp [block, expr, foldBlock, Stmt.fold, Stmt.mapExprs]

theorem block_forLoop (f : Form) (ty : Ty) (n : Name) (init cond incr : Expr) (body : List Stmt) (o : Origin) :
    f.block [.forLoop ty n init cond incr body o] =
      [.forLoop ty n (f.expr init) (f.expr cond) (f.expr incr) (f.block body) o] := by
  cases f
  · rfl
  · simp [block, expr, foldBlock, Stmt.fold]

theorem block_whileLoop (f : Form) (cond : Expr) (body : List Stmt) (o : Origin) :
    f.block [.whileLoop cond body o] = [.whileLoop (f.expr cond) (f.block body) o] := by
  cases f
  · rfl
  · simp [block, expr, foldBlock, Stmt.fold]

theorem block_scope (f : Form) (body : List Stmt) (o : Origin) :
    f.block [.scope body o] = [.scope (f.block body) o] := by
  cases f
  · rfl
  · simp [block, foldBlock, Stmt.fold]

theorem block_barrier (f : Form) (b : BarrierScope) (o : Origin) : f.block [.barrier b o] = [.barrier b o] := by
  cases f
  · rfl
  · simp [block, foldBlock, Stmt.fold, Stmt.mapExprs]

theorem block_fence (f : Form) (m : Space) (o : Origin) : f.block [.fence m o] = [.fence m o] := by
  cases f
  · rfl
  · simp [block, foldBlock, Stmt.fold, Stmt.mapExprs]

theorem block_atomic (f : Form) (op : Atomic) (m : Space) (s : Scalar) (target : Name) (idx v : Expr)
    (old : Option Name) (o : Origin) :
    f.block [.atomic op m s target idx v old o] = [.atomic op m s target (f.expr idx) (f.expr v) old o] := by
  cases f
  · rfl
  · simp [block, expr, foldBlock, Stmt.fold, Stmt.mapExprs]

theorem block_compareSwap (f : Form) (old : Name) (m : Space) (s : Scalar) (target : Name) (idx cmp new : Expr)
    (o : Origin) :
    f.block [.compareSwap old m s target idx cmp new o] =
      [.compareSwap old m s target (f.expr idx) (f.expr cmp) (f.expr new) o] := by
  cases f
  · rfl
  · simp [block, expr, foldBlock, Stmt.fold, Stmt.mapExprs]

theorem block_alloc (f : Form) (n : Name) (s : Scalar) (count : Expr) (o : Origin) :
    f.block [.alloc n s count o] = [.alloc n s (f.expr count) o] := by
  cases f
  · rfl
  · simp [block, expr, foldBlock, Stmt.fold, Stmt.mapExprs]

theorem block_free (f : Form) (n : Name) (o : Origin) : f.block [.free n o] = [.free n o] := by
  cases f
  · rfl
  · simp [block, foldBlock, Stmt.fold, Stmt.mapExprs]

theorem block_rebind (f : Form) (dst src : Name) (o : Origin) : f.block [.rebind dst src o] = [.rebind dst src o] := by
  cases f
  · rfl
  · simp [block, foldBlock, Stmt.fold, Stmt.mapExprs]

theorem block_copy (f : Form) (dst : Name) (i : Expr) (src : Name) (j k : Expr) (o : Origin) :
    f.block [.copy dst i src j k o] = [.copy dst (f.expr i) src (f.expr j) (f.expr k) o] := by
  cases f
  · rfl
  · simp [block, expr, foldBlock, Stmt.fold, Stmt.mapExprs]

theorem block_fill (f : Form) (n : Name) (i k v : Expr) (o : Origin) :
    f.block [.fill n i k v o] = [.fill n (f.expr i) (f.expr k) (f.expr v) o] := by
  cases f
  · rfl
  · simp [block, expr, foldBlock, Stmt.fold, Stmt.mapExprs]

theorem block_table (f : Form) (n : Name) (s : Scalar) (values : List Expr) (o : Origin) :
    f.block [.table n s values o] = [.table n s (values.map f.expr) o] := by
  cases f
  · change _ = [Stmt.table n s (values.map id) o]
    rw [List.map_id]
    rfl
  · have hm : Id.run (values.mapM fun e => (pure e.fold : Id Expr)) = values.map Expr.fold := List.idRun_mapM
    simp only [block, foldBlock, Stmt.fold, Stmt.mapExprs, List.append_nil]
    change [Stmt.table n s (Id.run (values.mapM fun e => (pure e.fold : Id Expr))) o] = _
    rw [hm]
    rfl

theorem block_launch (f : Form) (spec : LaunchSpec) (body : List Stmt) (o : Origin) :
    f.block [.launch spec body o] = [.launch (f.spec spec) (f.block body) o] := by
  cases f
  · rfl
  · simp [block, Form.spec, foldBlock, Stmt.fold]

end Form

end GpuHistogram
