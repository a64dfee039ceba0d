/-
Generating code. `Gen` draws fresh names and may get stuck where an operand is missing; `Emit` also collects the
statements of one list. A size that is known in advance is used as a literal, any other is computed once and bound to a
variable (`bindSize`).
-/
import GpuHistogram.Code.Build
import GpuHistogram.Code.Fold

namespace GpuHistogram

/-- draw fresh names, unless an operand is missing -/
abbrev Gen := StateT Nat Option

instance : MonadLift Fresh Gen := ⟨fun x next => some (x next)⟩

/-- generate statements of one list -/
abbrev Emit := StateT (List Stmt) Gen

namespace Emit

/-- add statements -/
def stmts (l : List Stmt) : Emit Unit :=
  modify (· ++ l)

/-- add a statement -/
def stmt (s : Stmt) : Emit Unit :=
  stmts [s]

/-- the statements that are generated -/
def collect (e : Emit Unit) : Gen (List Stmt) :=
  return (← e.run []).2

/-- an integer as a literal or as a new variable -/
def bindSize (label : String) (e : Expr) : Emit Expr :=
  match e.constant? with
  | some v => return .i64 v
  | none => do
    let n ← (fresh label : Gen Name)
    stmt (.bind n (e.castIfNeeded .i64))
    return .ofName n

end Emit

end GpuHistogram
