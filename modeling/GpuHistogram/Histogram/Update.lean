/-
Updating a bucket while other threads do. An operator that combines one machine word with one machine operation is
updated by that operation; another operator on one word of 4 or 8 bytes by computing the new word and storing it if the
word has not changed meanwhile; and what is left under a lock. The locks form a table shared by all operators that need
one; a bucket is guarded by the lock at its address modulo the number of locks.

The statements of each method are functions of the names they use (`casLoop`, `lockedUpdate`); `Operator.updateCode`
draws fresh ones.
-/
import GpuHistogram.Histogram.Emit
import GpuHistogram.Histogram.Index

namespace GpuHistogram

/-- the content of a lock that nobody holds -/
def unlocked : Int := 0

/-- the content of a lock that somebody holds -/
def locked : Int := 1

/-- a table of locks -/
structure LockTable where
  name : Name
  count : Expr
  space : Space
  deriving DecidableEq, Inhabited

namespace LockTable

/-- a new table -/
def create (count : Expr) (space : Space) : Fresh LockTable :=
  return ⟨← fresh "locks", count, space⟩

/-- the lock that guards an address -/
def hash (t : LockTable) (addr : Expr) : Expr :=
  addr % t.count

/-- the bytes of so many locks -/
def bytes (count : Expr) : Expr :=
  count * .i64 Scalar.i32.bytes

end LockTable

/-- how a bucket is updated -/
inductive UpdateMethod where
  | primitive (op : Atomic)
  | compareSwap (s : Scalar)
  | locked (t : LockTable)
  deriving DecidableEq, Inhabited

/-- whether an expression is a variable of a given name -/
def Expr.isVar (n : Name) : Expr → Bool
  | .var m _ _ => m = n
  | _ => false

/-- the words that machine operations work on -/
def Scalar.hasAtomics : Scalar → Bool
  | .i32 | .u32 | .i64 | .u64 => true
  | _ => false

/-- the machine operation for a binary operator on words of a type -/
def Binary.atomic? (op : Binary) (s : Scalar) : Option Atomic :=
  match op with
  | .add => some .add
  | .min => some (if s.isSigned then .smin else .umin)
  | .max => some (if s.isSigned then .smax else .umax)
  | .bitAnd => some .and
  | .bitOr => some .or
  | .bitXor => some .xor
  | _ => none

/-- the machine operation that has the effect of combining the tuples `x` and `y` to `result` -/
def Expr.atomic? (result : Expr) (x y : Name) (s : Scalar) : Option Atomic :=
  match result with
  | .binary op lhs rhs _ _ =>
    let ordered := lhs.isVar x && rhs.isVar y
    let swapped := lhs.isVar y && rhs.isVar x && op.isCommutative
    if ordered || swapped then op.atomic? s else none
  | e => if e.isVar y then some .xchg else none

namespace Operator

/-- the machine operation with the effect of the operator -/
def primitive? (op : Operator) : Option Atomic :=
  match op.dests, op.combiner.params, op.combiner.results with
  | [d], [(x, _), (y, _)], [result] =>
    if op.combiner.body.isEmpty && d.elem.hasAtomics then result.atomic? x y d.elem else none
  | _, _, _ => none

/-- the type of the one word that the operator works on, if it can be compared and swapped -/
def swappable? (op : Operator) : Option Scalar :=
  match op.dests with
  | [d] => if d.elem.bytes = 4 ∨ d.elem.bytes = 8 then some d.elem else none
  | _ => none

/-- whether updates of the operator take a lock -/
def needsLock (op : Operator) : Bool :=
  op.primitive?.isNone && op.swappable?.isNone

/-- how buckets of the operator are updated; the table made for an earlier operator is used again -/
def chooseMethod (op : Operator) (table : Option LockTable) (create : Fresh LockTable) :
    Fresh (Option LockTable × UpdateMethod) :=
  match op.primitive?, op.swappable?, table with
  | some a, _, t => return (t, .primitive a)
  | none, some s, t => return (t, .compareSwap s)
  | none, none, some t => return (some t, .locked t)
  | none, none, none => do
    let t ← create
    return (some t, .locked t)

end Operator

/-- the methods of operators in order, from the table there is so far -/
def chooseMethodsFrom (table : Option LockTable) (create : Fresh LockTable) :
    List Operator → Fresh (Option LockTable × List UpdateMethod)
  | [] => return (table, [])
  | op :: rest => do
    let (table, u) ← op.chooseMethod table create
    let (table, us) ← chooseMethodsFrom table create rest
    return (table, u :: us)

/-- the methods of all operators, and the table of locks if one of them needs it -/
def chooseMethods (ops : List Operator) (create : Fresh LockTable) : Fresh (Option LockTable × List UpdateMethod) :=
  chooseMethodsFrom none create ops

/-- the variables of a loop that compares and swaps -/
structure CasNames where
  idx : Name
  y : Name
  assumed : Name
  old : Name
  x : Name
  done : Name

def CasNames.create : Fresh CasNames :=
  return ⟨← fresh "idx", ← fresh "y", ← fresh "assumed", ← fresh "old", ← fresh "x", ← fresh "done"⟩

/-- one attempt: combine the value with the word assumed to be in memory, and store the result if it still is -/
def casAttempt (ns : CasNames) (s : Scalar) (space : Space) (f : Combiner) (target : Name) : List Stmt :=
  let bits := s.bitPattern
  [ .bind ns.x ((Expr.scalarVar ns.assumed bits).sameBits s),
    f.apply [.scalarVar ns.x s, .scalarVar ns.y s] [ns.x],
    .compareSwap ns.old space s target (.ofName ns.idx) (.scalarVar ns.assumed bits)
      ((Expr.scalarVar ns.x s).sameBits bits) .unknown,
    .ifElse ((Expr.scalarVar ns.old bits).eq (.scalarVar ns.assumed bits))
      [.update ns.done (.truth true)] [.update ns.assumed (.scalarVar ns.old bits)] .unknown ]

/-- update one word by comparing and swapping until it works -/
def casLoop (ns : CasNames) (s : Scalar) (space : Space) (f : Combiner) (target : Name) (addr value : Expr) : List Stmt :=
  [ .bind ns.idx addr,
    .bind ns.y value,
    .bind ns.assumed ((Expr.element target s space (.ofName ns.idx)).sameBits s.bitPattern),
    .bind ns.done (.truth false),
    .whileLoop (.not (.typed ns.done .bool)) (casAttempt ns s space f target) .unknown ]

/-- the variables of an update under a lock -/
structure LockNames where
  idx : Name
  lock : Name
  prev : Name
  done : Name
  ys : List Name
  xs : List Name

/-- the variables of an update with so many values -/
def LockNames.create (count : Nat) : Fresh LockNames := do
  let idx ← fresh "idx"
  let lock ← fresh "lock"
  let prev ← fresh "prev"
  let done ← fresh "done"
  let ys ← (List.replicate count "y").mapM fresh
  let xs ← (List.replicate count "x").mapM fresh
  return ⟨idx, lock, prev, done, ys, xs⟩

/-- what is done while the lock is held: read the tuple, combine it, write it, and give the lock back -/
def criticalSection (ns : LockNames) (t : LockTable) (space : Space) (op : Operator) (targets : List Name) : List Stmt :=
  let places := ns.xs.zip (targets.zip op.scalars)
  let args := ((ns.xs ++ ns.ys).zip (op.scalars ++ op.scalars)).map fun (n, s) => Expr.scalarVar n s
  places.map (fun (x, target, s) => .bind x (.element target s space (.ofName ns.idx)))
    ++ [op.combiner.apply args ns.xs]
    ++ places.map (fun (x, target, s) => .store (.element target s space (.ofName ns.idx)) (.scalarVar x s))
    ++ [ .fence space .unknown,
         .atomic .xchg t.space .i32 t.name (.ofName ns.lock) (.literal unlocked .i32) none .unknown,
         .update ns.done (.truth true) ]

/-- one attempt to take the lock, and the update if it succeeds -/
def lockAttempt (ns : LockNames) (t : LockTable) (space : Space) (op : Operator) (targets : List Name) : List Stmt :=
  let bits := Scalar.i32.bitPattern
  [ .compareSwap ns.prev t.space .i32 t.name (.ofName ns.lock) (.literal unlocked bits) (.literal locked bits) .unknown,
    .ifThen ((Expr.scalarVar ns.prev bits).eq (.literal unlocked bits)) (criticalSection ns t space op targets) ]

/-- update a tuple under the lock of its address -/
def lockedUpdate (ns : LockNames) (t : LockTable) (space : Space) (op : Operator) (targets : List Name) (addr : Expr)
    (values : List Expr) : List Stmt :=
  [.bind ns.idx addr]
    ++ (ns.ys.zip values).map (fun (y, v) => .bind y v)
    ++ [ .bind ns.lock (t.hash (.ofName ns.idx)),
         .bind ns.done (.truth false),
         .whileLoop (.not (.typed ns.done .bool)) (lockAttempt ns t space op targets) .unknown ]

/-- update one word by a machine operation -/
def primitiveUpdate (a : Atomic) (space : Space) (s : Scalar) (target : Name) (addr value : Expr) : List Stmt :=
  [.atomic a space s target addr (value.castIfNeeded s) none .unknown]

/-- the statement that combines values into the tuple at an address of the target arrays -/
def Operator.updateCode (op : Operator) (method : UpdateMethod) (space : Space) (targets : List Name) (addr : Expr)
    (values : List Expr) : Gen Stmt :=
  match method, op.dests, targets, values with
  | .primitive a, d :: _, t :: _, v :: _ => return .block (primitiveUpdate a space d.elem t addr v)
  | .compareSwap s, _, t :: _, v :: _ => do
    let ns ← (CasNames.create : Gen CasNames)
    return .block (casLoop ns s space op.combiner t addr v)
  | .locked table, _, _, _ => do
    let ns ← (LockNames.create values.length : Gen LockNames)
    return .block (lockedUpdate ns table space op targets addr values)
  | _, _, _, _ => failure

end GpuHistogram
