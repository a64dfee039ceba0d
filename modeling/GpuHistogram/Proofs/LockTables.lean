/-
One table of locks. The methods of all operators are chosen in order, and the table made for the first one that needs a
lock is handed on to the others. `chooseMethods_eq` says what this comes to: the table is made once if some operator needs
a lock and not at all otherwise, and the method of each operator depends on the operator and on that table only.

The bytes that are set aside for locks go by `Operator.needsLock`, the kernels by the methods. `locks_agree` shows that the
two agree on the code: nothing is set aside exactly if neither kernel takes a lock. A lock is taken in a loop inside
conditionals on variables, where folding leaves it (`Survives`), so this holds of the folded code too. `one_lock_table` is
all of it together.
-/
import GpuHistogram.Proofs.GlobalCode
import GpuHistogram.Proofs.LocalCode
import GpuHistogram.Proofs.NormalForm
import GpuHistogram.Proofs.Totality

namespace GpuHistogram

/-! ## Choosing methods -/

namespace Operator

variable {op : Operator} {t t' : LockTable} {create : Fresh LockTable} {k : ℕ}

/-- how buckets of the operator are updated without a lock, if they can be -/
def lockFree? (op : Operator) : Option UpdateMethod :=
  (op.primitive?.map .primitive).or (op.swappable?.map .compareSwap)

/-- how buckets of the operator are updated, with the table for those that need a lock -/
def methodWith (t : LockTable) (op : Operator) : UpdateMethod := op.lockFree?.getD (.locked t)

theorem needsLock_iff : op.needsLock = true ↔ op.lockFree? = none := by
  simp [needsLock, lockFree?]

theorem lockFree?_ne_locked : op.lockFree? ≠ some (.locked t) := by
  unfold lockFree?
  cases op.primitive? <;> cases op.swappable? <;> simp

theorem methodWith_eq_locked : op.methodWith t = .locked t' ↔ op.needsLock = true ∧ t' = t := by
  rw [needsLock_iff, methodWith]
  cases h : op.lockFree? with
  | none => simp [eq_comm]
  | some m =>
    have hm : m ≠ .locked t' := fun he => lockFree?_ne_locked (t := t') (he ▸ h)
    simp [hm]

theorem methodWith_of_lockFree (h : op.needsLock = false) (t t' : LockTable) : op.methodWith t = op.methodWith t' := by
  rw [methodWith, methodWith]
  cases hm : op.lockFree? with
  | none => exact absurd (needsLock_iff.2 hm) (by simp [h])
  | some m => rfl

theorem methodWith_suits (op : Operator) (t : LockTable) : (op.methodWith t).Suits op (some t) := by
  unfold methodWith lockFree?
  cases hp : op.primitive? with
  | some a => exact hp
  | none =>
    cases hs : op.swappable? with
    | some s => exact hs
    | none => exact rfl

/-- a table that there is is kept -/
theorem chooseMethod_some : op.chooseMethod (some t) create k = ((some t, op.methodWith t), k) := by
  unfold chooseMethod methodWith lockFree?
  cases op.primitive? <;> cases op.swappable? <;> rfl

/-- without a table one is made if the operator needs a lock -/
theorem chooseMethod_none (t : LockTable) : op.chooseMethod none create k =
    if op.needsLock then ((some (create k).1, op.methodWith (create k).1), (create k).2)
    else ((none, op.methodWith t), k) := by
  unfold chooseMethod methodWith lockFree? needsLock
  cases op.primitive? <;> cases op.swappable? <;> rfl

end Operator

variable {create : Fresh LockTable} {ops : List Operator} {k : ℕ}

theorem chooseMethodsFrom_cons (table : Option LockTable) (op : Operator) :
    chooseMethodsFrom table create (op :: ops) k =
      let r := op.chooseMethod table create k
      let r' := chooseMethodsFrom r.1.1 create ops r.2
      ((r'.1.1, r.1.2 :: r'.1.2), r'.2) := rfl

/-- once there is a table no other is made -/
theorem chooseMethodsFrom_some (t : LockTable) :
    chooseMethodsFrom (some t) create ops k = ((some t, ops.map (·.methodWith t)), k) := by
  induction ops with
  | nil => rfl
  | cons op ops ih => simp only [chooseMethodsFrom_cons, Operator.chooseMethod_some, ih, List.map_cons]

/-- the table is made for the first operator that needs a lock, and used for all others -/
theorem chooseMethods_eq (ops : List Operator) (create : Fresh LockTable) (k : ℕ) (t : LockTable) :
    chooseMethods ops create k =
      if ops.any Operator.needsLock then ((some (create k).1, ops.map (·.methodWith (create k).1)), (create k).2)
      else ((none, ops.map (·.methodWith t)), k) := by
  unfold chooseMethods
  induction ops with
  | nil => rfl
  | cons op ops ih =>
    rw [chooseMethodsFrom_cons, Operator.chooseMethod_none t, List.any_cons]
    cases hop : op.needsLock with
    | true => simp only [if_true, chooseMethodsFrom_some, Bool.true_or, List.map_cons]
    | false =>
      simp only [Bool.false_eq_true, if_false, Bool.false_or, ih]
      split
      · simp only [List.map_cons, op.methodWith_of_lockFree hop t (create k).1]
      · rfl

/-! ## Where folding leaves a statement -/

/-- a statement that satisfies `P` is among the statements, inside nothing but loops, blocks and conditionals that are
decided when the code runs -/
inductive Survives (P : Stmt → Prop) : List Stmt → Prop
  | here {s : Stmt} (h : P s) : Survives P [s]
  | left {l l' : List Stmt} (h : Survives P l) : Survives P (l ++ l')
  | right {l l' : List Stmt} (h : Survives P l') : Survives P (l ++ l')
  | thn {cond : Expr} {thn els : List Stmt} {o : Origin} (hc : cond.fold.isTruth = false) (h : Survives P thn) :
    Survives P [.ifElse cond thn els o]
  | forLoop {ty : Ty} {n : Name} {init cond incr : Expr} {body : List Stmt} {o : Origin} (h : Survives P body) :
    Survives P [.forLoop ty n init cond incr body o]
  | whileLoop {cond : Expr} {body : List Stmt} {o : Origin} (h : Survives P body) : Survives P [.whileLoop cond body o]
  | scope {body : List Stmt} {o : Origin} (h : Survives P body) : Survives P [.scope body o]

theorem mem_blockDeepNodes_append {s : Stmt} {l l' : List Stmt} :
    s ∈ blockDeepNodes (l ++ l') ↔ s ∈ blockDeepNodes l ∨ s ∈ blockDeepNodes l' := by
  induction l with
  | nil => simp
  | cons x l ih => simp only [List.cons_append, blockDeepNodes, List.mem_append, ih, or_assoc]

theorem Form.block_ifElse (f : Form) {cond : Expr} (hc : cond.fold.isTruth = false) (thn els : List Stmt) (o : Origin) :
    f.block [.ifElse cond thn els o] = [.ifElse (f.expr cond) (f.block thn) (f.block els) o] := by
  cases f with
  | plain => rfl
  | folded =>
    simp only [Form.block, foldBlock, Stmt.fold, List.append_nil]
    split
    · next h => exact absurd hc (by simp [h, Expr.isTruth])
    · next h => exact absurd hc (by simp [h, Expr.isTruth])
    · rfl

/-- a statement that survives is in the folded code too, with its expressions folded -/
theorem Survives.exists_mem {P : Stmt → Prop} {l : List Stmt} (h : Survives P l) (f : Form)
    (hP : ∀ s, P s → ∃ s', f.block [s] = [s'] ∧ P s') : ∃ s ∈ blockDeepNodes (f.block l), P s := by
  induction h with
  | @here s h =>
    obtain ⟨s', hs, h'⟩ := hP s h
    rw [hs]
    exact ⟨s', by cases s' <;> simp, h'⟩
  | left h ih =>
    obtain ⟨s, hs, h'⟩ := ih
    exact ⟨s, by rw [f.block_append]; exact mem_blockDeepNodes_append.2 (.inl hs), h'⟩
  | right h ih =>
    obtain ⟨s, hs, h'⟩ := ih
    exact ⟨s, by rw [f.block_append]; exact mem_blockDeepNodes_append.2 (.inr hs), h'⟩
  | thn hc h ih =>
    obtain ⟨s, hs, h'⟩ := ih
    exact ⟨s, by rw [f.block_ifElse hc]; simp [hs], h'⟩
  | forLoop h ih =>
    obtain ⟨s, hs, h'⟩ := ih
    exact ⟨s, by rw [f.block_forLoop]; simp [hs], h'⟩
  | whileLoop h ih =>
    obtain ⟨s, hs, h'⟩ := ih
    exact ⟨s, by rw [f.block_whileLoop]; simp [hs], h'⟩
  | scope h ih =>
    obtain ⟨s, hs, h'⟩ := ih
    exact ⟨s, by rw [f.block_scope]; simp [hs], h'⟩

theorem Survives.cons {P : Stmt → Prop} {s : Stmt} {l : List Stmt} (h : Survives P l) : Survives P (s :: l) :=
  .right (l := [s]) h

namespace Expr

/-- the comparison of a variable is decided when the code runs -/
theorem isTruth_fold_comparison {op : Binary} (hop : op.isComparison = true) (n : Name) (e : Expr) :
    (op2 op (ofName n) e).fold.isTruth = false := by
  have hlogical : op.isLogical = false := by cases op <;> first | rfl | cases hop
  have hnumber : ∀ a b, op.number? a b = none := by cases op <;> first | (intro a b; rfl) | cases hop
  have hfolds := foldsTo_foldBinary op (ofName n).fold e.fold (op2 op (ofName n) e).ty .unknown hlogical
  change FoldsTo _ _ _ _ _ (op2 op (ofName n) e).fold at hfolds
  generalize (op2 op (ofName n) e).fold = x at hfolds
  cases hfolds with
  | node => rfl
  | words hl => cases hl
  | left hk hn => exact absurd ((hnumber 0 _).symm.trans (hn 0)) (by simp)
  | right hk => cases hk
  | zero => rfl

/-- a conjunction is decided when the code runs if both of its parts are -/
theorem isTruth_fold_and {l r : Expr} (hl : l.fold.isTruth = false) (hr : r.fold.isTruth = false) :
    (l.and r).fold.isTruth = false := by
  change (foldBinary .and l.fold r.fold .bool .unknown).isTruth = false
  generalize l.fold = x at hl
  generalize r.fold = y at hr
  unfold foldBinary
  split
  · rfl
  · unfold foldMixed
    split
    · cases hl
    · cases hl
    · cases hl
    · cases hr
    · split <;> rfl

end Expr

/-! ## Locks that are taken -/

/-- trying to take a lock of a table: if it is free it is held from then on -/
inductive LockTable.Tries (t : LockTable) : Stmt → Prop
  | mk (prev : Name) (s : Scalar) (idx : Expr) (o : Origin) : t.Tries
      (.compareSwap prev t.space .i32 t.name idx (.literal unlocked s) (.literal locked s) o)

theorem LockTable.Tries.block {t : LockTable} {s : Stmt} (h : t.Tries s) (f : Form) :
    ∃ s', f.block [s] = [s'] ∧ t.Tries s' := by
  obtain ⟨prev, s, idx, o⟩ := h
  refine ⟨_, f.block_compareSwap .., ?_⟩
  have hliteral (v : Int) : f.expr (.literal v s) = .literal v s := by cases f <;> rfl
  rw [hliteral, hliteral]
  exact .mk ..

variable {t : LockTable}

/-- an update under a lock tries to take it -/
theorem lockedUpdate_survives (ns : LockNames) (t : LockTable) (space : Space) (op : Operator) (targets : List Name)
    (addr : Expr) (values : List Expr) : Survives t.Tries [.block (lockedUpdate ns t space op targets addr values)] := by
  have hattempt : Survives t.Tries (lockAttempt ns t space op targets) :=
    .left (l := [_]) (.here (.mk ns.prev Scalar.i32.bitPattern (.ofName ns.lock) .unknown))
  exact .scope (.right (.cons (.cons (.whileLoop hattempt))))

/-! ## Code that launches a kernel -/

variable {α : Type}

/-- some kernel that is launched on the way tries to take a lock of the table -/
def Locking (t : LockTable) (l : List Stmt) : Prop :=
  ∃ lb spec body lf, l = lb ++ ([.launch spec body .unknown] ++ lf) ∧ Survives t.Tries body

theorem Locking.left {l : List Stmt} (h : Locking t l) (l' : List Stmt) : Locking t (l ++ l') := by
  obtain ⟨lb, spec, body, lf, rfl, hbody⟩ := h
  exact ⟨lb, spec, body, lf ++ l', by simp only [List.append_assoc], hbody⟩

theorem Locking.right {l : List Stmt} (h : Locking t l) (l' : List Stmt) : Locking t (l' ++ l) := by
  obtain ⟨lb, spec, body, lf, rfl, hbody⟩ := h
  exact ⟨l' ++ lb, spec, body, lf, by simp only [List.append_assoc], hbody⟩

/-- code that follows other code -/
theorem Locking.after {β : Type} {E : Emit α} {F : α → Emit β} {P : α → Prop} {k : ℕ} (h : Writes E k fun a _ _ => P a)
    (hF : ∀ a k', P a → Writes (F a) k' fun _ l _ => Locking t l) : Writes (E >>= F) k fun _ l _ => Locking t l :=
  .bind h fun a l k' ha => (hF a k' ha).mono fun _ _ _ hl => hl.right l

/-- code that other code follows -/
theorem Locking.before {β : Type} {E : Emit α} {F : α → Emit β} {k : ℕ} (h : Writes E k fun _ l _ => Locking t l)
    (hF : ∀ a k', Writes (F a) k' fun _ _ _ => True) : Writes (E >>= F) k fun _ l _ => Locking t l :=
  .bind h fun a _ k' hl => (hF a k').mono fun _ l' _ _ => hl.left l'

/-- some kernel that is launched tries to take a lock of the table, if there is one -/
def TakesLocks (table : Option LockTable) (l : List Stmt) : Prop :=
  ∃ t ∈ table, ∃ κ ∈ blockKernels l, ∃ s ∈ blockDeepNodes κ.body, t.Tries s

theorem Locking.takesLocks {l : List Stmt} (h : Locking t l) (f : Form) : TakesLocks (some t) (f.block l) := by
  obtain ⟨lb, spec, body, lf, rfl, hbody⟩ := h
  obtain ⟨s, hs, ht⟩ := hbody.exists_mem f fun s hs => hs.block f
  refine ⟨t, rfl, ⟨f.spec spec, f.block body⟩, ?_, s, hs, ht⟩
  rw [f.block_append, f.block_append, f.block_launch]
  simp [Stmt.kernels]

/-- what holds of the statements that a generator adds holds of those that are collected -/
theorem Writes.of_collect {E : Emit Unit} {k j : ℕ} {P : Unit → List Stmt → ℕ → Prop} (h : Writes E k P) {l : List Stmt}
    (hrun : Emit.collect E k = some (l, j)) : P () l j := by
  change (E [] k).bind (fun r => some (r.1.2, r.2)) = _ at hrun
  obtain ⟨⟨⟨_, l₁⟩, k₁⟩, h₁, h₂⟩ := Option.bind_eq_some_iff.1 hrun
  cases h₂
  obtain ⟨l, rfl, hp⟩ := h [] () _ _ h₁
  exact hp

theorem Writes.anything {E : Emit α} {k : ℕ} {P : α → List Stmt → ℕ → Prop} (h : Writes E k P) :
    Writes E k fun _ _ _ => True := h.mono fun _ _ _ _ => trivial

namespace Plan

variable {p : Plan}

/-- what survives in an update survives in the code for its bucket -/
theorem bucketUpdate_survives {P : Stmt → Prop} {u : Stmt} (h : Survives P [u]) (q : Part) (n : Name) :
    Survives P (bucketUpdate q n u) := by
  have hloops (dims : List (Name × Expr)) : Survives P (Machine.loops dims [u]) := by
    induction dims with
    | nil => exact h
    | cons d dims ih => exact .forLoop ih
  refine .cons (.thn (Expr.isTruth_fold_and ?_ ?_) (hloops _))
  · exact Expr.isTruth_fold_comparison rfl n 0
  · exact Expr.isTruth_fold_comparison rfl n q.width

/-- what survives in the update of some operator survives in the code for the buckets -/
theorem bucketUpdates_survives {P : Stmt → Prop} {G : Part × α → Prop} {update : Part → α → Expr → Gen Stmt}
    {parts : List (Part × α)} (h : ∀ x ∈ parts, ∀ n, Gives (update x.1 x.2 (.ofName n)) fun u => G x → Survives P [u]) :
    Gives (bucketUpdates update parts) fun l => (∃ x ∈ parts, G x) → Survives P l := by
  induction parts with
  | nil => exact .pure fun ⟨x, hx, _⟩ => absurd hx List.not_mem_nil
  | cons x parts ih =>
    obtain ⟨hx, hparts⟩ := List.forall_mem_cons.1 h
    refine .bind (.names _) fun n _ => .bind (hx n) fun u hu => .bind (ih hparts) fun rest hrest => .pure ?_
    rintro ⟨y, hy, hG⟩
    rcases List.mem_cons.1 hy with rfl | hy
    · exact .left (bucketUpdate_survives (hu hG) _ n)
    · exact .right (hrest ⟨y, hy, hG⟩)

theorem element_survives {P : Stmt → Prop} {G : Part × α → Prop} {update : Part → α → Expr → Gen Stmt}
    {parts : List (Part × α)} (segment index : Expr)
    (h : ∀ x ∈ parts, ∀ n, Gives (update x.1 x.2 (.ofName n)) fun u => G x → Survives P [u]) :
    Gives (p.element segment index parts update) fun l => (∃ x ∈ parts, G x) → Survives P l :=
  .bind (.names _) fun _ _ => .bind (bucketUpdates_survives h) fun _ hu => .pure fun hG => .right (hu hG)

/-- the update of an operator that needs a lock tries to take one of the table -/
theorem updateCode_survives {op : Operator} {method : UpdateMethod} {table : Option LockTable} (hm : method.Suits op table)
    (space : Space) {targets : List Name} (ht : targets.length = op.dests.length) (addr : Expr) {values : List Expr}
    (hv : values.length = op.dests.length) : Gives (op.updateCode method space targets addr values) fun u =>
      method = .locked t → Survives t.Tries [u] := by
  refine (updateCode_gives hm space ht addr hv).mono ?_
  rintro u ⟨k, k', hu⟩ rfl
  cases hu
  exact lockedUpdate_survives ..

/-! ## The kernels -/

theorem localBody_survives (shape : LocalShape) {table : Option LockTable} {parts : List (Part × LocalPart)}
    (hparts : ∀ x ∈ parts, x.1.Aligned ∧ x.2.method.Suits x.1.op table ∧ x.2.blocks.length = x.1.op.dests.length) :
    Gives (p.localBody shape table parts) fun body => (∃ x ∈ parts, x.2.method = .locked t) → Survives t.Tries body := by
  unfold localBody
  refine .bind (.names _) fun ns _ => .bind (.names _) fun init _ => .bind (.names _) fun locks _ =>
    .bind (.names _) fun sw _ =>
      .bind (element_survives (P := t.Tries) (G := fun x => x.2.method = .locked t) _ _ ?_) fun element he =>
      .bind (.names _) fun compact _ => .bind (.names _) fun publish _ => .pure fun hG => ?_
  · intro x hx n
    obtain ⟨hq, hm, hblocks⟩ := hparts x hx
    exact updateCode_survives hm _ hblocks _ hq.values
  · have hsweep : Survives t.Tries (p.sweep ns shape sw element) :=
      .cons (.cons (.forLoop (.cons (.thn (Expr.isTruth_fold_comparison rfl _ _) (he hG)))))
    exact .left (.left (.left (.left (.right hsweep))))

theorem launchLocal_locks (shape : LocalShape) (table : Option LockTable) {parts : List (Part × LocalPart)}
    (hparts : ∀ x ∈ parts, x.1.Aligned ∧ x.2.method.Suits x.1.op table ∧ x.2.blocks.length = x.1.op.dests.length)
    (hG : ∃ x ∈ parts, x.2.method = .locked t) (k : ℕ) :
    Writes (p.launchLocal shape table parts) k fun _ l _ => Locking t l := by
  refine .bind (P := fun body l _ => l = [] ∧ Survives t.Tries body) (.lift fun body k' hrun => ⟨rfl, ?_⟩) ?_
  · obtain ⟨body', k'', hrun', hbody⟩ := localBody_survives (p := p) (t := t) shape hparts k
    cases hrun.symm.trans hrun'
    exact hbody hG
  · rintro body _ k' ⟨rfl, hbody⟩
    refine .bind (P := fun κ l _ => l = [] ∧ κ.body = body) (.lift fun κ k'' hκ => ⟨rfl, ?_⟩) ?_
    · cases hκ
      rfl
    · rintro κ _ k'' ⟨rfl, rfl⟩
      exact .stmt ⟨[], κ.toLaunchSpec, κ.body, [], rfl, hbody⟩

theorem launchGlobal_locks (ns : GlobalNames) (table : Option LockTable) {parts : List GlobalPart} (chunk : Expr)
    (hparts : ∀ x ∈ p.parts.zip parts, x.1.Aligned ∧ x.2.method.Suits x.1.op table)
    (hG : ∃ x ∈ p.parts.zip parts, x.2.method = .locked t) (k : ℕ) :
    Writes (p.launchGlobal ns parts chunk) k fun _ l _ => Locking t l := by
  have helement : Gives (p.element (.ofName ns.segment) (.ofName ns.flat % p.elements) (p.parts.zip parts)
      (globalUpdate ns)) fun l => (∃ x ∈ p.parts.zip parts, x.2.method = .locked t) → Survives t.Tries l :=
    element_survives _ _ fun x hx n => updateCode_survives (hparts x hx).2 _ (hparts x hx).1.subs _ (hparts x hx).1.values
  refine .bind (P := fun element l _ => l = [] ∧ Survives t.Tries element) (.lift fun element k' hrun => ⟨rfl, ?_⟩) ?_
  · obtain ⟨element', k'', hrun', he⟩ := helement k
    cases hrun.symm.trans hrun'
    exact he hG
  · rintro element _ k' ⟨rfl, he⟩
    have hbody : Survives t.Tries (p.globalBody ns parts chunk element) :=
      .right (.forLoop (.cons (.thn (Expr.isTruth_fold_comparison rfl _ _) (.cons he))))
    refine .bind (P := fun κ l _ => l = [] ∧ κ.body = p.globalBody ns parts chunk element)
      (.lift fun κ k'' hκ => ⟨rfl, ?_⟩) ?_
    · cases hκ
      rfl
    · rintro κ _ k'' ⟨rfl, hκ⟩
      exact .stmt ⟨[], κ.toLaunchSpec, κ.body, [], rfl, hκ ▸ hbody⟩

theorem length_of_mapM {β γ : Type} {G : β → Emit γ} {l : List β} {k : ℕ}
    (h : ∀ b k', WritesQuiet 0 (G b) k' fun _ _ => True) : Writes (l.mapM G) k fun cs _ _ => cs.length = l.length :=
  Writes.mono (WritesQuiet.mapM (R := fun _ _ => True) l fun b k' _ => h b k') fun _ _ _ ⟨_, _, hlen⟩ =>
    hlen.length_eq.symm

/-- the table of locks of the kernel in local memory, when the next symbol is `k` -/
def localTable (p : Plan) (k : ℕ) : Option LockTable :=
  (chooseMethods p.operators (LockTable.create .localSize .shared) k).1.1

/-- the table of locks of the kernel in global memory, when the next symbol is `k` -/
def globalTable (p : Plan) (k : ℕ) : Option LockTable :=
  (chooseMethods p.operators (LockTable.create (.i64 p.lockCount) .device) k).1.1

/-- the methods of parts stand beside them -/
theorem mem_zip_methods {q : Part} {m : UpdateMethod} (h : (q, m) ∈ p.parts.zip (p.operators.map (·.methodWith t))) :
    m = q.op.methodWith t := by
  obtain ⟨i, hi⟩ := List.mem_iff_getElem?.1 h
  obtain ⟨hq, hm⟩ := List.getElem?_zip_eq_some.1 hi
  rw [operators, List.map_map, List.getElem?_map, hq] at hm
  exact (Option.some.inj hm).symm

/-- a part whose operator needs a lock, among parts that are given their methods -/
theorem exists_locked {β : Type} {parts : List (Part × β)} {method : β → UpdateMethod}
    (hfst : parts.map (·.1) = p.parts) (hmethod : ∀ x ∈ parts, method x.2 = x.1.op.methodWith t)
    (hneed : p.operators.any Operator.needsLock = true) : ∃ x ∈ parts, method x.2 = .locked t := by
  obtain ⟨op, hop, hlock⟩ := List.any_eq_true.1 hneed
  obtain ⟨q, hq, rfl⟩ := List.mem_map.1 hop
  rw [← hfst] at hq
  obtain ⟨x, hx, rfl⟩ := List.mem_map.1 hq
  exact ⟨x, hx, (hmethod x hx).trans (Operator.methodWith_eq_locked.2 ⟨hlock, rfl⟩)⟩

/-- if some operator needs a lock, a kernel in local memory takes one -/
theorem localCode_locks (halign : ∀ q ∈ p.parts, q.Aligned) (hneed : p.operators.any Operator.needsLock = true)
    (copies : Expr) (k : ℕ) :
    ∃ t, p.localTable k = some t ∧ Writes (p.localCode copies) k fun _ l _ => Locking t l := by
  have hchoose := chooseMethods_eq p.operators (LockTable.create .localSize .shared) k default
  rw [if_pos hneed] at hchoose
  generalize (LockTable.create .localSize .shared k).1 = t at hchoose
  refine ⟨t, by rw [localTable, hchoose], ?_⟩
  rw [localCode_eq]
  refine Locking.after (P := fun x => x = (some t, p.operators.map (·.methodWith t))) (.lift fun x k' hx => ?_) ?_
  · cases hchoose.symm.trans (Option.some.inj hx)
    rfl
  rintro _ k₁ rfl
  refine Locking.after (Writes.bindSize _ _ _).anything fun slots k₂ _ => ?_
  refine Locking.after (Writes.bindSize _ _ _).anything fun perSegment k₃ _ => ?_
  refine Locking.after (allocate_writes _ (Nat.le_refl _)).anything fun _ k₄ _ => ?_
  refine Locking.before ?_ fun _ k₅ => (finish_writes _).anything
  refine Locking.after (P := List.Forall₂ (fun q ns => ns.length = q.subs.dests.length) p.parts) ?_ fun blocks k₆ hb => ?_
  · intro l₀ bs l₁ k' hrun
    obtain ⟨blocks, k'', hrun', -, hlen, -⟩ := nameBlocks_spec p.parts k₄
    cases (hrun' l₀).symm.trans hrun
    exact ⟨[], (List.append_nil _).symm, hlen⟩
  have hmethods : (p.operators.map (·.methodWith t)).length = p.parts.length := by simp [operators]
  obtain ⟨hfst, hblocks⟩ := map_fst_parts hmethods hb
  have hmethod (x : Part × LocalPart) (hx : x ∈ localParts p.parts (p.operators.map (·.methodWith t)) blocks) :
      x.2.method = x.1.op.methodWith t := mem_zip_methods (method_localParts hx)
  refine launchLocal_locks _ (some t) (fun x hx => ?_) (exists_locked hfst hmethod hneed) k₆
  have hq := halign x.1 (hfst ▸ List.mem_map.2 ⟨x, hx, rfl⟩)
  exact ⟨hq, hmethod x hx ▸ x.1.op.methodWith_suits t, (hblocks x hx).trans (congrArg List.length hq.dests)⟩

/-- if some operator needs a lock, the kernel in global memory takes one -/
theorem globalCode_locks (halign : ∀ q ∈ p.parts, q.Aligned) (hneed : p.operators.any Operator.needsLock = true) (k : ℕ) :
    ∃ t, p.globalTable k = some t ∧ Writes p.globalCode k fun _ l _ => Locking t l := by
  have hchoose := chooseMethods_eq p.operators (LockTable.create (.i64 p.lockCount) .device) k default
  rw [if_pos hneed] at hchoose
  generalize (LockTable.create (.i64 p.lockCount) .device k).1 = t at hchoose
  refine ⟨t, by rw [globalTable, hchoose], ?_⟩
  rw [globalCode_eq]
  refine Locking.after (P := fun x => x = (some t, p.operators.map (·.methodWith t))) (.lift fun x k' hx => ?_) ?_
  · cases hchoose.symm.trans (Option.some.inj hx)
    rfl
  rintro _ k₁ rfl
  -- every part has a number of copies, a number of threads that share one, and a variable for the copy of a thread
  refine Locking.after (P := fun counts => counts.length = p.parts.length)
    (length_of_mapM fun q k' => .bindSize _ _ (Nat.zero_le k')) fun counts k₂ hcounts => ?_
  refine Locking.after (P := fun shares => shares.length = counts.length)
    (length_of_mapM fun c k' => .bindSize _ _ (Nat.zero_le k')) fun shares k₃ hshares => ?_
  refine Locking.after (allocate_writes _ (Nat.le_refl _)).anything fun _ k₄ _ => ?_
  refine Locking.after (P := fun _ => True) (Writes.stmts trivial) fun _ k₅ _ => ?_
  refine Locking.after (Writes.bindSize _ _ _).anything fun chunk k₆ _ => ?_
  refine Locking.after (P := fun _ => True) (.lift fun _ _ _ => trivial) fun ns k₇ _ => ?_
  refine Locking.after (P := fun copies => copies.length = counts.length) (length_of_mapM fun c k' => ?_)
    fun copies k₈ hcopies => ?_
  · exact .lift fun n k'' hn => by
      cases hn
      exact ⟨Nat.le_succ k', trivial⟩
  refine Locking.before ?_ fun _ k₉ => .bind (finish_writes _).anything fun _ _ _ _ => .stmt trivial
  have hmethods : (p.operators.map (·.methodWith t)).length = p.parts.length := by simp [operators]
  obtain ⟨hfst, -, -⟩ := zip_globalParts hmethods hcounts (hshares.trans hcounts) (hcopies.trans hcounts)
  have hmethod (x : Part × GlobalPart)
      (hx : x ∈ p.parts.zip (globalParts (p.operators.map (·.methodWith t)) counts shares copies)) :
      x.2.method = x.1.op.methodWith t := mem_zip_methods (mem_globalParts hx).1
  refine launchGlobal_locks ns (some t) chunk (fun x hx => ?_) (exists_locked hfst hmethod hneed) k₈
  exact ⟨halign x.1 (List.of_mem_zip hx).1, hmethod x hx ▸ x.1.op.methodWith_suits t⟩

/-! ## One table -/

/-- nothing is set aside for locks exactly if no operator needs one -/
theorem lockBytes_eq_zero : p.lockBytes = 0 ↔ p.operators.any Operator.needsLock = false := by
  unfold lockBytes
  cases p.operators.any Operator.needsLock with
  | true => exact iff_of_false (fun h => by cases h) (by simp)
  | false => exact iff_of_true rfl rfl

/-- without operators that need a lock there is no table -/
theorem table_eq_none (hneed : p.operators.any Operator.needsLock = false) (create : Fresh LockTable) (k : ℕ) :
    (chooseMethods p.operators create k).1.1 = none := by
  rw [chooseMethods_eq p.operators create k default, hneed]
  rfl

/-- both ways of accumulating get through, and each kernel takes locks exactly if bytes are set aside for them -/
theorem locks_agree (halign : ∀ q ∈ p.parts, q.Aligned) (copies : Expr) (k k' : ℕ) :
    ∃ inLocal j inGlobal j', Emit.collect (p.localCode copies) k = some (inLocal, j) ∧
      Emit.collect p.globalCode k' = some (inGlobal, j') ∧ ∀ f : Form,
        (p.lockBytes = 0 ↔ ¬ TakesLocks (p.localTable k) (f.block inLocal)) ∧
        (p.lockBytes = 0 ↔ ¬ TakesLocks (p.globalTable k') (f.block inGlobal)) := by
  have hcopies : False → copies.Words := False.elim
  obtain ⟨inLocal, j, hlocal, -⟩ := (localCode_words halign False.elim hcopies).collect k
  obtain ⟨inGlobal, j', hglobal, -⟩ := (globalCode_words (W := False) halign False.elim).collect k'
  refine ⟨inLocal, j, inGlobal, j', hlocal, hglobal, fun f => ?_⟩
  rw [lockBytes_eq_zero]
  cases hneed : p.operators.any Operator.needsLock with
  | false =>
    have hnone (create : Fresh LockTable) (k : ℕ) (l : List Stmt) :
        ¬ TakesLocks (chooseMethods p.operators create k).1.1 l := by
      rintro ⟨t, ht, -⟩
      rw [table_eq_none hneed] at ht
      cases ht
    exact ⟨iff_of_true rfl (hnone _ _ _), iff_of_true rfl (hnone _ _ _)⟩
  | true =>
    obtain ⟨t, ht, hwrites⟩ := localCode_locks halign hneed copies k
    obtain ⟨t', ht', hwrites'⟩ := globalCode_locks halign hneed k'
    have hl : TakesLocks (p.localTable k) (f.block inLocal) := ht ▸ (hwrites.of_collect hlocal).takesLocks f
    have hg : TakesLocks (p.globalTable k') (f.block inGlobal) := ht' ▸ (hwrites'.of_collect hglobal).takesLocks f
    exact ⟨iff_of_false (by simp) (not_not.2 hl), iff_of_false (by simp) (not_not.2 hg)⟩

end Plan

namespace Histogram

/-- **One table of locks, and it is accounted for.**
- Choosing the methods of operators makes the table once if some operator needs a lock, and returns it; otherwise it makes
  and returns none. There is one method for each operator in order.
- The method of an operator is to take a lock exactly if it needs one, and then of that table; any other method depends on
  the operator only.
- The code of a histogram is generated for both placements, whatever the names drawn before. The bytes set aside for
  locks are the literal zero exactly if neither kernel takes a lock of a table, as generated and folded, and one kernel
  takes locks exactly if the other does. -/
theorem one_lock_table :
    (∀ (ops : List Operator) (create : Fresh LockTable) (k : ℕ) (t : LockTable), chooseMethods ops create k =
      if ops.any Operator.needsLock then ((some (create k).1, ops.map (·.methodWith (create k).1)), (create k).2)
      else ((none, ops.map (·.methodWith t)), k)) ∧
    (∀ (op : Operator) (t t' : LockTable), (op.methodWith t = .locked t' ↔ op.needsLock = true ∧ t' = t) ∧
      (op.needsLock = false → op.methodWith t = op.methodWith t')) ∧
    ∀ (h : Histogram) (o : Options), h.validate = .ok () → ∀ k, ∃ p l k', h.plan o [] k = some ((p, l), k') ∧
      p.operators = h.operators ∧ ∀ (copies : Expr) (k₁ k₂ : ℕ), ∃ inLocal j₁ inGlobal j₂,
        Emit.collect (p.localCode copies) k₁ = some (inLocal, j₁) ∧ Emit.collect p.globalCode k₂ = some (inGlobal, j₂) ∧
        ∀ f : Form,
          (p.lockBytes = 0 ↔ ¬ TakesLocks (p.localTable k₁) (f.block inLocal) ∧
            ¬ TakesLocks (p.globalTable k₂) (f.block inGlobal)) ∧
          (TakesLocks (p.localTable k₁) (f.block inLocal) ↔ TakesLocks (p.globalTable k₂) (f.block inGlobal)) := by
  refine ⟨chooseMethods_eq, fun op t t' => ⟨op.methodWith_eq_locked, fun h => op.methodWith_of_lockFree h t t'⟩, ?_⟩
  intro h o hv k
  obtain ⟨p, l, k', hplan, -, halign, -⟩ := plan_words (W := False) (o := o) hv False.elim False.elim [] k
  refine ⟨p, l, k', hplan, halign.operators, fun copies k₁ k₂ => ?_⟩
  obtain ⟨inLocal, j₁, inGlobal, j₂, hlocal, hglobal, hagree⟩ := p.locks_agree halign.parts copies k₁ k₂
  refine ⟨inLocal, j₁, inGlobal, j₂, hlocal, hglobal, fun f => ?_⟩
  obtain ⟨hl, hg⟩ := hagree f
  exact ⟨⟨fun h0 => ⟨hl.1 h0, hg.1 h0⟩, fun h0 => hl.2 h0.1⟩, not_iff_not.1 (hl.symm.trans hg)⟩

/-- the operator on two arrays needs a lock, and both kernels take it -/
theorem one_lock_table_greatestRoots : greatestRoots.validate = .ok () ∧
    ∃ p l k', greatestRoots.plan {} [] 0 = some ((p, l), k') ∧ p.lockBytes ≠ 0 ∧ ∃ inLocal j₁ inGlobal j₂,
      Emit.collect (p.localCode 2) k' = some (inLocal, j₁) ∧ Emit.collect p.globalCode j₁ = some (inGlobal, j₂) ∧
      TakesLocks (p.localTable k') (foldBlock inLocal) ∧ TakesLocks (p.globalTable j₁) (foldBlock inGlobal) := by
  have hv : greatestRoots.validate = .ok () := rfl
  obtain ⟨p, l, k', hplan, hops, hcode⟩ := one_lock_table.2.2 greatestRoots {} hv 0
  have hbytes : p.lockBytes ≠ 0 := fun h0 => by
    rw [Plan.lockBytes_eq_zero, hops] at h0
    cases h0
  -- the code in local memory is generated first, and the other begins with the next symbol
  obtain ⟨inLocal, j₁, -, -, hlocal, -, -⟩ := hcode 2 k' 0
  obtain ⟨inLocal', j₁', inGlobal, j₂, hlocal', hglobal, hagree⟩ := hcode 2 k' j₁
  cases hlocal.symm.trans hlocal'
  obtain ⟨hzero, hiff⟩ := hagree .folded
  have htakes : TakesLocks (p.localTable k') (foldBlock inLocal) := by
    by_contra hnot
    exact hbytes (hzero.2 ⟨hnot, fun hg => hnot (hiff.2 hg)⟩)
  exact ⟨hv, p, l, k', hplan, hbytes, inLocal, j₁, inGlobal, j₂, hlocal, hglobal, htakes, hiff.1 htakes⟩

end Histogram

end GpuHistogram
