/-
Generators draw their names from a supply that only goes forward (`Ascends`). So the code that is generated after a branch
that is never taken has names of its own, whatever was drawn for that branch (`Plan.localCode_ascends`).
-/
import GpuHistogram.Proofs.LocalCode
import GpuHistogram.Proofs.LockTables

namespace GpuHistogram

variable {α β : Type}

/-- the generator leaves no more names than it has found -/
def Ascends (x : Gen α) : Prop := ∀ k a k', x k = some (a, k') → k ≤ k'

namespace Ascends

variable {x : Gen α} {f : α → Gen β}

theorem pure (a : α) : Ascends (Pure.pure a : Gen α) := fun _ _ _ h => by
  cases h
  exact le_rfl

theorem bind (h : Ascends x) (hf : ∀ a, Ascends (f a)) : Ascends (x >>= f) := by
  intro k b k' hx
  obtain ⟨⟨a, j⟩, ha, hb⟩ := Option.bind_eq_some_iff.1 hx
  exact (h k a j ha).trans (hf a j b k' hb)

theorem failure : Ascends (failure : Gen α) := fun _ _ _ h => nomatch h

theorem fresh (text : String) : Ascends (GpuHistogram.fresh text : Gen Name) := fun k _ _ h => by
  cases h
  exact Nat.le_succ k

theorem mapM {g : α → Gen β} (hg : ∀ a, Ascends (g a)) (l : List α) : Ascends (l.mapM g) := by
  induction l with
  | nil => exact pure []
  | cons a l ih =>
    rw [List.mapM_cons]
    exact (hg a).bind fun b => ih.bind fun bs => pure (b :: bs)

/-! ### Generators that cannot get stuck -/

theorem liftBind {x : Fresh α} {f : α → Fresh β} (h : Ascends (x : Gen α)) (hf : ∀ a, Ascends (f a : Gen β)) :
    Ascends ((x >>= f : Fresh β) : Gen β) := bind h hf

theorem liftPure (a : α) : Ascends ((Pure.pure a : Fresh α) : Gen α) := pure a

theorem liftMapM {g : α → Fresh β} (hg : ∀ a, Ascends (g a : Gen β)) (l : List α) :
    Ascends ((l.mapM g : Fresh (List β)) : Gen (List β)) := by
  rw [coe_mapM]
  exact mapM hg l

/-! ### Generators of host code -/

theorem emitBind {E : Emit α} {F : α → Emit β} (hE : ∀ l, Ascends (E l)) (hF : ∀ a l, Ascends (F a l)) (l : List Stmt) :
    Ascends ((E >>= F) l) := bind (hE l) fun r => hF r.1 r.2

theorem emitPure (a : α) (l : List Stmt) : Ascends ((Pure.pure a : Emit α) l) := pure (a, l)

theorem emitLift (h : Ascends x) (l : List Stmt) : Ascends ((x : Emit α) l) := bind h fun a => pure (a, l)

theorem emitStmt (s : Stmt) (l : List Stmt) : Ascends (Emit.stmt s l) := pure ((), l ++ [s])

theorem emitMapM {G : α → Emit β} (hG : ∀ a l, Ascends (G a l)) (as : List α) (l : List Stmt) : Ascends (as.mapM G l) := by
  induction as generalizing l with
  | nil => exact emitPure [] l
  | cons a as ih =>
    rw [List.mapM_cons]
    exact emitBind (hG a) (fun b => emitBind ih fun bs => emitPure (b :: bs)) l

theorem bindSize (label : String) (e : Expr) (l : List Stmt) : Ascends (Emit.bindSize label e l) := by
  unfold Emit.bindSize
  cases e.constant? with
  | some v => exact emitPure _ l
  | none => exact emitBind (emitLift (fresh label)) (fun n => emitBind (emitStmt _) fun _ => emitPure _) l

end Ascends

/-! ## The code for one element -/

variable {op : Operator} {u : UpdateMethod} {sp : Space} {targets : List Name} {values : List Expr} {addr : Expr}

theorem casNames_ascends : Ascends (CasNames.create : Gen CasNames) :=
  .liftBind (.fresh _) fun _ => .liftBind (.fresh _) fun _ => .liftBind (.fresh _) fun _ => .liftBind (.fresh _) fun _ =>
    .liftBind (.fresh _) fun _ => .liftBind (.fresh _) fun _ => .liftPure _

theorem lockNames_ascends (count : ℕ) : Ascends (LockNames.create count : Gen LockNames) :=
  .liftBind (.fresh _) fun _ => .liftBind (.fresh _) fun _ => .liftBind (.fresh _) fun _ => .liftBind (.fresh _) fun _ =>
    .liftBind (.liftMapM .fresh _) fun _ => .liftBind (.liftMapM .fresh _) fun _ => .liftPure _

theorem updateCode_ascends : Ascends (op.updateCode u sp targets addr values) := by
  unfold Operator.updateCode
  split
  · exact .pure _
  · exact casNames_ascends.bind fun _ => .pure _
  · exact (lockNames_ascends _).bind fun _ => .pure _
  · exact .failure

namespace Plan

variable {p : Plan}

theorem bucketUpdates_ascends {update : Part → α → Expr → Gen Stmt} (h : ∀ q a e, Ascends (update q a e)) (l : List (Part × α)) :
    Ascends (bucketUpdates update l) := by
  induction l with
  | nil => exact .pure []
  | cons a l ih => exact .bind (.fresh "bucket") fun n => (h _ _ _).bind fun s => ih.bind fun _ => .pure _

theorem element_ascends {update : Part → α → Expr → Gen Stmt} (h : ∀ q a e, Ascends (update q a e)) (segment index : Expr)
    (l : List (Part × α)) : Ascends (p.element segment index l update) := by
  have hname : Ascends (p.elementName : Gen Name) := by
    unfold elementName
    split
    · exact .liftPure _
    · exact .fresh _
  exact hname.bind fun n => (bucketUpdates_ascends h l).bind fun _ => .pure _

/-! ## Accumulating in local memory -/

section Loops

variable (ns : LocalNames) (shape : LocalShape) (l : List (Part × LocalPart))

theorem initCopies_eq : initCopies ns shape l = l.mapM fun x => do
    let c ← ChunkNames.create
    return groupLoop c ns.thread (shape.copies * x.1.subs.size) (x.1.initElement ns shape x.2.blocks (.ofName c.j)) := by
  induction l with
  | nil => rfl
  | cons x l ih =>
    rw [List.mapM_cons, ← ih]
    rfl

theorem compactCopies_eq : compactCopies ns shape l = l.mapM fun x => do
    let c ← ChunkNames.create
    let s ← fresh "s"
    let accs ← x.2.blocks.mapM fun n => fresh (n.text ++ "_acc")
    return groupLoop c ns.thread x.1.subs.size (x.1.compactElement shape x.2.blocks s accs (.ofName c.j)) := by
  induction l with
  | nil => rfl
  | cons x l ih =>
    rw [List.mapM_cons, ← ih]
    rfl

theorem publishCopies_eq : publishCopies ns shape l = l.mapM fun x => do
    let c ← ChunkNames.create
    return groupLoop c ns.thread x.1.subs.size (x.1.publishElement ns shape x.2.blocks (.ofName c.j)) := by
  induction l with
  | nil => rfl
  | cons x l ih =>
    rw [List.mapM_cons, ← ih]
    rfl

end Loops

theorem chunkNames_ascends : Ascends (ChunkNames.create : Gen ChunkNames) :=
  .liftBind (.fresh _) fun _ => .liftBind (.fresh _) fun _ => .liftPure _

theorem localBody_ascends (shape : LocalShape) (table : Option LockTable) (l : List (Part × LocalPart)) :
    Ascends (p.localBody shape table l) := by
  have hnames : Ascends (LocalNames.create : Gen LocalNames) :=
    .liftBind (.fresh _) fun _ => .liftBind (.fresh _) fun _ => .liftBind (.fresh _) fun _ => .liftBind (.fresh _) fun _ =>
      .liftPure _
  have hsweep : Ascends (SweepNames.create : Gen SweepNames) :=
    .liftBind (.fresh _) fun _ => .liftBind (.fresh _) fun _ => .liftBind (.fresh _) fun _ => .liftBind (.fresh _) fun _ =>
      .liftPure _
  unfold localBody
  refine hnames.bind fun ns => .bind ?_ fun _ => .bind ?_ fun _ => hsweep.bind fun sw => .bind ?_ fun _ => .bind ?_ fun _ =>
    .bind ?_ fun _ => .pure _
  · rw [initCopies_eq]
    exact .liftMapM (fun _ => .liftBind chunkNames_ascends fun _ => .liftPure _) l
  · unfold initLocks
    split
    · exact .liftPure _
    · exact .liftBind chunkNames_ascends fun _ => .liftPure _
  · exact element_ascends (fun _ _ _ => updateCode_ascends) _ _ l
  · rw [compactCopies_eq]
    exact .liftMapM (fun _ => .liftBind chunkNames_ascends fun _ => .liftBind (.fresh _) fun _ => .liftBind
      (.liftMapM (fun _ => .fresh _) _) fun _ => .liftPure _) l
  · rw [publishCopies_eq]
    exact .liftMapM (fun _ => .liftBind chunkNames_ascends fun _ => .liftPure _) l

theorem kernel_ascends (name stage : String) (body : List Stmt) (blocks : List LocalBlock) (groups : Expr) :
    Ascends (p.kernel name stage body blocks groups : Gen Kernel) := .liftBind (.fresh _) fun _ => .liftPure _

theorem allocate_ascends (as : List (Part × Expr)) (l : List Stmt) : Ascends (allocate as l) := by
  induction as generalizing l with
  | nil => exact .emitPure () l
  | cons a as ih =>
    exact .emitBind (.emitLift (.liftBind (.fresh _) fun _ => .liftPure _)) (fun _ => .emitBind (.emitStmt _) fun _ => ih) l

theorem finish_ascends (as : List (Part × Expr)) (l : List Stmt) : Ascends (p.finish as l) := by
  have hnames (dests : List Destination) : Ascends (MergeNames.create dests : Gen MergeNames) :=
    .liftBind (.fresh _) fun _ => .liftBind (.fresh _) fun _ => .liftBind (.fresh _) fun _ => .liftBind (.fresh _) fun _ =>
      .liftBind (.liftMapM (fun _ => .fresh _) _) fun _ => .liftPure _
  induction as generalizing l with
  | nil => exact .emitPure () l
  | cons a as ih =>
    refine .emitBind (.emitLift (.liftBind (hnames _) fun _ => .liftBind (kernel_ascends _ _ _ _ _) fun _ => .liftPure _)) (fun _ => ?_) l
    exact .emitBind (.emitStmt _) fun _ => .emitBind (.emitStmt _) fun _ => ih

theorem chooseMethods_ascends (ops : List Operator) (count : Expr) :
    Ascends (chooseMethods ops (LockTable.create count sp) : Gen _) := by
  intro k a k' h
  have h : chooseMethods ops (LockTable.create count sp) k = (a, k') := Option.some.inj h
  rw [chooseMethods_eq _ _ _ default] at h
  split_ifs at h
  · cases h
    exact Nat.le_succ k
  · cases h
    exact le_rfl

theorem localCode_ascends (copies : Expr) (l : List Stmt) : Ascends (p.localCode copies l) := by
  rw [localCode_eq]
  refine .emitBind (.emitLift (chooseMethods_ascends _ _)) (fun x => .emitBind (.bindSize _ _) fun slots =>
    .emitBind (.bindSize _ _) fun per => ?_) l
  unfold accumulateLocal gatherLocal nameBlocks launchLocal
  refine .emitBind (allocate_ascends _) fun _ => .emitBind (.emitBind (.emitMapM (fun part => .emitMapM (fun _ =>
    .emitLift (.fresh _)) _) _) fun blocks => ?_) fun _ => finish_ascends _
  exact .emitBind (.emitLift (localBody_ascends _ _ _)) fun _ => .emitBind (.emitLift (kernel_ascends _ _ _ _ _)) fun _ => .emitStmt _

end Plan

end GpuHistogram
