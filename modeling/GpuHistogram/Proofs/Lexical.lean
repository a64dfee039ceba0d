/-
The names that a kernel captures, against the scopes of its code. A binding is known to the end of the block it stands
in, the variable of a loop in the loop alone, and local memory everywhere; `blockFreeNames` are the names that code uses
outside the scopes of their bindings.

The pass over the code reads it as one text (`blockMarks`): a name is captured exactly if it is used somewhere with no
binding of it before (`captured_iff_usedFirst`). The pass captures nothing but what the scopes leave free, and of a name
that no inner block binds it misses nothing (`freeVariables_iff`). But the binding of an inner block also hides the name
behind that block, where it is no longer in scope (`capture_lost_behind_block`).
-/
import GpuHistogram.Proofs.Scopes

namespace GpuHistogram

/-! ## Names outside the scopes of their bindings -/

/-- the names that occur in an expression -/
def Expr.names : Expr → List Name
  | var n _ _ => [n]
  | unary _ e _ _ => e.names
  | binary _ l r _ _ => l.names ++ r.names
  | select c t e _ _ => c.names ++ t.names ++ e.names
  | access t i _ _ => t.names ++ i.names
  | convert e _ => e.names
  | bitCast e _ => e.names
  | _ => []

/-- the names that a statement binds for the rest of the block it stands in -/
def Stmt.declares : Stmt → List Name
  | .define _ n _ _ => [n]
  | .atomic _ _ _ _ _ _ old _ => old.toList
  | .compareSwap old _ _ _ _ _ _ _ => [old]
  | _ => []

mutual

/-- the names that a statement uses outside the scopes of its bindings -/
def Stmt.freeNames : Stmt → List Name
  | .define _ _ e _ => e.names
  | .assign dst e _ => dst.names ++ e.names
  | .forLoop _ n init cond incr body _ =>
    init.names ++ (cond.names ++ incr.names ++ blockFreeNames body).filter (· ≠ n)
  | .ifElse cond thn els _ => cond.names ++ blockFreeNames thn ++ blockFreeNames els
  | .whileLoop cond body _ => cond.names ++ blockFreeNames body
  | .scope body _ => blockFreeNames body
  | .atomic _ _ _ target idx v _ _ => target :: idx.names ++ v.names
  | .compareSwap _ _ _ target idx cmp new _ => target :: idx.names ++ cmp.names ++ new.names
  | .alloc _ _ count _ => count.names
  | .copy _ i _ j count _ => i.names ++ j.names ++ count.names
  | .fill _ i count v _ => i.names ++ count.names ++ v.names
  | .table _ _ values _ => values.flatMap Expr.names
  | _ => []

/-- the names that the statements of a block use outside the scopes of their bindings -/
def blockFreeNames : List Stmt → List Name
  | [] => []
  | s :: rest => s.freeNames ++ (blockFreeNames rest).filter (· ∉ s.declares)

end

/-- the names that a statement binds in the blocks inside it -/
def Stmt.innerBinders : Stmt → List Name
  | .forLoop _ n _ _ _ body _ => n :: blockBinders body
  | .ifElse _ thn els _ => blockBinders thn ++ blockBinders els
  | .whileLoop _ body _ => blockBinders body
  | .scope body _ => blockBinders body
  | _ => []

/-- a statement binds names for the rest of its block and in the blocks inside it -/
theorem Stmt.mem_binders {s : Stmt} {n : Name} : n ∈ s.binders ↔ n ∈ s.declares ∨ n ∈ s.innerBinders := by
  cases s <;> simp [Stmt.binders, Stmt.declares, Stmt.innerBinders]

/-! ## The text of code -/

/-- what a text does with names from left to right -/
inductive Mark where
  | uses (n : Name)
  | binds (n : Name)
  deriving DecidableEq

/-- an expression as a text -/
def Expr.marks (e : Expr) : List Mark := e.names.map .uses

mutual

/-- a statement as a text -/
def Stmt.marks : Stmt → List Mark
  | .define _ n e _ => e.marks ++ [.binds n]
  | .assign dst e _ => dst.marks ++ e.marks
  | .forLoop _ n init cond incr body _ => init.marks ++ [.binds n] ++ cond.marks ++ incr.marks ++ blockMarks body
  | .ifElse cond thn els _ => cond.marks ++ blockMarks thn ++ blockMarks els
  | .whileLoop cond body _ => cond.marks ++ blockMarks body
  | .scope body _ => blockMarks body
  | .atomic _ _ _ target idx v old _ => [.uses target] ++ idx.marks ++ v.marks ++ old.toList.map .binds
  | .compareSwap old _ _ target idx cmp new _ =>
    [.uses target] ++ idx.marks ++ cmp.marks ++ new.marks ++ [.binds old]
  | .alloc _ _ count _ => count.marks
  | .copy _ i _ j count _ => i.marks ++ j.marks ++ count.marks
  | .fill _ i count v _ => i.marks ++ count.marks ++ v.marks
  | .table _ _ values _ => values.flatMap Expr.marks
  | _ => []

/-- statements as a text -/
def blockMarks : List Stmt → List Mark
  | [] => []
  | s :: rest => s.marks ++ blockMarks rest

end

/-- the name is used somewhere with no binding of it before -/
def UsedFirst (n : Name) (l : List Mark) : Prop :=
  ∃ before after, l = before ++ .uses n :: after ∧ .binds n ∉ before

section Texts

variable {n m : Name} {l l' : List Mark}

@[simp] theorem not_usedFirst_nil : ¬ UsedFirst n [] := by
  rintro ⟨before, after, h, -⟩
  simp at h

@[simp] theorem usedFirst_uses : UsedFirst n (.uses m :: l) ↔ m = n ∨ UsedFirst n l := by
  constructor
  · rintro ⟨before, after, h, hn⟩
    rcases List.cons_eq_append_iff.1 h with ⟨-, h⟩ | ⟨before, rfl, rfl⟩
    · cases h
      exact .inl rfl
    · exact .inr ⟨before, after, rfl, fun hb => hn (List.mem_cons_of_mem _ hb)⟩
  · rintro (rfl | ⟨before, after, rfl, hn⟩)
    · exact ⟨[], l, rfl, List.not_mem_nil⟩
    · exact ⟨.uses m :: before, after, rfl, by simpa using hn⟩

@[simp] theorem usedFirst_binds : UsedFirst n (.binds m :: l) ↔ n ≠ m ∧ UsedFirst n l := by
  constructor
  · rintro ⟨before, after, h, hn⟩
    rcases List.cons_eq_append_iff.1 h with ⟨-, h⟩ | ⟨before, rfl, rfl⟩
    · cases h
    · simp only [List.mem_cons, Mark.binds.injEq, not_or] at hn
      exact ⟨hn.1, before, after, rfl, hn.2⟩
  · rintro ⟨hne, before, after, rfl, hn⟩
    exact ⟨.binds m :: before, after, rfl, by simp [hne, hn]⟩

/-- a name is used first in the one part of a text, or in the other if the first does not bind it -/
@[simp] theorem usedFirst_append : UsedFirst n (l ++ l') ↔ UsedFirst n l ∨ .binds n ∉ l ∧ UsedFirst n l' := by
  induction l with
  | nil => simp
  | cons x l ih => cases x <;> simp [ih] <;> tauto

/-- the text of an expression uses names and binds none -/
@[simp] theorem usedFirst_marks {e : Expr} : UsedFirst n e.marks ↔ n ∈ e.names := by
  unfold Expr.marks
  induction e.names with
  | nil => simp
  | cons x l ih => simp [ih, eq_comm]

@[simp] theorem binds_not_mem_marks {e : Expr} : .binds n ∉ e.marks := by
  simp [Expr.marks]

@[simp] theorem binds_not_mem_flatMap {es : List Expr} : .binds n ∉ es.flatMap Expr.marks := by
  simp [List.mem_flatMap]

@[simp] theorem usedFirst_flatMap {es : List Expr} :
    UsedFirst n (es.flatMap Expr.marks) ↔ n ∈ es.flatMap Expr.names := by
  induction es with
  | nil => simp
  | cons e es ih => simp [ih]

end Texts

mutual

/-- the text of a statement binds the names that the statement binds -/
theorem Stmt.binds_mem_marks {n : Name} : ∀ s : Stmt, .binds n ∈ s.marks ↔ n ∈ s.binders
  | .forLoop _ _ _ _ _ body _ => by simp [Stmt.marks, Stmt.binders, binds_mem_blockMarks body]
  | .ifElse _ thn els _ => by simp [Stmt.marks, Stmt.binders, binds_mem_blockMarks thn, binds_mem_blockMarks els]
  | .whileLoop _ body _ => by simp [Stmt.marks, Stmt.binders, binds_mem_blockMarks body]
  | .scope body _ => by simp [Stmt.marks, Stmt.binders, binds_mem_blockMarks body]
  | .define .. => by simp [Stmt.marks, Stmt.binders]
  | .atomic .. => by simp [Stmt.marks, Stmt.binders]
  | .compareSwap .. => by simp [Stmt.marks, Stmt.binders]
  | .assign .. => by simp [Stmt.marks, Stmt.binders]
  | .alloc .. => by simp [Stmt.marks, Stmt.binders]
  | .copy .. => by simp [Stmt.marks, Stmt.binders]
  | .fill .. => by simp [Stmt.marks, Stmt.binders]
  | .table .. => by simp [Stmt.marks, Stmt.binders]
  | .barrier .. => by simp [Stmt.marks, Stmt.binders]
  | .fence .. => by simp [Stmt.marks, Stmt.binders]
  | .free .. => by simp [Stmt.marks, Stmt.binders]
  | .rebind .. => by simp [Stmt.marks, Stmt.binders]
  | .launch .. => by simp [Stmt.marks, Stmt.binders]

theorem binds_mem_blockMarks {n : Name} : ∀ l : List Stmt, .binds n ∈ blockMarks l ↔ n ∈ blockBinders l
  | [] => by simp [blockMarks]
  | s :: l => by simp [blockMarks, s.binds_mem_marks, binds_mem_blockMarks l]

end

attribute [simp] Stmt.binds_mem_marks binds_mem_blockMarks

/-! ## The text against the scopes -/

section Cases

variable {n m : Name} {ty : Ty} {init cond incr : Expr} {body thn els : List Stmt} {o : Origin}

theorem usedFirst_forLoop : UsedFirst n (Stmt.forLoop ty m init cond incr body o).marks ↔
    n ∈ init.names ∨ n ≠ m ∧ (n ∈ cond.names ∨ n ∈ incr.names ∨ UsedFirst n (blockMarks body)) := by
  simp only [Stmt.marks, List.append_assoc, List.singleton_append, usedFirst_append, usedFirst_marks, usedFirst_binds,
    List.mem_cons, Mark.binds.injEq, binds_not_mem_marks, or_false, not_false_eq_true, true_and]
  tauto

theorem mem_freeNames_forLoop : n ∈ (Stmt.forLoop ty m init cond incr body o).freeNames ↔
    n ∈ init.names ∨ n ≠ m ∧ (n ∈ cond.names ∨ n ∈ incr.names ∨ n ∈ blockFreeNames body) := by
  simp only [Stmt.freeNames, List.mem_append, List.mem_filter, decide_eq_true_eq, or_assoc]
  tauto

theorem usedFirst_ifElse : UsedFirst n (Stmt.ifElse cond thn els o).marks ↔
    n ∈ cond.names ∨ UsedFirst n (blockMarks thn) ∨ n ∉ blockBinders thn ∧ UsedFirst n (blockMarks els) := by
  simp only [Stmt.marks, List.append_assoc, usedFirst_append, usedFirst_marks, binds_not_mem_marks, not_false_eq_true,
    true_and, binds_mem_blockMarks]

theorem mem_freeNames_ifElse : n ∈ (Stmt.ifElse cond thn els o).freeNames ↔
    n ∈ cond.names ∨ n ∈ blockFreeNames thn ∨ n ∈ blockFreeNames els := by
  simp only [Stmt.freeNames, List.mem_append, or_assoc]

theorem usedFirst_whileLoop : UsedFirst n (Stmt.whileLoop cond body o).marks ↔
    n ∈ cond.names ∨ UsedFirst n (blockMarks body) := by
  simp only [Stmt.marks, usedFirst_append, usedFirst_marks, binds_not_mem_marks, not_false_eq_true, true_and]

theorem mem_freeNames_whileLoop : n ∈ (Stmt.whileLoop cond body o).freeNames ↔
    n ∈ cond.names ∨ n ∈ blockFreeNames body := by
  simp only [Stmt.freeNames, List.mem_append]

end Cases

/-- the names that statements bind in the blocks inside them -/
def blockInnerBinders (l : List Stmt) : List Name := l.flatMap Stmt.innerBinders

theorem blockInnerBinders_subset {l : List Stmt} : blockInnerBinders l ⊆ blockBinders l := by
  induction l with
  | nil => exact List.nil_subset _
  | cons s l ih =>
    intro n hn
    rw [blockInnerBinders, List.flatMap_cons, List.mem_append] at hn
    rw [blockBinders_cons, List.mem_append]
    exact hn.imp (fun hs => Stmt.mem_binders.2 (.inr hs)) (@ih n)

/-- a text uses first only names that are `free`, and of these it uses first all that are not among `inner` -/
structure Agrees (n : Name) (l : List Mark) (free inner : List Name) : Prop where
  mem : UsedFirst n l → n ∈ free
  used : n ∈ free → n ∉ inner → UsedFirst n l

theorem Agrees.of_iff {n : Name} {l : List Mark} {free inner : List Name} (h : UsedFirst n l ↔ n ∈ free) :
    Agrees n l free inner :=
  ⟨h.1, fun hn _ => h.2 hn⟩

mutual

/-- what a statement uses outside the scopes of its bindings its text uses first, up to what the blocks inside bind -/
theorem Stmt.agrees (n : Name) : ∀ s : Stmt, Agrees n s.marks s.freeNames s.innerBinders
  | .forLoop _ m _ cond incr body _ => by
    have hbody := blockAgrees n body
    refine ⟨fun h => mem_freeNames_forLoop.2 ?_, fun h hn => usedFirst_forLoop.2 ?_⟩
    · exact (usedFirst_forLoop.1 h).imp_right (And.imp_right (Or.imp_right (Or.imp_right hbody.mem)))
    · rw [Stmt.innerBinders, List.mem_cons, not_or] at hn
      exact (mem_freeNames_forLoop.1 h).imp_right (And.imp_right (Or.imp_right (Or.imp_right
        fun hf => hbody.used hf fun hi => hn.2 (blockInnerBinders_subset hi))))
  | .ifElse _ thn els _ => by
    have hthn := blockAgrees n thn
    have hels := blockAgrees n els
    refine ⟨fun h => mem_freeNames_ifElse.2 ?_, fun h hn => usedFirst_ifElse.2 ?_⟩
    · exact (usedFirst_ifElse.1 h).imp_right (Or.imp hthn.mem fun h => hels.mem h.2)
    · rw [Stmt.innerBinders, List.mem_append, not_or] at hn
      exact (mem_freeNames_ifElse.1 h).imp_right (Or.imp
        (fun hf => hthn.used hf fun hi => hn.1 (blockInnerBinders_subset hi))
        fun hf => ⟨hn.1, hels.used hf fun hi => hn.2 (blockInnerBinders_subset hi)⟩)
  | .whileLoop _ body _ => by
    have hbody := blockAgrees n body
    refine ⟨fun h => mem_freeNames_whileLoop.2 ?_, fun h hn => usedFirst_whileLoop.2 ?_⟩
    · exact (usedFirst_whileLoop.1 h).imp_right hbody.mem
    · rw [Stmt.innerBinders] at hn
      exact (mem_freeNames_whileLoop.1 h).imp_right fun hf => hbody.used hf fun hi => hn (blockInnerBinders_subset hi)
  | .scope body _ => by
    rw [Stmt.marks, Stmt.freeNames, Stmt.innerBinders]
    have hbody := blockAgrees n body
    exact ⟨hbody.mem, fun h hn => hbody.used h fun hi => hn (blockInnerBinders_subset hi)⟩
  | .define .. => .of_iff (by simp [Stmt.marks, Stmt.freeNames])
  | .assign .. => .of_iff (by simp [Stmt.marks, Stmt.freeNames])
  | .atomic _ _ _ _ _ _ old _ => .of_iff (by cases old <;> simp [Stmt.marks, Stmt.freeNames, eq_comm])
  | .compareSwap .. => .of_iff (by simp [Stmt.marks, Stmt.freeNames, eq_comm])
  | .alloc .. => .of_iff (by simp [Stmt.marks, Stmt.freeNames])
  | .copy .. => .of_iff (by simp [Stmt.marks, Stmt.freeNames])
  | .fill .. => .of_iff (by simp [Stmt.marks, Stmt.freeNames])
  | .table .. => .of_iff (by rw [Stmt.marks, Stmt.freeNames, usedFirst_flatMap])
  | .barrier .. => .of_iff (by simp [Stmt.marks, Stmt.freeNames])
  | .fence .. => .of_iff (by simp [Stmt.marks, Stmt.freeNames])
  | .free .. => .of_iff (by simp [Stmt.marks, Stmt.freeNames])
  | .rebind .. => .of_iff (by simp [Stmt.marks, Stmt.freeNames])
  | .launch .. => .of_iff (by simp [Stmt.marks, Stmt.freeNames])

theorem blockAgrees (n : Name) : ∀ l : List Stmt, Agrees n (blockMarks l) (blockFreeNames l) (blockInnerBinders l)
  | [] => .of_iff (by simp [blockMarks, blockFreeNames])
  | s :: l => by
    have hs := s.agrees n
    have hl := blockAgrees n l
    have hused : UsedFirst n (blockMarks (s :: l)) ↔
        UsedFirst n s.marks ∨ n ∉ s.binders ∧ UsedFirst n (blockMarks l) := by
      rw [blockMarks, usedFirst_append, Stmt.binds_mem_marks]
    have hfree : n ∈ blockFreeNames (s :: l) ↔ n ∈ s.freeNames ∨ n ∉ s.declares ∧ n ∈ blockFreeNames l := by
      simp only [blockFreeNames, List.mem_append, List.mem_filter, decide_eq_true_eq, and_comm]
    refine ⟨fun h => hfree.2 ?_, fun h hn => hused.2 ?_⟩
    · exact (hused.1 h).imp hs.mem fun h => ⟨fun hd => h.1 (Stmt.mem_binders.2 (.inl hd)), hl.mem h.2⟩
    · rw [blockInnerBinders, List.flatMap_cons, List.mem_append, not_or] at hn
      exact (hfree.1 h).imp (hs.used · hn.1) fun h =>
        ⟨fun hb => (Stmt.mem_binders.1 hb).elim h.1 hn.1, hl.used h.2 hn.2⟩

end

/-! ## What is captured -/

namespace Occurrences

variable {u v w : Occurrences} {n : Name} {l l' : List Mark}

/-- a pass gets from `u` to `v` over a text: it binds what the text binds, and the names it finds are those not bound
before that the text uses first -/
structure Passes (l : List Mark) (u v : Occurrences) : Prop where
  bound : ∀ n, n ∈ v.bound ↔ .binds n ∈ l ∨ n ∈ u.bound
  free : ∀ n, (v.free.get? n).isSome ↔ (u.free.get? n).isSome ∨ n ∉ u.bound ∧ UsedFirst n l

theorem Passes.refl (u : Occurrences) : Passes [] u u :=
  ⟨fun _ => by simp, fun _ => by simp⟩

theorem Passes.trans (h : Passes l u v) (h' : Passes l' v w) : Passes (l ++ l') u w where
  bound := fun n => by
    rw [h'.bound, h.bound, List.mem_append]
    tauto
  free := fun n => by
    rw [h'.free, h.free, h.bound, usedFirst_append]
    tauto

theorem passes_use (u : Occurrences) (n : Name) (ty : Ty) : Passes [.uses n] u (u.use n ty) := by
  unfold use
  split_ifs with hn
  · refine ⟨fun m => by simp, fun m => ?_⟩
    simp only [usedFirst_uses, not_usedFirst_nil, or_false]
    refine ⟨.inl, fun h => h.resolve_right ?_⟩
    rintro ⟨hm, rfl⟩
    exact hm hn
  · refine ⟨fun m => by simp, fun m => ?_⟩
    simp only [usedFirst_uses, not_usedFirst_nil, or_false, Bindings.get?_set]
    split_ifs with hm
    · subst hm
      simp [hn]
    · simp [hm]

theorem passes_bind (u : Occurrences) (n : Name) : Passes [.binds n] u (u.bind n) :=
  ⟨fun m => by simp [bind], fun m => by simp [bind]⟩

theorem passes_expr (e : Expr) (u : Occurrences) : Passes e.marks u (u.expr e) := by
  induction e generalizing u with
  | var n ty o => exact passes_use u n ty
  | unary op e ty o ih => exact ih u
  | convert e ty ih => exact ih u
  | bitCast e ty ih => exact ih u
  | binary op l r ty o ihl ihr =>
    rw [Expr.marks, Expr.names, List.map_append]
    exact (ihl u).trans (ihr _)
  | select b t e ty o ihb iht ihe =>
    rw [Expr.marks, Expr.names, List.map_append, List.map_append]
    exact ((ihb u).trans (iht _)).trans (ihe _)
  | access t i ty o iht ihi =>
    rw [Expr.marks, Expr.names, List.map_append]
    exact (iht u).trans (ihi _)
  | _ => exact .refl u

theorem passes_exprs (es : List Expr) (u : Occurrences) : Passes (es.flatMap Expr.marks) u (es.foldl expr u) := by
  induction es generalizing u with
  | nil => exact .refl u
  | cons e es ih => exact (passes_expr e u).trans (ih _)

mutual

theorem passes_stmt : ∀ (x : Stmt) (u : Occurrences), Passes x.marks u (u.stmt x)
  | .define _ n e _, u => by
    rw [stmt, Stmt.marks]
    exact (passes_expr e u).trans (passes_bind _ n)
  | .assign dst e _, u => by
    rw [stmt, Stmt.marks]
    · exact (passes_expr dst u).trans (passes_expr e _)
    all_goals simp
  | .forLoop _ n init cond incr body _, u => by
    rw [stmt, Stmt.marks]
    exact ((((passes_expr init u).trans (passes_bind _ n)).trans (passes_expr cond _)).trans (passes_expr incr _)).trans
      (passes_stmts body _)
  | .ifElse cond thn els _, u => by
    rw [stmt, Stmt.marks]
    exact ((passes_expr cond u).trans (passes_stmts thn _)).trans (passes_stmts els _)
  | .whileLoop cond body _, u => by
    rw [stmt, Stmt.marks]
    exact (passes_expr cond u).trans (passes_stmts body _)
  | .scope body _, u => by
    rw [stmt, Stmt.marks]
    exact passes_stmts body u
  | .atomic _ sp sc target idx v old _, u => by
    have hl := ((passes_use u target (.pointer sc sp)).trans (passes_expr idx _)).trans (passes_expr v _)
    cases old with
    | none =>
      rw [stmt, Stmt.marks]
      simpa using hl
    | some n =>
      rw [stmt, Stmt.marks]
      exact hl.trans (passes_bind _ n)
  | .compareSwap old sp sc target idx cmp new _, u => by
    rw [stmt, Stmt.marks]
    exact ((((passes_use u target (.pointer sc sp)).trans (passes_expr idx _)).trans (passes_expr cmp _)).trans
      (passes_expr new _)).trans (passes_bind _ old)
  | .alloc _ _ count _, u => by
    rw [stmt, Stmt.marks]
    · exact passes_expr count u
    all_goals simp
  | .copy _ i _ j count _, u => by
    rw [stmt, Stmt.marks]
    · exact ((passes_expr i u).trans (passes_expr j _)).trans (passes_expr count _)
    all_goals simp
  | .fill _ i count v _, u => by
    rw [stmt, Stmt.marks]
    · exact ((passes_expr i u).trans (passes_expr count _)).trans (passes_expr v _)
    all_goals simp
  | .table _ _ values _, u => by
    rw [stmt, Stmt.marks, Stmt.foldExprs, List.idRun_foldlM]
    · exact passes_exprs values u
    all_goals simp
  | .barrier .., u => by
    rw [stmt, Stmt.marks]
    · exact .refl u
    all_goals simp
  | .fence .., u => by
    rw [stmt, Stmt.marks]
    · exact .refl u
    all_goals simp
  | .free .., u => by
    rw [stmt, Stmt.marks]
    · exact .refl u
    all_goals simp
  | .rebind .., u => by
    rw [stmt, Stmt.marks]
    · exact .refl u
    all_goals simp
  | .launch .., u => by
    rw [stmt, Stmt.marks]
    · exact .refl u
    all_goals simp

theorem passes_stmts : ∀ (l : List Stmt) (u : Occurrences), Passes (blockMarks l) u (u.stmts l)
  | [], u => by
    rw [stmts, blockMarks]
    exact .refl u
  | x :: l, u => by
    rw [stmts, blockMarks]
    exact (passes_stmt x u).trans (passes_stmts l _)

end

end Occurrences

/-- the names that are bound to values are those of the entries -/
theorem Bindings.isSome_get? {β : Type} {b : Bindings β} {n : Name} :
    (b.get? n).isSome ↔ n ∈ b.entries.map (·.1) := by
  obtain ⟨l⟩ := b
  change (find? n l).isSome ↔ _
  induction l with
  | nil => simp [find?]
  | cons e l ih =>
    obtain ⟨m, v⟩ := e
    rw [find?]
    split_ifs with hm
    · simp [hm]
    · simp [ih, Ne.symm hm]

variable {body : List Stmt} {blocks : List LocalBlock} {n : Name}

/-- a name is captured exactly if it is not one of local memory and the text of the body uses it first -/
theorem captured_iff_usedFirst : n ∈ (freeVariables body blocks).map (·.1) ↔
    n ∉ blocks.map (·.name) ∧ UsedFirst n (blockMarks body) := by
  obtain ⟨hfree, hbound⟩ := Occurrences.start_spec blocks
  have hpass := Occurrences.passes_stmts body (.start blocks)
  have hsorted : n ∈ (freeVariables body blocks).map (·.1) ↔
      n ∈ (((Occurrences.start blocks).stmts body).free.entries).map (·.1) := by
    simp only [freeVariables, List.mem_map, Bindings.mem_sorted]
  have hnone : ¬ ((∅ : Bindings Ty).get? n).isSome := Bool.false_ne_true
  rw [hsorted, ← Bindings.isSome_get?, hpass.free, hfree, hbound, or_iff_right hnone]

/-- **What a kernel captures.** A name is captured exactly if it is not one of local memory, the body uses it outside
the scopes of its bindings, and, should a block inside the body bind it too, the text uses it before any binding. -/
theorem freeVariables_iff (body : List Stmt) (blocks : List LocalBlock) (n : Name) :
    n ∈ (freeVariables body blocks).map (·.1) ↔ n ∉ blocks.map (·.name) ∧ n ∈ blockFreeNames body ∧
      (n ∈ blockInnerBinders body → UsedFirst n (blockMarks body)) := by
  rw [captured_iff_usedFirst]
  have hbody := blockAgrees n body
  refine and_congr_right fun _ => ⟨fun h => ⟨hbody.mem h, fun _ => h⟩, ?_⟩
  rintro ⟨hfree, hinner⟩
  by_cases hn : n ∈ blockInnerBinders body
  · exact hinner hn
  · exact hbody.used hfree hn

/-- a body with a block that binds `x`; behind the block, where that binding is gone, it reads the `x` of the host -/
def readsBehindBlock : List Stmt :=
  [.block [.bind (.plain "x") 1], .bind (.plain "y") (.ofName (.plain "x"))]

/-- the body uses `x` outside the scope of its binding, but `x` is not captured -/
theorem capture_lost_behind_block : Name.plain "x" ∈ blockFreeNames readsBehindBlock ∧
    freeVariables readsBehindBlock [] = [] :=
  ⟨by decide, by cbv⟩

end GpuHistogram
