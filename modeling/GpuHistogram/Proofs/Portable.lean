/-
Code that has text on every device. What a user writes is portable if no node is refused and the types of every node fit
together. Folding keeps the types of portable expressions (`Expr.ty_fold`), and therefore makes no cast of bits between types
of different sizes; so portable code is still accepted when it is folded.

The generated code around it is weaker than portable: it computes with 64-bit indices and sizes of whatever type the user gave.
`Expr.Clean` is what remains of it, that the types of all nodes are known and that the folded expression is accepted, and each way of
building expressions has a lemma that keeps it. `Stmt.Legal E` lifts a property of expressions to statements of a kernel without
barriers, and `clean_foldBlock` is the lemma that the folded statements are accepted.
-/
import GpuHistogram.Code.Build
import GpuHistogram.Proofs.Emission
import GpuHistogram.Proofs.FoldedRuns
import GpuHistogram.Proofs.Refusals

namespace GpuHistogram

namespace Expr

variable {e l r c t i : Expr} {ty : Ty} {o : Origin}

/-! ## Types of folded expressions -/

/-- the types of a node and of its parts fit together -/
def TypesAgree : Expr → Prop
  | binary op l r ty _ => l.ty = r.ty ∧ (op.isLogical = true → l.ty = .bool) ∧ ty = op.resultTy l.ty
  | select _ t e ty _ => t.ty = e.ty ∧ ty = t.ty
  | _ => True

instance (e : Expr) : Decidable e.TypesAgree :=
  match e with
  | binary op l r ty _ =>
    inferInstanceAs (Decidable (l.ty = r.ty ∧ (op.isLogical = true → l.ty = .bool) ∧ ty = op.resultTy l.ty))
  | select _ t e ty _ => inferInstanceAs (Decidable (t.ty = e.ty ∧ ty = t.ty))
  | var .. | bool .. | int .. | float .. | unary .. | access .. | convert .. | bitCast .. | place .. | size .. | capability .. =>
    isTrue trivial

theorem literal_of_foldWords? {op : Binary} {v w : Int} (h : op.foldWords? v w = some e) :
    (∃ x, e = int x .i64 .unknown ∧ op.resultTy .i64 = .i64) ∨ ∃ b, e = bool b .bool .unknown ∧ op.resultTy .i64 = .bool := by
  cases op <;> simp only [Binary.foldWords?, Option.map_eq_some_iff, Option.some.injEq, reduceCtorEq] at h
  case eq | ne | le | ge | lt | gt => exact .inr ⟨_, h.symm, rfl⟩
  all_goals
    obtain ⟨x, -, rfl⟩ := h
    exact .inl ⟨x, rfl, rfl⟩

theorem ty_foldUnary (op : Unary) (e : Expr) (ty : Ty) (o : Origin) : (foldUnary op e ty o).ty = ty := by
  unfold foldUnary
  split
  · split <;> rfl
  · rfl
  · rfl

theorem ty_foldNeutral {op : Binary} (h : l.ty = r.ty) (hty : .i64 = op.resultTy l.ty) (o : Origin) :
    (foldNeutral op l r .i64 o).ty = .i64 := by
  unfold foldNeutral
  split
  case h_5 => rfl
  all_goals
    have hl : l.ty = .i64 := hty.symm
    split_ifs <;> first | rfl | exact hl | exact h ▸ hl

theorem ty_foldBinary {op : Binary} (h : l.ty = r.ty) (hlog : op.isLogical = true → l.ty = .bool)
    (hty : ty = op.resultTy l.ty) (o : Origin) : (foldBinary op l r ty o).ty = ty := by
  unfold foldBinary
  split
  · split
    · next e he =>
      rw [ty_withOrigin, hty]
      rcases literal_of_foldWords? he with ⟨x, rfl, hop⟩ | ⟨b, rfl, hop⟩ <;> exact hop.symm
    · rfl
  · unfold foldMixed
    split
    · rfl
    · rfl
    · rw [← h, hlog rfl, hty]
      rfl
    · rw [hlog rfl, hty]
      rfl
    · split
      · next hi =>
        subst hi
        exact ty_foldNeutral h hty o
      · rfl

/-- **Folding keeps types** where the types of all nodes fit together. -/
theorem ty_fold (h : ∀ x ∈ e.nodes, x.TypesAgree) : e.fold.ty = e.ty := by
  induction e with
  | unary op e ty o ih => exact ty_foldUnary op e.fold ty o
  | binary op l r ty o ihl ihr =>
    rw [nodes] at h
    obtain ⟨⟨heq, hlog, hty⟩, hparts⟩ := List.forall_mem_cons.1 h
    obtain ⟨hl, hr⟩ := List.forall_mem_append.1 hparts
    have hlt := ihl hl
    have hrt := ihr hr
    exact ty_foldBinary (by rw [hlt, hrt, heq]) (fun hop => hlt.trans (hlog hop)) (by rw [hlt, hty]) o
  | select c t e ty o ihc iht ihe =>
    rw [nodes] at h
    obtain ⟨⟨heq, hty⟩, hparts⟩ := List.forall_mem_cons.1 h
    obtain ⟨-, hparts⟩ := List.forall_mem_append.1 hparts
    obtain ⟨ht, he⟩ := List.forall_mem_append.1 hparts
    rw [fold]
    split
    · rw [iht ht]
      exact hty.symm
    · rw [ihe he, ← heq]
      exact hty.symm
    · rfl
  | convert e ty ih =>
    rw [fold]
    unfold foldConvert
    split <;> rfl
  | access | bitCast => rfl
  | _ => rfl

/-! ## Folding and refusal -/

/-- a node that is not refused has a known type -/
theorem known_of_not_refused (h : e.isRefused = false) : e.ty.isUnknown = false := by
  have hnot (P : Prop) (hr : e.isRefused = true ↔ e.ty.isUnknown = true ∨ P) : e.ty.isUnknown = false :=
    Bool.eq_false_iff.2 fun hu => Bool.eq_false_iff.1 h (hr.2 (.inl hu))
  cases e with
  | unary op e ty o => exact hnot _ isRefused_unary
  | binary op l r ty o => exact hnot _ isRefused_binary
  | bitCast e ty => exact hnot _ isRefused_bitCast
  | size id o | capability c o => rfl
  | _ => simpa [isRefused] using h

theorem not_refused_int {v : Int} (h : ty.isUnknown = false) : ¬ (int v ty o).Refused := by
  rw [refused_leaf rfl]
  simpa [isRefused, Expr.ty] using h

theorem not_refused_bool {b : Bool} (h : ty.isUnknown = false) : ¬ (bool b ty o).Refused := by
  rw [refused_leaf rfl]
  simpa [isRefused, Expr.ty] using h

theorem not_refused_foldUnary {op : Unary} (he : ¬ e.Refused)
    (hnode : ¬ (ty.isUnknown = true ∨ ∃ f, op.mathFunction? = some f ∧ ty.lacks f = true)) :
    ¬ (foldUnary op e ty o).Refused := by
  have hty : ty.isUnknown = false := Bool.eq_false_iff.2 fun h => hnode (.inl h)
  have hplain : ¬ (unary op e ty o).Refused := by
    rw [refused_unary]
    exact not_or.2 ⟨hnode, he⟩
  unfold foldUnary
  split
  · split
    · exact hplain
    · exact not_refused_int hty
  · exact not_refused_bool hty
  · exact hplain

theorem not_refused_foldBinary {op : Binary} (hl : ¬ l.Refused) (hr : ¬ r.Refused)
    (hnode : ¬ (ty.isUnknown = true ∨ ∃ f, op.mathFunction? = some f ∧ ty.lacks f = true)) :
    ¬ (foldBinary op l r ty o).Refused := by
  have hty : ty.isUnknown = false := Bool.eq_false_iff.2 fun h => hnode (.inl h)
  have hplain : ¬ (binary op l r ty o).Refused := by
    rw [refused_binary]
    exact not_or.2 ⟨hnode, not_or.2 ⟨hl, hr⟩⟩
  unfold foldBinary
  split
  · split
    · next e he =>
      rcases literal_of_foldWords? he with ⟨x, rfl, -⟩ | ⟨b, rfl, -⟩
      · exact not_refused_int rfl
      · exact not_refused_bool rfl
    · exact hplain
  · unfold foldMixed
    split
    · exact not_refused_bool hty
    · exact not_refused_bool hty
    · exact hr
    · exact hl
    · split
      · unfold foldNeutral
        split
        case h_5 => exact hplain
        all_goals split_ifs <;> first | exact hplain | exact hl | exact hr | exact not_refused_int hty
      · exact hplain

theorem not_refused_foldSelect (hc : ¬ c.fold.Refused) (ht : ¬ t.fold.Refused) (he : ¬ e.fold.Refused)
    (hty : ty.isUnknown = false) : ¬ (select c t e ty o).fold.Refused := by
  rw [fold]
  split
  · exact ht
  · exact he
  · rw [refused_select, hty]
    exact not_or.2 ⟨Bool.false_ne_true, not_or.2 ⟨hc, not_or.2 ⟨ht, he⟩⟩⟩

theorem not_refused_foldConvert (he : ¬ e.Refused) (hty : ty.isUnknown = false) : ¬ (foldConvert e ty).Refused := by
  unfold foldConvert
  split
  · exact not_refused_int rfl
  · rw [refused_convert, hty]
    exact not_or.2 ⟨Bool.false_ne_true, he⟩

/-- no node is refused, and the types of every node fit together -/
def Portable (e : Expr) : Prop := ∀ x ∈ e.nodes, x.isRefused = false ∧ x.TypesAgree

instance (e : Expr) : Decidable e.Portable := inferInstanceAs (Decidable (∀ x ∈ e.nodes, x.isRefused = false ∧ x.TypesAgree))

/-- the types of all nodes are known, and the folded expression is accepted -/
structure Clean (e : Expr) : Prop where
  known : ∀ x ∈ e.nodes, x.ty.isUnknown = false
  accepted : ¬ e.fold.Refused

theorem self_mem_nodes (e : Expr) : e ∈ e.nodes := by
  cases e <;> simp

theorem Clean.ty_known (h : e.Clean) : e.ty.isUnknown = false := h.known e e.self_mem_nodes

/-- **Portable expressions** are accepted when they are folded. -/
theorem Portable.clean (h : e.Portable) : e.Clean := by
  refine ⟨fun x hx => known_of_not_refused (h x hx).1, ?_⟩
  induction e with
  | var | bool | int | float | place | size | capability =>
    rw [fold, refused_leaf rfl]
    · exact Bool.eq_false_iff.1 (h _ (self_mem_nodes _)).1
    all_goals simp
  | unary op e ty o ih =>
    have hnode := Bool.eq_false_iff.1 (h _ (self_mem_nodes _)).1
    exact not_refused_foldUnary (ih fun x hx => h x (List.mem_cons_of_mem _ hx)) (isRefused_unary.not.1 hnode)
  | binary op l r ty o ihl ihr =>
    have hnode := Bool.eq_false_iff.1 (h _ (self_mem_nodes _)).1
    rw [Portable, nodes] at h
    obtain ⟨hl, hr⟩ := List.forall_mem_append.1 (List.forall_mem_cons.1 h).2
    exact not_refused_foldBinary (ihl hl) (ihr hr) (isRefused_binary.not.1 hnode)
  | select c t e ty o ihc iht ihe =>
    have hty : ty.isUnknown = false := known_of_not_refused (h _ (self_mem_nodes _)).1
    rw [Portable, nodes] at h
    obtain ⟨hc, hparts⟩ := List.forall_mem_append.1 (List.forall_mem_cons.1 h).2
    obtain ⟨ht, he⟩ := List.forall_mem_append.1 hparts
    exact not_refused_foldSelect (ihc hc) (iht ht) (ihe he) hty
  | access t i ty o iht ihi =>
    have hty : ty.isUnknown = false := known_of_not_refused (h _ (self_mem_nodes _)).1
    rw [Portable, nodes] at h
    obtain ⟨ht, hi⟩ := List.forall_mem_append.1 (List.forall_mem_cons.1 h).2
    rw [fold, refused_access, hty]
    exact not_or.2 ⟨Bool.false_ne_true, not_or.2 ⟨iht ht, ihi hi⟩⟩
  | convert e ty ih =>
    exact not_refused_foldConvert (ih fun x hx => h x (List.mem_cons_of_mem _ hx))
      (known_of_not_refused (h _ (self_mem_nodes _)).1)
  | bitCast e ty ih =>
    have hnode := Bool.eq_false_iff.1 (h _ (self_mem_nodes _)).1
    have he : Portable e := fun x hx => h x (List.mem_cons_of_mem _ hx)
    rw [fold, refused_bitCast, ty_fold fun x hx => (he x hx).2]
    exact not_or.2 ⟨isRefused_bitCast.not.1 hnode, ih he⟩

/-! ## Building expressions -/

namespace Clean

variable {n : Name} {s : Scalar} {space : Space}

theorem var (h : ty.isUnknown = false) : (var n ty o).Clean where
  known := fun x hx => by
    rw [nodes, List.mem_singleton] at hx
    · exact hx ▸ h
    all_goals simp
  accepted := by
    rw [fold, refused_leaf rfl]
    · simpa [isRefused, Expr.ty] using h
    all_goals simp

theorem scalarVar (n : Name) (s : Scalar) : (scalarVar n s).Clean := var rfl

theorem ofName (n : Name) : (ofName n).Clean := var rfl

theorem int {v : Int} (h : ty.isUnknown = false) : (int v ty o).Clean where
  known := fun x hx => by
    rw [nodes, List.mem_singleton] at hx
    · exact hx ▸ h
    all_goals simp
  accepted := by
    rw [fold]
    · exact not_refused_int h
    all_goals simp

theorem literal (v : Int) (s : Scalar) : (literal v s).Clean := int rfl

theorem numeral (k : ℕ) : (OfNat.ofNat k : Expr).Clean := int rfl

theorem truth (b : Bool) : (truth b).Clean where
  known := fun x hx => by
    rw [Expr.truth, nodes, List.mem_singleton] at hx
    · exact hx ▸ rfl
    all_goals simp
  accepted := by
    rw [Expr.truth, fold]
    · exact not_refused_bool rfl
    all_goals simp

theorem place (p : Place) (axis : Axis) (o : Origin) : (place p axis o).Clean where
  known := fun x hx => by
    rw [nodes, List.mem_singleton] at hx
    · exact hx ▸ rfl
    all_goals simp
  accepted := by
    rw [fold, refused_leaf rfl]
    · simp [isRefused, Expr.ty, Ty.i64, Ty.isUnknown]
    all_goals simp

/-- an operator that is no mathematical function -/
theorem op2 {op : Binary} (hop : op.mathFunction? = none) (hl : l.Clean) (hr : r.Clean) : (op2 op l r).Clean := by
  have hty : (if op.isComparison || op.isLogical then Ty.bool else l.ty).isUnknown = false := by
    split
    · rfl
    · exact hl.ty_known
  refine ⟨List.forall_mem_cons.2 ⟨hty, List.forall_mem_append.2 ⟨hl.known, hr.known⟩⟩,
    not_refused_foldBinary hl.accepted hr.accepted ?_⟩
  rw [hty, hop]
  simp

theorem add (hl : l.Clean) (hr : r.Clean) : (l + r).Clean := op2 rfl hl hr

theorem sub (hl : l.Clean) (hr : r.Clean) : (l - r).Clean := op2 rfl hl hr

theorem mul (hl : l.Clean) (hr : r.Clean) : (l * r).Clean := op2 rfl hl hr

theorem div (hl : l.Clean) (hr : r.Clean) : (l / r).Clean := op2 rfl hl hr

theorem mod (hl : l.Clean) (hr : r.Clean) : (l % r).Clean := op2 rfl hl hr

theorem lt (hl : l.Clean) (hr : r.Clean) : (l.lt r).Clean := op2 rfl hl hr

theorem ge (hl : l.Clean) (hr : r.Clean) : (l.ge r).Clean := op2 rfl hl hr

theorem eq (hl : l.Clean) (hr : r.Clean) : (l.eq r).Clean := op2 rfl hl hr

theorem and (hl : l.Clean) (hr : r.Clean) : (l.and r).Clean := op2 rfl hl hr

theorem ceilDiv (hl : l.Clean) (hr : r.Clean) : (l.ceilDiv r).Clean := ((hl.add hr).sub (numeral 1)).div hr

theorem not (he : e.Clean) : (e.not).Clean :=
  ⟨List.forall_mem_cons.2 ⟨rfl, he.known⟩, not_refused_foldUnary he.accepted (by simp [Unary.mathFunction?, Ty.bool, Ty.isUnknown])⟩

theorem cast (he : e.Clean) (s : Scalar) : (e.cast s).Clean :=
  ⟨List.forall_mem_cons.2 ⟨rfl, he.known⟩, not_refused_foldConvert he.accepted rfl⟩

theorem castIfNeeded (he : e.Clean) (s : Scalar) : (e.castIfNeeded s).Clean := by
  unfold Expr.castIfNeeded
  split
  · exact he
  · exact he.cast s

theorem element (n : Name) (s : Scalar) (hspace : (Ty.pointer s space).isUnknown = false) (hi : i.Clean) :
    (element n s space i).Clean where
  known := by
    refine List.forall_mem_cons.2 ⟨rfl, List.forall_mem_append.2 ⟨(var hspace).known, hi.known⟩⟩
  accepted := by
    rw [Expr.element, fold, refused_access]
    exact not_or.2 ⟨Bool.false_ne_true, not_or.2 ⟨(var hspace).accepted, hi.accepted⟩⟩

/-- a cast of bits between types of one size, where folding leaves the type of the operand alone -/
theorem sameBits (he : e.Clean) (hty : e.fold.ty.elem.bytes = s.bytes) : (e.sameBits s).Clean where
  known := List.forall_mem_cons.2 ⟨rfl, he.known⟩
  accepted := by
    rw [Expr.sameBits, fold, refused_bitCast]
    refine not_or.2 ⟨not_or.2 ⟨Bool.false_ne_true, not_not.2 hty⟩, he.accepted⟩

theorem foldl {f : Expr → Expr → Expr} (hf : ∀ a b : Expr, a.Clean → b.Clean → (f a b).Clean) {l : List Expr}
    (he : e.Clean) (hl : ∀ x ∈ l, x.Clean) : (l.foldl f e).Clean := by
  induction l generalizing e with
  | nil => exact he
  | cons x l ih => exact ih (hf e x he (hl x (List.mem_cons_self ..))) fun y hy => hl y (List.mem_cons_of_mem x hy)

theorem product {l : List Expr} (hl : ∀ x ∈ l, x.Clean) : (product l).Clean := by
  cases l with
  | nil => exact numeral 1
  | cons x l => exact foldl (fun _ _ ha hb => ha.mul hb) (hl x (List.mem_cons_self ..)) fun y hy => hl y (List.mem_cons_of_mem x hy)

end Clean

end Expr

/-! ## Statements -/

variable {E E' : Expr → Prop}

/-- a statement of a kernel that is no barrier, with expressions that satisfy `E`, apart from the statements in it -/
def Stmt.LegalHere (E : Expr → Prop) (s : Stmt) : Prop :=
  s.isRefused = false ∧ Machine.isBarrier s = false ∧ ∀ e ∈ s.exprs, E e

instance [DecidablePred E] (s : Stmt) : Decidable (s.LegalHere E) :=
  inferInstanceAs (Decidable (s.isRefused = false ∧ Machine.isBarrier s = false ∧ ∀ e ∈ s.exprs, E e))

/-- a statement of a kernel without barriers, with expressions that satisfy `E` -/
def Stmt.Legal (E : Expr → Prop) (s : Stmt) : Prop := ∀ x ∈ s.nodes, x.LegalHere E

/-- statements of a kernel without barriers, with expressions that satisfy `E` -/
def BlockLegal (E : Expr → Prop) (l : List Stmt) : Prop := ∀ x ∈ blockNodes l, x.LegalHere E

instance [DecidablePred E] (l : List Stmt) : Decidable (BlockLegal E l) := inferInstanceAs (Decidable (∀ x ∈ blockNodes l, x.LegalHere E))

theorem Stmt.LegalHere.mono {s : Stmt} (h : s.LegalHere E) (hE : ∀ e, E e → E' e) : s.LegalHere E' :=
  ⟨h.1, h.2.1, fun e he => hE e (h.2.2 e he)⟩

theorem Stmt.Legal.mono {s : Stmt} (h : s.Legal E) (hE : ∀ e, E e → E' e) : s.Legal E' := fun x hx => (h x hx).mono hE

theorem BlockLegal.mono {l : List Stmt} (h : BlockLegal E l) (hE : ∀ e, E e → E' e) : BlockLegal E' l :=
  fun x hx => (h x hx).mono hE

@[simp] theorem blockLegal_nil : BlockLegal E [] := by
  simp [BlockLegal]

@[simp] theorem blockLegal_cons {s : Stmt} {l : List Stmt} : BlockLegal E (s :: l) ↔ s.Legal E ∧ BlockLegal E l := by
  simp only [BlockLegal, Stmt.Legal, blockNodes, List.forall_mem_append]

@[simp] theorem blockLegal_append {l l' : List Stmt} : BlockLegal E (l ++ l') ↔ BlockLegal E l ∧ BlockLegal E l' := by
  induction l with
  | nil => simp
  | cons s l ih => simp [ih, and_assoc]

theorem blockLegal_iff {l : List Stmt} : BlockLegal E l ↔ ∀ s ∈ l, s.Legal E := by
  induction l with
  | nil => simp
  | cons s l ih => simp [ih]

namespace Stmt

variable {ty : Ty} {n : Name} {e dst cond init incr bound idx value cmp new : Expr} {o : Origin} {body thn els : List Stmt}

theorem legal_leaf {s : Stmt} (h : s.nodes = [s]) : s.Legal E ↔ s.LegalHere E := by
  simp [Legal, h]

@[simp] theorem legal_define : (define ty n e o).Legal E ↔ ty.isUnknown = false ∧ E e := by
  rw [legal_leaf (by simp)]
  simp [LegalHere, Machine.isBarrier, exprs, foldExprs]

@[simp] theorem legal_assign : (assign dst e o).Legal E ↔ E dst ∧ E e := by
  rw [legal_leaf (by simp)]
  simp [LegalHere, isHostOnly, Machine.isBarrier, exprs, foldExprs]

@[simp] theorem legal_forLoop : (forLoop ty n init cond incr body o).Legal E ↔
    (ty.isUnknown = false ∧ E init ∧ E cond ∧ E incr) ∧ BlockLegal E body := by
  have hhere : (forLoop ty n init cond incr body o).LegalHere E ↔ ty.isUnknown = false ∧ E init ∧ E cond ∧ E incr := by
    simp [LegalHere, Machine.isBarrier, exprs, foldExprs]
  rw [Legal, nodes, List.forall_mem_cons, hhere, BlockLegal]

@[simp] theorem legal_ifElse : (ifElse cond thn els o).Legal E ↔ E cond ∧ BlockLegal E thn ∧ BlockLegal E els := by
  have hhere : (ifElse cond thn els o).LegalHere E ↔ E cond := by
    simp [LegalHere, isHostOnly, Machine.isBarrier, exprs, foldExprs]
  rw [Legal, nodes, List.forall_mem_cons, List.forall_mem_append, hhere, BlockLegal, BlockLegal]

@[simp] theorem legal_whileLoop : (whileLoop cond body o).Legal E ↔ E cond ∧ BlockLegal E body := by
  have hhere : (whileLoop cond body o).LegalHere E ↔ E cond := by
    simp [LegalHere, isHostOnly, Machine.isBarrier, exprs, foldExprs]
  rw [Legal, nodes, List.forall_mem_cons, hhere, BlockLegal]

@[simp] theorem legal_scope : (scope body o).Legal E ↔ BlockLegal E body := by
  have hhere : (scope body o).LegalHere E ↔ True := by
    simp [LegalHere, isHostOnly, Machine.isBarrier, exprs, foldExprs]
  rw [Legal, nodes, List.forall_mem_cons, hhere, true_and, BlockLegal]

@[simp] theorem legal_barrier {sc : BarrierScope} : (barrier sc o).Legal E ↔ False := by
  rw [legal_leaf (by simp)]
  simp [LegalHere, Machine.isBarrier]

@[simp] theorem legal_fence {space : Space} : (fence space o).Legal E ↔ space.hasAtomics = true := by
  rw [legal_leaf (by simp)]
  simp [LegalHere, Machine.isBarrier, exprs, foldExprs]

@[simp] theorem legal_atomic {op : Atomic} {space : Space} {s : Scalar} {old : Option Name} :
    (atomic op space s n idx value old o).Legal E ↔ space.hasAtomics = true ∧ E idx ∧ E value := by
  rw [legal_leaf (by simp)]
  simp [LegalHere, Machine.isBarrier, exprs, foldExprs]

@[simp] theorem legal_compareSwap {space : Space} {s : Scalar} {old : Name} :
    (compareSwap old space s n idx cmp new o).Legal E ↔ space.hasAtomics = true ∧ E idx ∧ E cmp ∧ E new := by
  rw [legal_leaf (by simp)]
  simp [LegalHere, Machine.isBarrier, exprs, foldExprs]

theorem not_legal_of_isHostOnly {s : Stmt} (h : s.isHostOnly = true) : ¬ s.Legal E := by
  intro hl
  obtain ⟨hr, -⟩ := hl s s.self_mem_nodes
  cases s <;> simp_all [isRefused, isHostOnly]

end Stmt

/-! ## Folding statements -/

theorem blockRefused_append {l l' : List Stmt} : BlockRefused (l ++ l') ↔ BlockRefused l ∨ BlockRefused l' := by
  induction l with
  | nil => simp [blockRefused_nil]
  | cons s l ih => rw [List.cons_append, blockRefused_cons, blockRefused_cons, ih, or_assoc]

theorem blockRefused_singleton {s : Stmt} : BlockRefused [s] ↔ s.Refused := by
  rw [blockRefused_cons, blockRefused_nil, or_false]

mutual

/-- a clean statement is accepted when it is folded -/
theorem clean_fold : ∀ {s : Stmt}, s.Legal Expr.Clean → ¬ BlockRefused s.fold
  | .define ty n e o, h => by
    rw [Stmt.legal_define] at h
    simp only [Stmt.fold, Stmt.mapExprs]
    rw [blockRefused_singleton]
    exact Stmt.refused_define.not.2 (not_or.2 ⟨Bool.eq_false_iff.1 h.1, h.2.accepted⟩)
  | .assign dst e o, h => by
    rw [Stmt.legal_assign] at h
    simp only [Stmt.fold, Stmt.mapExprs]
    rw [blockRefused_singleton]
    exact Stmt.refused_assign.not.2 (not_or.2 ⟨h.1.accepted, h.2.accepted⟩)
  | .forLoop ty n init cond incr body o, h => by
    rw [Stmt.legal_forLoop] at h
    obtain ⟨⟨hty, hinit, hcond, hincr⟩, hbody⟩ := h
    rw [Stmt.fold, blockRefused_singleton, Stmt.refused_forLoop]
    simp [hty, hinit.accepted, hcond.accepted, hincr.accepted, clean_foldBlock hbody]
  | .ifElse cond thn els o, h => by
    rw [Stmt.legal_ifElse] at h
    obtain ⟨hcond, hthn, hels⟩ := h
    rw [Stmt.fold]
    split
    · exact clean_foldBlock hthn
    · exact clean_foldBlock hels
    · rw [blockRefused_singleton, Stmt.refused_ifElse]
      simp [hcond.accepted, clean_foldBlock hthn, clean_foldBlock hels]
  | .whileLoop cond body o, h => by
    rw [Stmt.legal_whileLoop] at h
    rw [Stmt.fold, blockRefused_singleton, Stmt.refused_whileLoop]
    exact not_or.2 ⟨h.1.accepted, clean_foldBlock h.2⟩
  | .scope body o, h => by
    rw [Stmt.legal_scope] at h
    rw [Stmt.fold, blockRefused_singleton, Stmt.refused_scope]
    exact clean_foldBlock h
  | .barrier sc o, h => absurd h (by simp)
  | .fence space o, h => by
    rw [Stmt.legal_fence] at h
    simp only [Stmt.fold, Stmt.mapExprs]
    rw [blockRefused_singleton]
    exact Stmt.refused_fence.not.2 (by simp [h])
  | .atomic op space s n idx value old o, h => by
    rw [Stmt.legal_atomic] at h
    simp only [Stmt.fold, Stmt.mapExprs]
    rw [blockRefused_singleton]
    refine Stmt.refused_atomic.not.2 (not_or.2 ⟨?_, not_or.2 ⟨h.2.1.accepted, h.2.2.accepted⟩⟩)
    rw [h.1]
    exact Bool.noConfusion
  | .compareSwap old space s n idx cmp new o, h => by
    rw [Stmt.legal_compareSwap] at h
    simp only [Stmt.fold, Stmt.mapExprs]
    rw [blockRefused_singleton]
    refine Stmt.refused_compareSwap.not.2 (not_or.2 ⟨?_, not_or.2 ⟨h.2.1.accepted, not_or.2 ⟨h.2.2.1.accepted, h.2.2.2.accepted⟩⟩⟩)
    rw [h.1]
    exact Bool.noConfusion
  | .alloc .., h | .free .., h | .copy .., h | .fill .., h | .rebind .., h | .table .., h | .launch .., h =>
    absurd h (Stmt.not_legal_of_isHostOnly rfl)

/-- clean statements are accepted when they are folded -/
theorem clean_foldBlock : ∀ {l : List Stmt}, BlockLegal Expr.Clean l → ¬ BlockRefused (foldBlock l)
  | [], _ => by
    rw [foldBlock, blockRefused_nil]
    exact not_false
  | s :: l, h => by
    rw [blockLegal_cons] at h
    rw [foldBlock, blockRefused_append]
    exact not_or.2 ⟨clean_fold h.1, clean_foldBlock h.2⟩

end

mutual

theorem hasBarrier_of_legal : ∀ {s : Stmt}, s.Legal E → Machine.hasBarrier s = false
  | .forLoop .., h => anyBarrier_of_legal (Stmt.legal_forLoop.1 h).2
  | .ifElse .., h => by
    rw [Machine.hasBarrier, anyBarrier_of_legal (Stmt.legal_ifElse.1 h).2.1, anyBarrier_of_legal (Stmt.legal_ifElse.1 h).2.2]
    rfl
  | .whileLoop .., h => anyBarrier_of_legal (Stmt.legal_whileLoop.1 h).2
  | .scope .., h => anyBarrier_of_legal (Stmt.legal_scope.1 h)
  | .barrier .., h => absurd h (by simp)
  | .define .., _ | .assign .., _ | .fence .., _ | .atomic .., _ | .compareSwap .., _ | .alloc .., _ | .free .., _
  | .copy .., _ | .fill .., _ | .rebind .., _ | .table .., _ | .launch .., _ => rfl

theorem anyBarrier_of_legal : ∀ {l : List Stmt}, BlockLegal E l → Machine.anyBarrier l = false
  | [], _ => rfl
  | s :: l, h => by
    rw [blockLegal_cons] at h
    rw [Machine.anyBarrier, hasBarrier_of_legal h.1, anyBarrier_of_legal h.2]
    rfl

end

/-! ## Captured variables -/

namespace Occurrences

/-- the types of all variables met are known -/
def Known (u : Occurrences) : Prop := ∀ x ∈ u.free.entries, x.2.isUnknown = false

variable {u : Occurrences} {n : Name} {ty : Ty} {e : Expr}

theorem Known.use (h : u.Known) (hty : ty.isUnknown = false) : (u.use n ty).Known := by
  have hput (l : List (Name × Ty)) (hl : ∀ x ∈ l, x.2.isUnknown = false) : ∀ x ∈ Bindings.put n ty l, x.2.isUnknown = false := by
    induction l with
    | nil => simpa [Bindings.put] using hty
    | cons y l ih =>
      obtain ⟨hy, hl⟩ := List.forall_mem_cons.1 hl
      rw [Bindings.put]
      split
      · exact List.forall_mem_cons.2 ⟨hty, hl⟩
      · exact List.forall_mem_cons.2 ⟨hy, ih hl⟩
  unfold Occurrences.use
  split
  · exact h
  · exact hput _ h

theorem Known.expr (h : u.Known) (he : ∀ x ∈ e.nodes, x.ty.isUnknown = false) : (u.expr e).Known := by
  induction e generalizing u with
  | var n ty o => exact h.use (he _ (Expr.self_mem_nodes _))
  | unary op e ty o ih => exact ih h fun x hx => he x (List.mem_cons_of_mem _ hx)
  | convert e ty ih => exact ih h fun x hx => he x (List.mem_cons_of_mem _ hx)
  | bitCast e ty ih => exact ih h fun x hx => he x (List.mem_cons_of_mem _ hx)
  | binary op l r ty o ihl ihr =>
    obtain ⟨hl, hr⟩ := List.forall_mem_append.1 (List.forall_mem_cons.1 he).2
    exact ihr (ihl h hl) hr
  | select c t e ty o ihc iht ihe =>
    obtain ⟨hc, hparts⟩ := List.forall_mem_append.1 (List.forall_mem_cons.1 he).2
    obtain ⟨ht, he⟩ := List.forall_mem_append.1 hparts
    exact ihe (iht (ihc h hc) ht) he
  | access t i ty o iht ihi =>
    obtain ⟨ht, hi⟩ := List.forall_mem_append.1 (List.forall_mem_cons.1 he).2
    exact ihi (iht h ht) hi
  | _ => exact h

theorem Known.bind (h : u.Known) (n : Name) : (u.bind n).Known := h

theorem hasAtomics_known {space : Space} (h : space.hasAtomics = true) (s : Scalar) : (Ty.pointer s space).isUnknown = false := by
  cases space <;> first | rfl | cases h

mutual

theorem Known.stmt : ∀ {s : Stmt} {u : Occurrences}, u.Known → s.Legal Expr.Clean → (u.stmt s).Known
  | .define .., u, hu, h => by
    rw [Occurrences.stmt]
    exact (hu.expr (Stmt.legal_define.1 h).2.known).bind _
  | .assign .., u, hu, h => by
    rw [Occurrences.stmt]
    · exact (hu.expr (Stmt.legal_assign.1 h).1.known).expr (Stmt.legal_assign.1 h).2.known
    all_goals simp
  | .forLoop .., u, hu, h => by
    obtain ⟨⟨-, hinit, hcond, hincr⟩, hbody⟩ := Stmt.legal_forLoop.1 h
    rw [Occurrences.stmt]
    exact ((((hu.expr hinit.known).bind _).expr hcond.known).expr hincr.known).stmts hbody
  | .ifElse .., u, hu, h => by
    obtain ⟨hcond, hthn, hels⟩ := Stmt.legal_ifElse.1 h
    rw [Occurrences.stmt]
    exact ((hu.expr hcond.known).stmts hthn).stmts hels
  | .whileLoop .., u, hu, h => by
    rw [Occurrences.stmt]
    exact (hu.expr (Stmt.legal_whileLoop.1 h).1.known).stmts (Stmt.legal_whileLoop.1 h).2
  | .scope .., u, hu, h => by
    rw [Occurrences.stmt]
    exact hu.stmts (Stmt.legal_scope.1 h)
  | .barrier .., u, hu, h => absurd h (by simp)
  | .fence .., u, hu, h => by
    rw [Occurrences.stmt]
    · exact hu
    all_goals simp
  | .atomic op space s n idx value old o, u, hu, h => by
    obtain ⟨hspace, hidx, hvalue⟩ := Stmt.legal_atomic.1 h
    have hall : (((u.use n (.pointer s space)).expr idx).expr value).Known :=
      ((hu.use (hasAtomics_known hspace s)).expr hidx.known).expr hvalue.known
    cases old with
    | none =>
      rw [Occurrences.stmt]
      exact hall
    | some m =>
      rw [Occurrences.stmt]
      exact hall.bind m
  | .compareSwap old space s n idx cmp new o, u, hu, h => by
    obtain ⟨hspace, hidx, hcmp, hnew⟩ := Stmt.legal_compareSwap.1 h
    rw [Occurrences.stmt]
    exact ((((hu.use (hasAtomics_known hspace s)).expr hidx.known).expr hcmp.known).expr hnew.known).bind old
  | .alloc .., _, _, h | .free .., _, _, h | .copy .., _, _, h | .fill .., _, _, h | .rebind .., _, _, h
  | .table .., _, _, h | .launch .., _, _, h => absurd h (Stmt.not_legal_of_isHostOnly rfl)

theorem Known.stmts : ∀ {l : List Stmt} {u : Occurrences}, u.Known → BlockLegal Expr.Clean l → (u.stmts l).Known
  | [], u, hu, _ => by rwa [Occurrences.stmts]
  | s :: l, u, hu, h => by
    rw [blockLegal_cons] at h
    rw [Occurrences.stmts]
    exact (hu.stmt h.1).stmts h.2

end

end Occurrences

/-! ## Kernels -/

/-- the body of a kernel: clean statements, with barriers between them -/
def CleanBody (l : List Stmt) : Prop := ∀ s ∈ l, Machine.isBarrier s = true ∨ s.Legal Expr.Clean

namespace CleanBody

variable {l l' : List Stmt}

theorem of_legal (h : BlockLegal Expr.Clean l) : CleanBody l := fun s hs => .inr (blockLegal_iff.1 h s hs)

theorem append (h : CleanBody l) (h' : CleanBody l') : CleanBody (l ++ l') := List.forall_mem_append.2 ⟨h, h'⟩

theorem barrier (sc : BarrierScope) (o : Origin) : CleanBody [.barrier sc o] := fun _ hs => .inl (List.mem_singleton.1 hs ▸ rfl)

theorem not_refused_foldBlock (h : CleanBody l) : ¬ BlockRefused (foldBlock l) := by
  induction l with
  | nil =>
    rw [foldBlock, blockRefused_nil]
    exact not_false
  | cons s l ih =>
    obtain ⟨hs, hl⟩ := List.forall_mem_cons.1 h
    rw [foldBlock, blockRefused_append]
    refine not_or.2 ⟨?_, ih hl⟩
    rcases hs with hs | hs
    · obtain ⟨sc, o, rfl⟩ := Machine.isBarrier_eq_true hs
      simp only [Stmt.fold, Stmt.mapExprs]
      rw [blockRefused_singleton]
      exact Stmt.refused_barrier.not.2 not_false
    · exact clean_fold hs

theorem stmts_known (h : CleanBody l) {u : Occurrences} (hu : u.Known) : (u.stmts l).Known := by
  induction l generalizing u with
  | nil => rwa [Occurrences.stmts]
  | cons s l ih =>
    obtain ⟨hs, hl⟩ := List.forall_mem_cons.1 h
    rw [Occurrences.stmts]
    refine ih hl ?_
    rcases hs with hs | hs
    · obtain ⟨sc, o, rfl⟩ := Machine.isBarrier_eq_true hs
      rw [Occurrences.stmt]
      · exact hu
      all_goals simp
    · exact hu.stmt hs

/-- the captured variables have known types -/
theorem known (h : CleanBody l) (blocks : List LocalBlock) : ∀ c ∈ freeVariables l blocks, c.2.isUnknown = false := by
  have hstart : (Occurrences.start blocks).Known := by
    unfold Occurrences.Known
    rw [(Occurrences.start_spec blocks).1]
    exact fun x hx => absurd hx List.not_mem_nil
  exact fun c hc => h.stmts_known hstart c (Bindings.mem_sorted.1 hc)

/-- when the body is folded, barriers stand at the top only -/
theorem barriers_foldBlock (h : CleanBody l) : ∀ s ∈ foldBlock l, Machine.isBarrier s = true ∨ Machine.hasBarrier s = false := by
  intro s hs
  obtain ⟨x, hx, hsx⟩ := Machine.mem_foldBlock.1 hs
  rcases h x hx with hx | hx
  · obtain ⟨sc, o, rfl⟩ := Machine.isBarrier_eq_true hx
    simp only [Stmt.fold, Stmt.mapExprs] at hsx
    exact .inl (List.mem_singleton.1 hsx ▸ rfl)
  · exact .inr (Machine.isBarrier_of_anyBarrier (Machine.anyBarrier_fold (hasBarrier_of_legal hx)) hsx).2

end CleanBody

/-- a kernel that takes from the host what its body uses, and has a clean body -/
structure Kernel.Clean (κ : Kernel) : Prop where
  captures : κ.captures = freeVariables κ.body κ.blocks
  body : CleanBody κ.body

/-- all kernels that are launched are clean -/
def LaunchesClean (l : List Stmt) : Prop := ∀ κ ∈ blockKernels l, κ.Clean

/-- the kernel with its body and the shape of its grid folded -/
def Kernel.fold (κ : Kernel) : Kernel := ⟨κ.toLaunchSpec.fold, foldBlock κ.body⟩

mutual

theorem kernels_fold {κ : Kernel} : ∀ {s : Stmt}, κ ∈ blockKernels s.fold → ∃ κ' ∈ s.kernels, κ = κ'.fold
  | .launch spec body o, h => by
    rw [Stmt.fold, blockKernels_cons, blockKernels_nil, Stmt.kernels, List.append_nil, List.mem_singleton] at h
    exact ⟨⟨spec, body⟩, by simp [Stmt.kernels], h⟩
  | .forLoop .., h => by
    rw [Stmt.fold, blockKernels_cons, blockKernels_nil, Stmt.kernels, List.append_nil] at h
    rw [Stmt.kernels]
    exact blockKernels_foldBlock h
  | .whileLoop .., h => by
    rw [Stmt.fold, blockKernels_cons, blockKernels_nil, Stmt.kernels, List.append_nil] at h
    rw [Stmt.kernels]
    exact blockKernels_foldBlock h
  | .scope .., h => by
    rw [Stmt.fold, blockKernels_cons, blockKernels_nil, Stmt.kernels, List.append_nil] at h
    rw [Stmt.kernels]
    exact blockKernels_foldBlock h
  | .ifElse cond thn els o, h => by
    rw [Stmt.kernels]
    have hthn : κ ∈ blockKernels (foldBlock thn) → ∃ κ' ∈ blockKernels thn ++ blockKernels els, κ = κ'.fold := fun h =>
      (blockKernels_foldBlock h).imp fun _ hκ => ⟨List.mem_append_left _ hκ.1, hκ.2⟩
    have hels : κ ∈ blockKernels (foldBlock els) → ∃ κ' ∈ blockKernels thn ++ blockKernels els, κ = κ'.fold := fun h =>
      (blockKernels_foldBlock h).imp fun _ hκ => ⟨List.mem_append_right _ hκ.1, hκ.2⟩
    rw [Stmt.fold] at h
    split at h
    · exact hthn h
    · exact hels h
    · rw [blockKernels_cons, blockKernels_nil, Stmt.kernels, List.append_nil, List.mem_append] at h
      exact h.elim hthn hels
  | .define .., h | .assign .., h | .barrier .., h | .fence .., h | .atomic .., h | .compareSwap .., h | .alloc .., h
  | .free .., h | .copy .., h | .fill .., h | .rebind .., h | .table .., h => by
    simp [Stmt.fold, Stmt.mapExprs, Stmt.kernels] at h

/-- the kernels of folded code are kernels of the code, folded -/
theorem blockKernels_foldBlock {κ : Kernel} : ∀ {l : List Stmt}, κ ∈ blockKernels (foldBlock l) → ∃ κ' ∈ blockKernels l, κ = κ'.fold
  | [], h => by
    rw [foldBlock, blockKernels_nil] at h
    exact absurd h List.not_mem_nil
  | s :: l, h => by
    rw [foldBlock, blockKernels_append, List.mem_append] at h
    rw [blockKernels_cons]
    rcases h with h | h
    · exact (kernels_fold h).imp fun _ hκ => ⟨List.mem_append_left _ hκ.1, hκ.2⟩
    · exact (blockKernels_foldBlock h).imp fun _ hκ => ⟨List.mem_append_right _ hκ.1, hκ.2⟩

end

/-- a kernel that is accepted, with barriers at the top of its body only, where it is divided into phases -/
structure Kernel.Deployable (κ : Kernel) : Prop where
  accepted : ¬ κ.Refused
  barriers : ∀ s ∈ κ.body, Machine.isBarrier s = true ∨ Machine.hasBarrier s = false
  phases : Machine.topLevelPhases κ.toLaunchSpec κ.body = .ok (Machine.phases κ.body)

theorem Kernel.Clean.deployable {κ : Kernel} (h : κ.Clean) : κ.fold.Deployable where
  accepted := by
    rintro (⟨c, hc, hu⟩ | hb)
    · have hknown : c.2.isUnknown = false := h.body.known κ.blocks c (h.captures ▸ hc)
      rw [hknown] at hu
      cases hu
    · exact h.body.not_refused_foldBlock hb
  barriers := h.body.barriers_foldBlock
  phases := by
    unfold Machine.topLevelPhases
    rw [if_neg]
    rw [Bool.not_eq_true, List.any_eq_false]
    intro s hs
    rcases h.body.barriers_foldBlock s hs with hb | hb <;> simp [hb]

/-- **Clean code is deployable.** Every kernel that is launched by folded code whose kernels are clean is deployable. -/
theorem LaunchesClean.deployable {l : List Stmt} (h : LaunchesClean l) : ∀ κ ∈ blockKernels (foldBlock l), κ.Deployable := by
  intro κ hκ
  obtain ⟨κ', hκ', rfl⟩ := blockKernels_foldBlock hκ
  exact (h κ' hκ').deployable

end GpuHistogram
