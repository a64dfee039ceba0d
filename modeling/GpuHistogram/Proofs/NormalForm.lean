/-
Folding comes to rest in one pass. A rewrite can make another one possible at the parent of a node, and a resolved
conditional puts its branch among the statements around it, but the parts of a node are folded before the node and a
spliced branch has been folded already, so nothing is left for a second pass.

Results:
- `Binary.foldWords?_eq_none`: which operators on two words are left as they are;
- `Expr.normal_fold`, `Expr.fold_of_normal`: folding makes expressions in which no node can be rewritten, and keeps those;
- `blockNormal_foldBlock`, `foldBlock_of_normal`: the same of statements at all depths, the bodies of kernels included;
- `folding_normalizes`: folding twice is folding once, and no conditional on a literal and no operator that could be
  computed is left.
-/
import GpuHistogram.Proofs.Form
import GpuHistogram.Proofs.Portable

namespace GpuHistogram

/-! ## Operators on words -/

namespace Binary

/-- whether the operator moves the bits of a word -/
def isShift : Binary → Bool
  | shl | shr => true
  | _ => false

/-- whether the operator divides its first operand by the second -/
def isDivision : Binary → Bool
  | div | rem => true
  | _ => false

/-- whether a result of 64-bit arithmetic on two words is none; a remainder overflows with its quotient -/
def Overflows : Binary → Int → Int → Prop
  | add, a, b => Word64.fits (a + b) = false
  | sub, a, b => Word64.fits (a - b) = false
  | mul, a, b => Word64.fits (a * b) = false
  | div, a, b | rem, a, b => b ≠ 0 ∧ Word64.fits (a.tdiv b) = false
  | _, _, _ => False

/-- an operator of arithmetic or a comparison is left as it is only if it is a shift, divides by zero or overflows -/
theorem foldWords?_eq_none {op : Binary} {a b : Int} (hop : op.isLogical = false) (h : op.foldWords? a b = none) :
    op.isShift = true ∨ (op.isDivision = true ∧ b = 0) ∨ op.Overflows a b := by
  have hchecked : ∀ v : Int, Word64.checked? v = none → Word64.fits v = false := by
    intro v hv
    unfold Word64.checked? at hv
    split at hv
    · cases hv
    · next hfits => simpa using hfits
  cases op with
  | and | or => cases hop
  | shl | shr => exact .inl rfl
  | bitAnd | bitOr | bitXor | max | min | eq | ne | le | ge | lt | gt => cases h
  | add | sub | mul => exact .inr (.inr (hchecked _ (Option.map_eq_none_iff.1 h)))
  | div =>
    have h := Option.map_eq_none_iff.1 h
    split at h
    · next hb => exact .inr (.inl ⟨rfl, hb⟩)
    · next hb => exact .inr (.inr ⟨hb, hchecked _ h⟩)
  | rem =>
    have h := Option.map_eq_none_iff.1 h
    split at h
    · next hab =>
      rcases hab with hb | ⟨rfl, rfl⟩
      · exact .inr (.inl ⟨rfl, hb⟩)
      · exact .inr (.inr ⟨by decide, by decide⟩)
    · cases h

end Binary

/-! ## Expressions -/

namespace Expr

variable {e l r : Expr} {ty : Ty} {o : Origin}

/-- a literal truth value -/
def isTruth : Expr → Bool
  | bool .. => true
  | _ => false

theorem isTruth_eq_false (htrue : ∀ ty o, e = bool true ty o → False) (hfalse : ∀ ty o, e = bool false ty o → False) :
    e.isTruth = false := by
  cases e with
  | bool b ty o =>
    cases b with
    | true => exact absurd rfl (htrue ty o)
    | false => exact absurd rfl (hfalse ty o)
  | _ => rfl

/-- whether a node is left as it is when its parts are folded -/
def Rests : Expr → Prop
  | unary op e ty o => foldUnary op e ty o = unary op e ty o
  | binary op l r ty o => foldBinary op l r ty o = binary op l r ty o
  | select c _ _ _ _ => c.isTruth = false
  | convert e ty => foldConvert e ty = convert e ty
  | _ => True

/-- whether all nodes of an expression are left as they are -/
def Normal (e : Expr) : Prop := ∀ x ∈ e.nodes, x.Rests

theorem normal_leaf (h : e.isLeaf = true) : e.Normal := by
  cases e with
  | unary | binary | select | access | convert | bitCast => cases h
  | _ => simp [Normal, Rests]

@[simp] theorem normal_unary {op : Unary} :
    (unary op e ty o).Normal ↔ foldUnary op e ty o = unary op e ty o ∧ e.Normal := by
  simp [Normal, Rests]

@[simp] theorem normal_binary {op : Binary} :
    (binary op l r ty o).Normal ↔ foldBinary op l r ty o = binary op l r ty o ∧ l.Normal ∧ r.Normal := by
  simp [Normal, Rests, or_imp, forall_and]

@[simp] theorem normal_select {c : Expr} :
    (select c l r ty o).Normal ↔ c.isTruth = false ∧ c.Normal ∧ l.Normal ∧ r.Normal := by
  simp [Normal, Rests, or_imp, forall_and]

@[simp] theorem normal_access : (access l r ty o).Normal ↔ l.Normal ∧ r.Normal := by
  simp [Normal, Rests, or_imp, forall_and]

@[simp] theorem normal_convert : (convert e ty).Normal ↔ foldConvert e ty = convert e ty ∧ e.Normal := by
  simp [Normal, Rests]

@[simp] theorem normal_bitCast : (bitCast e ty).Normal ↔ e.Normal := by
  simp [Normal, Rests]

/-! ### What one step makes -/

/-- what is put in the place of an operator on folded parts: the node as it is, one of the parts, or a literal -/
inductive Replaces (node : Expr) (parts : List Expr) : Expr → Prop
  | node : Replaces node parts node
  | part {x : Expr} (h : x ∈ parts) : Replaces node parts x
  | leaf {x : Expr} (h : x.isLeaf = true) : Replaces node parts x

theorem replaces_foldNeutral (op : Binary) (l r : Expr) (ty : Ty) (o : Origin) :
    Replaces (binary op l r ty o) [l, r] (foldNeutral op l r ty o) := by
  unfold foldNeutral
  split <;> try split_ifs
  all_goals first | exact .node | exact .leaf rfl | exact .part (.head _) | exact .part (.tail _ (.head _))

theorem replaces_foldBinary (op : Binary) (l r : Expr) (ty : Ty) (o : Origin) :
    Replaces (binary op l r ty o) [l, r] (foldBinary op l r ty o) := by
  unfold foldBinary
  split
  · split
    · next e he =>
      rcases literal_of_foldWords? he with ⟨x, rfl, -⟩ | ⟨x, rfl, -⟩ <;> exact .leaf rfl
    · exact .node
  · unfold foldMixed
    split <;> try split_ifs
    all_goals first
      | exact .node | exact .leaf rfl | exact .part (.head _) | exact .part (.tail _ (.head _))
      | exact replaces_foldNeutral op _ _ ty o

theorem replaces_foldUnary (op : Unary) (e : Expr) (ty : Ty) (o : Origin) :
    Replaces (unary op e ty o) [e] (foldUnary op e ty o) := by
  unfold foldUnary
  split <;> try split_ifs
  all_goals first | exact .node | exact .leaf rfl

theorem replaces_foldConvert (e : Expr) (ty : Ty) : Replaces (convert e ty) [e] (foldConvert e ty) := by
  unfold foldConvert
  split
  · exact .leaf rfl
  · exact .node

/-- what replaces a node whose parts are normal is normal, if the node itself is put back only where it is at rest -/
theorem Replaces.normal {node x : Expr} {parts : List Expr} (h : Replaces node parts x)
    (hparts : ∀ p ∈ parts, p.Normal) (hnode : x = node → node.Normal) : x.Normal := by
  cases h with
  | node => exact hnode rfl
  | part hx => exact hparts x hx
  | leaf hx => exact normal_leaf hx

/-! ### One pass -/

/-- no node of a folded expression can be rewritten -/
theorem normal_fold (e : Expr) : e.fold.Normal := by
  induction e with
  | unary op e ty o ih =>
    exact (replaces_foldUnary op e.fold ty o).normal (by simpa using ih) fun h => normal_unary.2 ⟨h, ih⟩
  | binary op l r ty o ihl ihr =>
    exact (replaces_foldBinary op l.fold r.fold ty o).normal (by simpa using ⟨ihl, ihr⟩) fun h =>
      normal_binary.2 ⟨h, ihl, ihr⟩
  | select c t e ty o ihc iht ihe =>
    rw [fold]
    split
    · exact iht
    · exact ihe
    · next htrue hfalse => exact normal_select.2 ⟨isTruth_eq_false htrue hfalse, ihc, iht, ihe⟩
  | access t i ty o iht ihi => exact normal_access.2 ⟨iht, ihi⟩
  | convert e ty ih =>
    exact (replaces_foldConvert e.fold ty).normal (by simpa using ih) fun h => normal_convert.2 ⟨h, ih⟩
  | bitCast e ty ih => exact normal_bitCast.2 ih
  | _ => exact normal_leaf rfl

/-- folding keeps an expression in which no node can be rewritten -/
theorem fold_of_normal (h : e.Normal) : e.fold = e := by
  induction e with
  | unary op e ty o ih =>
    obtain ⟨hnode, he⟩ := normal_unary.1 h
    rw [fold, ih he, hnode]
  | binary op l r ty o ihl ihr =>
    obtain ⟨hnode, hl, hr⟩ := normal_binary.1 h
    rw [fold, ihl hl, ihr hr, hnode]
  | select c t e ty o ihc iht ihe =>
    obtain ⟨htruth, hc, ht, he⟩ := normal_select.1 h
    rw [fold, ihc hc, iht ht, ihe he]
    cases c with
    | bool => cases htruth
    | _ => rfl
  | access t i ty o iht ihi =>
    obtain ⟨ht, hi⟩ := normal_access.1 h
    rw [fold, iht ht, ihi hi]
  | convert e ty ih =>
    obtain ⟨hnode, he⟩ := normal_convert.1 h
    rw [fold, ih he, hnode]
  | bitCast e ty ih => rw [fold, ih (normal_bitCast.1 h)]
  | _ => rfl

theorem fold_fold (e : Expr) : e.fold.fold = e.fold := fold_of_normal e.normal_fold

/-! ### What is left -/

/-- a conditional on a literal -/
def isDecided : Expr → Bool
  | select c _ _ _ _ => c.isTruth
  | _ => false

/-- an operator of arithmetic or a comparison on 64-bit literals, with a result that is a literal -/
def IsComputable : Expr → Prop
  | binary op (int a (.scalar .i64) _) (int b (.scalar .i64) _) _ _ =>
    op.isLogical = false ∧ op.isShift = false ∧ (op.isDivision = true → b ≠ 0) ∧ ¬ op.Overflows a b
  | _ => False

theorem Rests.isDecided (h : e.Rests) : e.isDecided = false := by
  cases e with
  | select => exact h
  | _ => rfl

theorem Rests.not_isComputable (h : e.Rests) : ¬ e.IsComputable := by
  unfold IsComputable
  split
  · next op a p b q ty o =>
    rintro ⟨hlogical, hshift, hzero, hover⟩
    have hnone : op.foldWords? a b = none := by
      by_contra hsome
      obtain ⟨e, he⟩ := Option.ne_none_iff_exists'.1 hsome
      have hfold : foldBinary op (int a .i64 p) (int b .i64 q) ty o = e.withOrigin o := by
        simp [foldBinary, Ty.i64, he]
      have hnode : e.withOrigin o = binary op (int a .i64 p) (int b .i64 q) ty o := hfold.symm.trans h
      rcases literal_of_foldWords? he with ⟨x, rfl, -⟩ | ⟨x, rfl, -⟩ <;> cases hnode
    rcases Binary.foldWords?_eq_none hlogical hnone with h' | ⟨hdiv, hb⟩ | h'
    · rw [hshift] at h'
      cases h'
    · exact hzero hdiv hb
    · exact hover h'
  · exact id

end Expr

/-! ## Statements -/

namespace Stmt

/-- the statement with its expressions replaced, not those of the statements in it -/
def mapped (f : Expr → Expr) (s : Stmt) : Stmt := Id.run (s.mapExprs fun e => pure (f e))

/-- whether there are no statements in a statement -/
def isSimple : Stmt → Bool
  | forLoop .. | ifElse .. | whileLoop .. | scope .. | launch .. => false
  | _ => true

/-- the expressions of a statement that folding visits, without those of the statements in it: all but the sizes of local
memory -/
def foldable : Stmt → List Expr
  | launch spec _ _ => spec.groups ++ spec.groupSize
  | s => s.exprs

/-- a conditional on a literal -/
def isDecided : Stmt → Bool
  | ifElse cond _ _ _ => cond.isTruth
  | _ => false

/-- whether a statement and its expressions are left as they are, apart from the statements in it -/
structure NormalHere (s : Stmt) : Prop where
  undecided : s.isDecided = false
  exprs : ∀ e ∈ s.foldable, e.Normal

end Stmt

mutual

/-- the statement and all statements in it, those of a kernel included -/
@[simp] def Stmt.deepNodes : Stmt → List Stmt
  | .forLoop ty n init cond incr body o => .forLoop ty n init cond incr body o :: blockDeepNodes body
  | .ifElse cond thn els o => .ifElse cond thn els o :: (blockDeepNodes thn ++ blockDeepNodes els)
  | .whileLoop cond body o => .whileLoop cond body o :: blockDeepNodes body
  | .scope body o => .scope body o :: blockDeepNodes body
  | .launch spec body o => .launch spec body o :: blockDeepNodes body
  | s => [s]

/-- the statements of a list and all statements in them, those of kernels included -/
@[simp] def blockDeepNodes : List Stmt → List Stmt
  | [] => []
  | s :: rest => s.deepNodes ++ blockDeepNodes rest

end

/-- whether no statement of any depth and no expression of it can be rewritten -/
def BlockNormal (l : List Stmt) : Prop := ∀ s ∈ blockDeepNodes l, s.NormalHere

@[simp] theorem blockNormal_nil : BlockNormal [] := by
  simp [BlockNormal]

theorem blockNormal_cons {s : Stmt} {l : List Stmt} :
    BlockNormal (s :: l) ↔ (∀ x ∈ s.deepNodes, x.NormalHere) ∧ BlockNormal l := by
  simp only [BlockNormal, blockDeepNodes, List.forall_mem_append]

theorem blockNormal_append {l l' : List Stmt} : BlockNormal (l ++ l') ↔ BlockNormal l ∧ BlockNormal l' := by
  induction l with
  | nil => simp
  | cons s l ih => rw [List.cons_append, blockNormal_cons, blockNormal_cons, ih, and_assoc]

/-- a statement alone, whose own expressions are `es` and whose statements are `body` -/
theorem blockNormal_singleton {s : Stmt} {es : List Expr} {body : List Stmt}
    (hdeep : s.deepNodes = s :: blockDeepNodes body) (hdecided : s.isDecided = false) (hes : s.foldable = es) :
    BlockNormal [s] ↔ (∀ e ∈ es, e.Normal) ∧ BlockNormal body := by
  rw [blockNormal_cons, hdeep, List.forall_mem_cons, and_iff_left blockNormal_nil, BlockNormal]
  subst hes
  exact and_congr_left' ⟨fun h => h.exprs, fun h => ⟨hdecided, h⟩⟩

namespace Stmt

variable {s : Stmt} {spec : LaunchSpec} {ty : Ty} {n : Name} {cond init incr : Expr} {body thn els : List Stmt} {o : Origin}

theorem normal_ifElse : BlockNormal [ifElse cond thn els o] ↔
    cond.isTruth = false ∧ cond.Normal ∧ BlockNormal thn ∧ BlockNormal els := by
  have hhere : (ifElse cond thn els o).NormalHere ↔ cond.isTruth = false ∧ cond.Normal :=
    ⟨fun h => ⟨h.undecided, h.exprs cond (.head _)⟩, fun h => ⟨h.1, by simpa [foldable, exprs, foldExprs] using h.2⟩⟩
  rw [blockNormal_cons, and_iff_left blockNormal_nil, deepNodes, List.forall_mem_cons, List.forall_mem_append, hhere,
    and_assoc, BlockNormal, BlockNormal]

theorem normal_forLoop : BlockNormal [forLoop ty n init cond incr body o] ↔
    (∀ e ∈ [init, cond, incr], e.Normal) ∧ BlockNormal body :=
  blockNormal_singleton (by simp) rfl rfl

theorem normal_whileLoop : BlockNormal [whileLoop cond body o] ↔ (∀ e ∈ [cond], e.Normal) ∧ BlockNormal body :=
  blockNormal_singleton (by simp) rfl rfl

theorem normal_scope : BlockNormal [scope body o] ↔ BlockNormal body :=
  (blockNormal_singleton (by simp) rfl rfl).trans (and_iff_right (List.forall_mem_nil _))

theorem normal_launch : BlockNormal [launch spec body o] ↔
    (∀ e ∈ spec.groups ++ spec.groupSize, e.Normal) ∧ BlockNormal body :=
  blockNormal_singleton (by simp) rfl rfl

theorem normal_simple (h : s.isSimple = true) : BlockNormal [s] ↔ ∀ e ∈ s.exprs, e.Normal := by
  have hs : s.deepNodes = s :: blockDeepNodes [] ∧ s.isDecided = false ∧ s.foldable = s.exprs := by
    cases s with
    | forLoop | ifElse | whileLoop | scope | launch => cases h
    | _ => exact ⟨by simp, rfl, rfl⟩
  rw [blockNormal_singleton hs.1 hs.2.1 hs.2.2, and_iff_left blockNormal_nil]

/-! ### Statements without statements in them -/

theorem fold_of_isSimple (h : s.isSimple = true) : s.fold = [s.mapped Expr.fold] := by
  cases s with
  | forLoop | ifElse | whileLoop | scope | launch => cases h
  | _ => rw [Stmt.fold] <;> first | rfl | simp

theorem isSimple_mapped (f : Expr → Expr) (s : Stmt) : (s.mapped f).isSimple = s.isSimple := by
  cases s <;> rfl

theorem mapped_table (f : Expr → Expr) (n : Name) (elem : Scalar) (values : List Expr) (o : Origin) :
    (table n elem values o).mapped f = table n elem (values.map f) o := by
  have hm : Id.run (values.mapM fun e => (pure (f e) : Id Expr)) = values.map f := List.idRun_mapM
  change table n elem (Id.run (values.mapM fun e => (pure (f e) : Id Expr))) o = _
  rw [hm]

theorem exprs_table (n : Name) (elem : Scalar) (values : List Expr) (o : Origin) :
    (table n elem values o).exprs = values := by
  have happend : ∀ (es l : List Expr), Id.run (es.foldlM (fun l e => (pure (l ++ [e]) : Id (List Expr))) l) = l ++ es := by
    intro es
    induction es with
    | nil => simp
    | cons e es ih =>
      intro l
      rw [List.foldlM_cons, pure_bind, ih, List.append_assoc, List.singleton_append]
  exact happend values []

/-- replacing the expressions of a statement replaces them one by one -/
theorem exprs_mapped (f : Expr → Expr) (s : Stmt) : (s.mapped f).exprs = s.exprs.map f := by
  cases s with
  | table n elem values o => rw [mapped_table, exprs_table, exprs_table]
  | _ => rfl

/-- a statement whose expressions are kept is kept -/
theorem mapped_of_forall {f : Expr → Expr} {s : Stmt} (h : ∀ e ∈ s.exprs, f e = e) : s.mapped f = s := by
  cases s with
  | table n elem values o =>
    rw [exprs_table] at h
    rw [mapped_table, List.map_congr_left h, List.map_id']
  | _ => simp_all [mapped, mapExprs, exprs, foldExprs]

theorem normal_fold_simple {s : Stmt} (h : s.isSimple = true) : BlockNormal s.fold := by
  rw [fold_of_isSimple h, normal_simple ((isSimple_mapped _ s).trans h), exprs_mapped, List.forall_mem_map]
  exact fun e _ => e.normal_fold

theorem fold_simple_of_normal {s : Stmt} (h : s.isSimple = true) (hs : BlockNormal [s]) : s.fold = [s] := by
  have hexprs : ∀ e ∈ s.exprs, e.fold = e := fun e he => Expr.fold_of_normal ((normal_simple h).1 hs e he)
  rw [fold_of_isSimple h, mapped_of_forall hexprs]

end Stmt

/-! ### One pass -/

mutual

/-- what replaces a folded statement can be rewritten nowhere -/
theorem Stmt.normal_fold : ∀ s : Stmt, BlockNormal s.fold
  | .ifElse cond thn els o => by
    rw [Stmt.fold]
    split
    · exact blockNormal_foldBlock thn
    · exact blockNormal_foldBlock els
    · next htrue hfalse =>
      exact Stmt.normal_ifElse.2 ⟨Expr.isTruth_eq_false htrue hfalse, cond.normal_fold, blockNormal_foldBlock thn,
        blockNormal_foldBlock els⟩
  | .forLoop ty n init cond incr body o => by
    rw [Stmt.fold]
    refine Stmt.normal_forLoop.2 ⟨?_, blockNormal_foldBlock body⟩
    exact List.forall_mem_map.2 fun e (_ : e ∈ [init, cond, incr]) => e.normal_fold
  | .whileLoop cond body o => by
    rw [Stmt.fold]
    refine Stmt.normal_whileLoop.2 ⟨?_, blockNormal_foldBlock body⟩
    exact List.forall_mem_map.2 fun e (_ : e ∈ [cond]) => e.normal_fold
  | .scope body o => by
    rw [Stmt.fold]
    exact Stmt.normal_scope.2 (blockNormal_foldBlock body)
  | .launch spec body o => by
    rw [Stmt.fold]
    refine Stmt.normal_launch.2 ⟨?_, blockNormal_foldBlock body⟩
    rw [LaunchSpec.fold, ← List.map_append]
    exact List.forall_mem_map.2 fun e _ => e.normal_fold
  | .define .. | .assign .. | .barrier .. | .fence .. | .atomic .. | .compareSwap .. | .alloc .. | .free .. | .copy ..
  | .fill .. | .rebind .. | .table .. => Stmt.normal_fold_simple rfl

/-- folded statements can be rewritten nowhere, at any depth -/
theorem blockNormal_foldBlock : ∀ l : List Stmt, BlockNormal (foldBlock l)
  | [] => by
    rw [foldBlock]
    exact blockNormal_nil
  | s :: l => by
    rw [foldBlock]
    exact blockNormal_append.2 ⟨s.normal_fold, blockNormal_foldBlock l⟩

end

mutual

/-- a statement that can be rewritten nowhere is kept -/
theorem Stmt.fold_of_normal : ∀ s : Stmt, BlockNormal [s] → s.fold = [s]
  | .ifElse cond thn els o, h => by
    obtain ⟨htruth, hcond, hthn, hels⟩ := Stmt.normal_ifElse.1 h
    rw [Stmt.fold, Expr.fold_of_normal hcond, foldBlock_of_normal thn hthn, foldBlock_of_normal els hels]
    cases cond with
    | bool => cases htruth
    | _ => rfl
  | .forLoop ty n init cond incr body o, h => by
    obtain ⟨hexprs, hbody⟩ := Stmt.normal_forLoop.1 h
    rw [Stmt.fold, Expr.fold_of_normal (hexprs init (by simp)), Expr.fold_of_normal (hexprs cond (by simp)),
      Expr.fold_of_normal (hexprs incr (by simp)), foldBlock_of_normal body hbody]
  | .whileLoop cond body o, h => by
    obtain ⟨hexprs, hbody⟩ := Stmt.normal_whileLoop.1 h
    rw [Stmt.fold, Expr.fold_of_normal (hexprs cond (by simp)), foldBlock_of_normal body hbody]
  | .scope body o, h => by
    rw [Stmt.fold, foldBlock_of_normal body (Stmt.normal_scope.1 h)]
  | .launch spec body o, h => by
    obtain ⟨hexprs, hbody⟩ := Stmt.normal_launch.1 h
    rw [List.forall_mem_append] at hexprs
    have hspec : spec.fold = spec := by
      rw [LaunchSpec.fold, List.map_congr_left fun e he => Expr.fold_of_normal (hexprs.1 e he),
        List.map_congr_left fun e he => Expr.fold_of_normal (hexprs.2 e he), List.map_id', List.map_id']
    rw [Stmt.fold, hspec, foldBlock_of_normal body hbody]
  | .define .., h | .assign .., h | .barrier .., h | .fence .., h | .atomic .., h | .compareSwap .., h | .alloc .., h
  | .free .., h | .copy .., h | .fill .., h | .rebind .., h | .table .., h => Stmt.fold_simple_of_normal rfl h

/-- statements that can be rewritten nowhere are kept -/
theorem foldBlock_of_normal : ∀ l : List Stmt, BlockNormal l → foldBlock l = l
  | [], _ => by rw [foldBlock]
  | s :: l, h => by
    obtain ⟨hs, hl⟩ := blockNormal_append.1 (show BlockNormal ([s] ++ l) from h)
    rw [foldBlock, Stmt.fold_of_normal s hs, foldBlock_of_normal l hl, List.singleton_append]

end

theorem foldBlock_foldBlock (l : List Stmt) : foldBlock (foldBlock l) = foldBlock l :=
  foldBlock_of_normal _ (blockNormal_foldBlock l)

/-- one pass of folding reaches a normal form: a second pass changes neither expressions nor statements, and in folded
statements, at all depths and in the bodies of kernels too, there is no conditional on a literal and no operator of
arithmetic or comparison on 64-bit literals that is no shift, divides by no zero and does not overflow -/
theorem folding_normalizes :
    (∀ e : Expr, e.fold.fold = e.fold) ∧
    ∀ l : List Stmt, foldBlock (foldBlock l) = foldBlock l ∧
      ∀ s ∈ blockDeepNodes (foldBlock l), s.isDecided = false ∧
        ∀ e ∈ s.foldable, ∀ x ∈ e.nodes, x.isDecided = false ∧ ¬ x.IsComputable := by
  refine ⟨Expr.fold_fold, fun l => ⟨foldBlock_foldBlock l, ?_⟩⟩
  intro s hs
  have hnormal : s.NormalHere := blockNormal_foldBlock l s hs
  refine ⟨hnormal.undecided, ?_⟩
  intro e he x hx
  have hrests : x.Rests := hnormal.exprs e he x hx
  exact ⟨hrests.isDecided, hrests.not_isComputable⟩

end GpuHistogram
