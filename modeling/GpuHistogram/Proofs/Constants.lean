/-
Integer literals that are words. What a histogram is written with and what the options fix are numbers of 64 bits, and
the code made of them is computed with: sizes are folded where they are known, the code is folded in the end, and the
placement is decided on numbers. `Expr.Words`, `Stmt.Words` and `BlockWords` say that all literals are words.

Results:
- `Binary.words_of_foldWords?`: an operator that is folded divides by no zero and gives a word;
- `Expr.Words.fold`, `BlockWords.foldBlock`: folding makes no literal that is none;
- `Placement.Costs.Words.choose?`: the decision on words is made, for a number of copies that is a word.
-/
import GpuHistogram.Proofs.Decision
import GpuHistogram.Proofs.FoldedValues
import GpuHistogram.Proofs.Form
import GpuHistogram.Proofs.Portable

namespace GpuHistogram

/-! ## Expressions -/

/-- the integer literals of an expression are words -/
@[simp] def Expr.Words : Expr → Prop
  | int v _ _ => Word64.fits v = true
  | unary _ e _ _ => e.Words
  | binary _ l r _ _ => l.Words ∧ r.Words
  | select c t e _ _ => c.Words ∧ t.Words ∧ e.Words
  | access t i _ _ => t.Words ∧ i.Words
  | convert e _ | bitCast e _ => e.Words
  | _ => True

/-- a folded operator divides by no zero, and where the quotient of two words would be none it is not folded -/
theorem Binary.words_of_foldWords? {op : Binary} {a b : Int} {e : Expr} (ha : Word64.fits a = true)
    (hb : Word64.fits b = true) (h : op.foldWords? a b = some e) :
    e.Words ∧ (op = .div ∨ op = .rem → b ≠ 0 ∧ ¬ (a = Word64.least ∧ b = -1)) := by
  constructor
  · obtain ⟨hty, -⟩ := Binary.typed_of_foldWords? ⟨fun _ => none, fun _ => none⟩ ha hb h
    rcases Expr.literal_of_foldWords? h with ⟨v, rfl, -⟩ | ⟨v, rfl, -⟩
    · exact hty.2
    · trivial
  · rintro (rfl | rfl) <;> simp only [foldWords?, Option.map_eq_some_iff] at h <;> obtain ⟨v, hv, -⟩ := h <;>
      split_ifs at hv with h0
    · refine ⟨h0, ?_⟩
      rintro ⟨rfl, rfl⟩
      have hnone : Word64.checked? (Word64.least.tdiv (-1)) = none := by decide
      rw [hnone] at hv
      cases hv
    · exact not_or.1 h0

namespace Expr

variable {l r e : Expr} {ty : Ty} {o : Origin}

@[simp] theorem words_withOrigin : (e.withOrigin o).Words ↔ e.Words := by
  induction e <;> simp_all [withOrigin]

theorem Words.foldUnary (op : Unary) (he : e.Words) : (Expr.foldUnary op e ty o).Words := by
  unfold Expr.foldUnary
  split
  · split_ifs with hv
    · exact he
    · -- the least word is the only one whose negative is none
      simp only [Words, Word64.fits_iff] at he ⊢
      unfold Word64.least at hv
      omega
  · trivial
  · exact he

theorem Words.foldNeutral (op : Binary) (hl : l.Words) (hr : r.Words) : (Expr.foldNeutral op l r ty o).Words := by
  have hzero : Word64.fits 0 = true := by decide
  unfold Expr.foldNeutral
  split <;> try split_ifs
  all_goals first | exact hl | exact hr | exact ⟨hl, hr⟩ | exact hzero

theorem Words.foldBinary (op : Binary) (hl : l.Words) (hr : r.Words) : (Expr.foldBinary op l r ty o).Words := by
  unfold Expr.foldBinary
  split
  · split
    · next e he => exact words_withOrigin.2 (Binary.words_of_foldWords? hl hr he).1
    · exact ⟨hl, hr⟩
  · unfold Expr.foldMixed
    split <;> try split_ifs
    all_goals first | trivial | exact hl | exact hr | exact ⟨hl, hr⟩ | exact hl.foldNeutral op hr

theorem Words.foldConvert (he : e.Words) (ty : Ty) : (Expr.foldConvert e ty).Words := by
  unfold Expr.foldConvert
  split <;> exact he

/-- folding an expression of words makes words -/
theorem Words.fold (he : e.Words) : e.fold.Words := by
  induction e with
  | unary op e ty o ih => exact (ih he).foldUnary op
  | binary op l r ty o ihl ihr => exact (ihl he.1).foldBinary op (ihr he.2)
  | select c t e ty o ihc iht ihe =>
    obtain ⟨hc, ht, he⟩ := he
    rw [Expr.fold]
    split
    · exact iht ht
    · exact ihe he
    · exact ⟨ihc hc, iht ht, ihe he⟩
  | access t i ty o iht ihi => exact ⟨iht he.1, ihi he.2⟩
  | convert e ty ih => exact (ih he).foldConvert ty
  | bitCast e ty ih => exact ih he
  | _ => exact he

theorem Words.constant? (he : e.Words) {v : Int} (h : e.constant? = some v) : Word64.fits v = true := by
  have hf := he.fold
  unfold Expr.constant? at h
  split at h
  · next w _ _ hw =>
    cases h
    rwa [hw] at hf
  · cases h

/-! ## Expressions that are built -/

@[simp] theorem words_i64 (v : Int) : (Expr.i64 v).Words ↔ Word64.fits v = true := Iff.rfl

@[simp] theorem words_literal (v : Int) (s : Scalar) : (Expr.literal v s).Words ↔ Word64.fits v = true := Iff.rfl

@[simp] theorem words_zero : (0 : Expr).Words := rfl

@[simp] theorem words_one : (1 : Expr).Words := rfl

@[simp] theorem words_truth (b : Bool) : (Expr.truth b).Words := trivial

@[simp] theorem words_typed (n : Name) (ty : Ty) : (Expr.typed n ty).Words := trivial

@[simp] theorem words_scalarVar (n : Name) (s : Scalar) : (Expr.scalarVar n s).Words := trivial

@[simp] theorem words_ofName (n : Name) : (Expr.ofName n).Words := trivial

@[simp] theorem words_atPlace (p : Place) (a : Axis) : (Expr.atPlace p a).Words := trivial

@[simp] theorem words_localSize : Expr.localSize.Words := trivial

@[simp] theorem words_op2 (op : Binary) : (op2 op l r).Words ↔ l.Words ∧ r.Words := Iff.rfl

@[simp] theorem words_add : (l + r).Words ↔ l.Words ∧ r.Words := Iff.rfl

@[simp] theorem words_sub : (l - r).Words ↔ l.Words ∧ r.Words := Iff.rfl

@[simp] theorem words_mul : (l * r).Words ↔ l.Words ∧ r.Words := Iff.rfl

@[simp] theorem words_div : (l / r).Words ↔ l.Words ∧ r.Words := Iff.rfl

@[simp] theorem words_mod : (l % r).Words ↔ l.Words ∧ r.Words := Iff.rfl

@[simp] theorem words_ceilDiv : (l.ceilDiv r).Words ↔ l.Words ∧ r.Words := by
  simp only [ceilDiv, words_div, words_sub, words_add, words_one, and_true]
  tauto

@[simp] theorem words_not : e.not.Words ↔ e.Words := Iff.rfl

@[simp] theorem words_element (n : Name) (s : Scalar) (space : Space) : (element n s space e).Words ↔ e.Words := by
  simp [element]

@[simp] theorem words_castIfNeeded (s : Scalar) : (e.castIfNeeded s).Words ↔ e.Words := by
  unfold castIfNeeded
  split <;> rfl

@[simp] theorem words_sameBits (s : Scalar) : (e.sameBits s).Words ↔ e.Words := Iff.rfl

theorem words_foldl {f : Expr → Expr → Expr} (hf : ∀ a b, (f a b).Words ↔ a.Words ∧ b.Words) {es : List Expr} :
    (es.foldl f e).Words ↔ e.Words ∧ ∀ x ∈ es, x.Words := by
  induction es generalizing e with
  | nil => simp
  | cons x es ih => rw [List.foldl_cons, ih, hf, List.forall_mem_cons, and_assoc]

@[simp] theorem words_product (es : List Expr) : (product es).Words ↔ ∀ e ∈ es, e.Words := by
  cases es with
  | nil => simp [product]
  | cons e es => rw [product, words_foldl fun _ _ => words_mul, List.forall_mem_cons]

@[simp] theorem words_sum (es : List Expr) : (sum es).Words ↔ ∀ e ∈ es, e.Words := by
  cases es with
  | nil => simp [sum]
  | cons e es => rw [sum, words_foldl fun _ _ => words_add, List.forall_mem_cons]

end Expr

/-! ## Statements -/

/-- the literals of the number of elements of a block are words -/
@[simp] def BlockSize.Words : BlockSize → Prop
  | fixed n => Word64.fits n = true
  | computed e => e.Words

/-- the literals of the shape of a launch are words -/
structure LaunchSpec.Words (k : LaunchSpec) : Prop where
  blocks : ∀ b ∈ k.blocks, b.size.Words
  groups : ∀ e ∈ k.groups, e.Words
  groupSize : ∀ e ∈ k.groupSize, e.Words

mutual

/-- the integer literals of a statement are words, also those in the statements in it -/
@[simp] def Stmt.Words : Stmt → Prop
  | .define _ _ e _ | .alloc _ _ e _ => e.Words
  | .assign dst e _ => dst.Words ∧ e.Words
  | .forLoop _ _ init cond incr body _ => init.Words ∧ cond.Words ∧ incr.Words ∧ BlockWords body
  | .ifElse cond thn els _ => cond.Words ∧ BlockWords thn ∧ BlockWords els
  | .whileLoop cond body _ => cond.Words ∧ BlockWords body
  | .scope body _ => BlockWords body
  | .atomic _ _ _ _ idx value _ _ => idx.Words ∧ value.Words
  | .compareSwap _ _ _ _ idx cmp new _ => idx.Words ∧ cmp.Words ∧ new.Words
  | .copy _ dstOffset _ srcOffset count _ => dstOffset.Words ∧ srcOffset.Words ∧ count.Words
  | .fill _ offset count value _ => offset.Words ∧ count.Words ∧ value.Words
  | .table _ _ values _ => ∀ e ∈ values, e.Words
  | .launch spec body _ => spec.Words ∧ BlockWords body
  | .barrier .. | .fence .. | .free .. | .rebind .. => True

/-- the integer literals of statements are words -/
@[simp] def BlockWords : List Stmt → Prop
  | [] => True
  | s :: rest => s.Words ∧ BlockWords rest

end

@[simp] theorem blockWords_append {l l' : List Stmt} : BlockWords (l ++ l') ↔ BlockWords l ∧ BlockWords l' := by
  induction l with
  | nil => simp
  | cons s l ih => rw [List.cons_append, BlockWords, BlockWords, ih, and_assoc]

theorem blockWords_iff {l : List Stmt} : BlockWords l ↔ ∀ s ∈ l, s.Words := by
  induction l with
  | nil => simp
  | cons s l ih => rw [BlockWords, ih, List.forall_mem_cons]

@[simp] theorem blockWords_map {α : Type} {f : α → Stmt} {l : List α} :
    BlockWords (l.map f) ↔ ∀ a ∈ l, (f a).Words := by
  rw [blockWords_iff, List.forall_mem_map]

@[simp] theorem blockWords_flatMap {α : Type} {f : α → List Stmt} {l : List α} :
    BlockWords (l.flatMap f) ↔ ∀ a ∈ l, BlockWords (f a) := by
  induction l with
  | nil => simp
  | cons a l ih => rw [List.flatMap_cons, blockWords_append, ih, List.forall_mem_cons]

namespace Stmt

variable {n : Name} {e dst init bound : Expr} {l : List Stmt}

@[simp] theorem words_bind : (bind n e).Words ↔ e.Words := by
  simp [bind]

@[simp] theorem words_store : (store dst e).Words ↔ dst.Words ∧ e.Words := by
  simp [store]

@[simp] theorem words_update : (update n e).Words ↔ e.Words := by
  simp [update]

@[simp] theorem words_count : (count n init bound l).Words ↔ init.Words ∧ bound.Words ∧ BlockWords l := by
  simp [count, countBy, Expr.lt]

@[simp] theorem words_ifThen : (ifThen e l).Words ↔ e.Words ∧ BlockWords l := by
  simp [ifThen]

@[simp] theorem words_block : (block l).Words ↔ BlockWords l := by
  simp [block]

end Stmt

theorem LaunchSpec.Words.fold {k : LaunchSpec} (h : k.Words) : k.fold.Words where
  blocks := h.blocks
  groups := List.forall_mem_map.2 fun e he => (h.groups e he).fold
  groupSize := List.forall_mem_map.2 fun e he => (h.groupSize e he).fold

mutual

theorem Stmt.Words.fold : ∀ {s : Stmt}, s.Words → BlockWords s.fold
  | .define ty n e o, h | .alloc n s e o, h => by
    rw [Stmt.Words] at h
    simpa [Stmt.fold, Stmt.mapExprs] using h.fold
  | .assign dst e o, h => by
    rw [Stmt.Words] at h
    simpa [Stmt.fold, Stmt.mapExprs] using ⟨h.1.fold, h.2.fold⟩
  | .forLoop ty n init cond incr body o, h => by
    rw [Stmt.Words] at h
    obtain ⟨hinit, hcond, hincr, hbody⟩ := h
    simpa [Stmt.fold] using ⟨hinit.fold, hcond.fold, hincr.fold, hbody.foldBlock⟩
  | .ifElse cond thn els o, h => by
    rw [Stmt.Words] at h
    obtain ⟨hcond, hthn, hels⟩ := h
    rw [Stmt.fold]
    split
    · exact hthn.foldBlock
    · exact hels.foldBlock
    · simpa using ⟨hcond.fold, hthn.foldBlock, hels.foldBlock⟩
  | .whileLoop cond body o, h => by
    rw [Stmt.Words] at h
    simpa [Stmt.fold] using ⟨h.1.fold, h.2.foldBlock⟩
  | .scope body o, h => by
    rw [Stmt.Words] at h
    simpa [Stmt.fold] using h.foldBlock
  | .atomic op space s n idx value old o, h => by
    rw [Stmt.Words] at h
    simpa [Stmt.fold, Stmt.mapExprs] using ⟨h.1.fold, h.2.fold⟩
  | .compareSwap old space s n idx cmp new o, h => by
    rw [Stmt.Words] at h
    simpa [Stmt.fold, Stmt.mapExprs] using ⟨h.1.fold, h.2.1.fold, h.2.2.fold⟩
  | .copy dst dstOffset src srcOffset count o, h => by
    rw [Stmt.Words] at h
    simpa [Stmt.fold, Stmt.mapExprs] using ⟨h.1.fold, h.2.1.fold, h.2.2.fold⟩
  | .fill n offset count value o, h => by
    rw [Stmt.Words] at h
    simpa [Stmt.fold, Stmt.mapExprs] using ⟨h.1.fold, h.2.1.fold, h.2.2.fold⟩
  | .table n s values o, h => by
    rw [Stmt.Words] at h
    simpa [Stmt.fold, Stmt.mapExprs] using fun e he => (h e he).fold
  | .launch spec body o, h => by
    rw [Stmt.Words] at h
    simpa [Stmt.fold] using ⟨h.1.fold, h.2.foldBlock⟩
  | .barrier .., _ | .fence .., _ | .free .., _ | .rebind .., _ => by simp [Stmt.fold, Stmt.mapExprs]

/-- folding code of words makes words -/
theorem BlockWords.foldBlock : ∀ {l : List Stmt}, BlockWords l → BlockWords (GpuHistogram.foldBlock l)
  | [], _ => by simp [GpuHistogram.foldBlock]
  | s :: l, h => by
    rw [BlockWords] at h
    rw [GpuHistogram.foldBlock, blockWords_append]
    exact ⟨h.1.fold, h.2.foldBlock⟩

end

/-! ## The decision -/

namespace Placement

/-- the copies that were decided on are a word -/
def Words : Placement → Prop
  | localMemory copies => Word64.fits copies = true
  | skip | globalMemory => True

/-- a decision on words is made, for a number of copies that is a word -/
theorem Costs.Words.choose? {c : Costs} (hc : c.Words) : ∃ s, Placement.choose? c = some s ∧ s.Words := by
  by_cases hh : c.histBytes = 0
  · exact ⟨skip, if_pos hh, trivial⟩
  by_cases hsizes : c.threadBytes ≤ 0 ∨ c.groupSize ≤ 0
  · exact ⟨globalMemory, choose?_of_nonpos hh hsizes, trivial⟩
  · rw [not_or, not_le, not_le] at hsizes
    obtain ⟨-, -, -, hcopies⟩ := quotients hc hh hsizes.1 hsizes.2
    refine ⟨_, choose?_of_quotients hc hh hsizes.1 hsizes.2, ?_⟩
    split_ifs
    · exact hcopies
    · trivial

end Placement

end GpuHistogram
