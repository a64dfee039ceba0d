/-
The names in code: the variables and the arrays that an expression reads. Folding adds no name to either
(`reads_fold`).

`eval_congr`: the value of an expression depends on nothing but the variables and arrays it reads.
-/
import GpuHistogram.Machine.Eval
import GpuHistogram.Proofs.Form
import Mathlib.Data.List.Basic
import Mathlib.Tactic.Common

namespace GpuHistogram

/-- what a name stands for where it is read -/
inductive Role where
  | scalar
  | array
  deriving DecidableEq

namespace Expr

/-- the names that an expression reads in a role; the target of an access is read as an array, whatever it is -/
def reads : Role → Expr → List Name
  | .scalar, var n _ _ => [n]
  | k, unary _ e _ _ => e.reads k
  | k, binary _ l r _ _ => l.reads k ++ r.reads k
  | k, select c t e _ _ => c.reads k ++ t.reads k ++ e.reads k
  | .scalar, access _ i _ _ => i.reads .scalar
  | .array, access t i _ _ => t.reads .scalar ++ t.reads .array ++ i.reads .array
  | k, convert e _ => e.reads k
  | k, bitCast e _ => e.reads k
  | _, _ => []

/-- the variables an expression reads -/
abbrev scalars (e : Expr) : List Name := e.reads .scalar

/-- the arrays an expression reads -/
abbrev arrays (e : Expr) : List Name := e.reads .array

/-- whether an expression asks for nothing but variables and arrays: neither for the place of the thread nor for what
only the host knows -/
def isClosed : Expr → Bool
  | unary _ e _ _ => e.isClosed
  | binary _ l r _ _ => l.isClosed && r.isClosed
  | select c t e _ _ => c.isClosed && t.isClosed && e.isClosed
  | access _ i _ _ => i.isClosed
  | convert e _ => e.isClosed
  | bitCast e _ => e.isClosed
  | place .. | size .. | capability .. => false
  | _ => true

theorem reads_unary (k : Role) (op : Unary) (e : Expr) (ty : Ty) (o : Origin) :
    (unary op e ty o).reads k = e.reads k := by
  cases k <;> rfl

theorem reads_binary (k : Role) (op : Binary) (l r : Expr) (ty : Ty) (o : Origin) :
    (binary op l r ty o).reads k = l.reads k ++ r.reads k := by
  cases k <;> rfl

theorem reads_select (k : Role) (c t e : Expr) (ty : Ty) (o : Origin) :
    (select c t e ty o).reads k = c.reads k ++ t.reads k ++ e.reads k := by
  cases k <;> rfl

theorem reads_convert (k : Role) (e : Expr) (ty : Ty) : (convert e ty).reads k = e.reads k := by
  cases k <;> rfl

theorem reads_bitCast (k : Role) (e : Expr) (ty : Ty) : (bitCast e ty).reads k = e.reads k := by
  cases k <;> rfl

theorem reads_int (k : Role) (v : Int) (ty : Ty) (o : Origin) : (int v ty o).reads k = [] := by
  cases k <;> rfl

theorem reads_bool (k : Role) (b : Bool) (ty : Ty) (o : Origin) : (bool b ty o).reads k = [] := by
  cases k <;> rfl

theorem reads_withOrigin (k : Role) (o : Origin) (e : Expr) : (e.withOrigin o).reads k = e.reads k := by
  induction e generalizing k <;> cases k <;> simp_all [withOrigin, reads]

end Expr

theorem Binary.reads_of_foldWords? {op : Binary} {a b : Int} {e : Expr} (h : op.foldWords? a b = some e) (k : Role) :
    e.reads k = [] := by
  cases op <;> simp only [foldWords?, Option.map_eq_some_iff, Option.some.injEq, reduceCtorEq] at h <;> cases k
  all_goals first
    | rfl
    | (obtain ⟨v, -, rfl⟩ := h; rfl)

namespace Expr

theorem reads_foldNeutral (k : Role) (op : Binary) (l r : Expr) (ty : Ty) (o : Origin) :
    (foldNeutral op l r ty o).reads k ⊆ l.reads k ++ r.reads k := by
  unfold foldNeutral
  split <;> (repeat' split) <;> simp [reads_binary, reads_int]

theorem reads_foldBinary (k : Role) (op : Binary) (l r : Expr) (ty : Ty) (o : Origin) :
    (foldBinary op l r ty o).reads k ⊆ l.reads k ++ r.reads k := by
  unfold foldBinary
  split
  · split
    · rename_i e he
      simp [reads_withOrigin, Binary.reads_of_foldWords? he]
    · simp [reads_binary]
  · unfold foldMixed
    split <;> (try split) <;>
      first | exact reads_foldNeutral _ _ _ _ _ _ | simp [reads_binary, reads_bool]

theorem reads_foldUnary (k : Role) (op : Unary) (e : Expr) (ty : Ty) (o : Origin) :
    (foldUnary op e ty o).reads k ⊆ e.reads k := by
  unfold foldUnary
  split <;> (try split) <;> simp [reads_unary, reads_int, reads_bool]

theorem reads_foldConvert (k : Role) (e : Expr) (ty : Ty) : (foldConvert e ty).reads k ⊆ e.reads k := by
  unfold foldConvert
  split <;> simp [reads_convert, reads_int]

/-- a folded expression reads nothing new -/
theorem reads_fold (e : Expr) (k : Role) : e.fold.reads k ⊆ e.reads k := by
  induction e generalizing k with
  | unary op e ty o ih => exact List.Subset.trans (reads_foldUnary _ _ _ _ _) (reads_unary k op e ty o ▸ ih k)
  | convert e ty ih => exact List.Subset.trans (reads_foldConvert _ _ _) (reads_convert k e ty ▸ ih k)
  | bitCast e ty ih => rw [fold, reads_bitCast, reads_bitCast]; exact ih k
  | binary op l r ty o ihl ihr =>
    refine List.Subset.trans (reads_foldBinary _ _ _ _ _ _) ?_
    rw [reads_binary]
    exact List.append_subset.2
      ⟨List.subset_append_of_subset_left _ (ihl k), List.subset_append_of_subset_right _ (ihr k)⟩
  | select c t e ty o ihc iht ihe =>
    rw [fold, reads_select]
    split
    · exact fun n hn => by simp [iht k hn]
    · exact fun n hn => by simp [ihe k hn]
    · intro n hn
      simp only [reads_select, List.mem_append] at hn ⊢
      exact hn.imp (Or.imp (@ihc k n) (@iht k n)) (@ihe k n)
  | access t i ty o iht ihi =>
    cases k
    · exact ihi .scalar
    · intro n hn
      simp only [fold, reads, List.mem_append] at hn ⊢
      exact hn.imp (Or.imp (@iht _ n) (@iht _ n)) (@ihi _ n)
  | _ => exact List.Subset.refl _

theorem isClosed_withOrigin (o : Origin) (e : Expr) : (e.withOrigin o).isClosed = e.isClosed := by
  induction e <;> simp_all [withOrigin, isClosed]

theorem isClosed_foldBinary {op : Binary} {l r : Expr} (ty : Ty) (o : Origin) (hl : l.isClosed = true)
    (hr : r.isClosed = true) : (foldBinary op l r ty o).isClosed = true := by
  have hb : (binary op l r ty o).isClosed = true := by simp [isClosed, hl, hr]
  have hneutral : (foldNeutral op l r ty o).isClosed = true := by
    unfold foldNeutral
    split <;> (repeat' split) <;> first | exact hb | exact hl | exact hr | rfl
  unfold foldBinary
  split
  · split
    · rename_i e he
      rw [isClosed_withOrigin]
      cases op <;> simp only [Binary.foldWords?, Option.map_eq_some_iff, Option.some.injEq, reduceCtorEq] at he
      all_goals first
        | (subst he; rfl)
        | (obtain ⟨v, -, rfl⟩ := he; rfl)
    · exact hb
  · unfold foldMixed
    split <;> (try split) <;> first | rfl | exact hneutral | exact hb | assumption

/-- a folded expression asks for nothing new -/
theorem isClosed_fold {e : Expr} (h : e.isClosed = true) : e.fold.isClosed = true := by
  induction e with
  | unary op e ty o ih =>
    rw [fold]
    unfold foldUnary
    split <;> (try split) <;> first | rfl | exact ih h
  | convert e ty ih =>
    rw [fold]
    unfold foldConvert
    split
    · rfl
    · exact ih h
  | bitCast e ty ih => exact ih h
  | binary op l r ty o ihl ihr =>
    simp only [isClosed, Bool.and_eq_true] at h
    exact isClosed_foldBinary ty o (ihl h.1) (ihr h.2)
  | select c t e ty o ihc iht ihe =>
    simp only [isClosed, Bool.and_eq_true] at h
    rw [fold]
    split
    · exact iht h.1.2
    · exact ihe h.2
    · simp [isClosed, ihc h.1.1, iht h.1.2, ihe h.2]
  | access t i ty o iht ihi => exact ihi h
  | _ => exact h

end Expr

theorem Form.isClosed_expr (f : Form) {e : Expr} (h : e.isClosed = true) : (f.expr e).isClosed = true := by
  cases f
  · exact h
  · exact Expr.isClosed_fold h

theorem Form.reads_expr (f : Form) (e : Expr) (k : Role) : (f.expr e).reads k ⊆ e.reads k := by
  cases f
  · exact List.Subset.refl _
  · exact e.reads_fold k

namespace Machine

variable {c c' : Context} {s s' : State}

/-- the value of an expression depends on the variables and arrays it reads, and if it asks for more, on where it is
asked for -/
theorem eval_congr {e : Expr} (hs : ∀ n ∈ e.scalars, s.vars.get? n = s'.vars.get? n)
    (ha : ∀ n ∈ e.arrays, ∀ i, s.memory.read n i = s'.memory.read n i) (hc : e.isClosed = true ∨ c = c') :
    eval c s e = eval c' s' e := by
  induction e with
  | var n ty o => simp only [eval, hs n (by simp [Expr.reads])]
  | unary op e ty o ih => simp only [eval, ih hs ha hc]
  | convert e ty ih => simp only [eval, ih hs ha hc]
  | bitCast e ty ih => simp only [eval, ih hs ha hc]
  | binary op l r ty o ihl ihr =>
    simp only [Expr.reads_binary, List.mem_append, Expr.isClosed, Bool.and_eq_true] at hs ha hc
    have hl := ihl (fun n hn => hs n (.inl hn)) (fun n hn => ha n (.inl hn)) (hc.imp_left And.left)
    have hr := ihr (fun n hn => hs n (.inr hn)) (fun n hn => ha n (.inr hn)) (hc.imp_left And.right)
    cases op <;> simp only [eval, hl, hr]
  | select b t e ty o ihb iht ihe =>
    simp only [Expr.reads_select, List.mem_append, Expr.isClosed, Bool.and_eq_true] at hs ha hc
    have hb := ihb (fun n hn => hs n (.inl (.inl hn))) (fun n hn => ha n (.inl (.inl hn))) (hc.imp_left fun h => h.1.1)
    have ht := iht (fun n hn => hs n (.inl (.inr hn))) (fun n hn => ha n (.inl (.inr hn))) (hc.imp_left fun h => h.1.2)
    have he := ihe (fun n hn => hs n (.inr hn)) (fun n hn => ha n (.inr hn)) (hc.imp_left And.right)
    simp only [eval, hb, ht, he]
  | access t i ty o iht ihi =>
    simp only [Expr.reads, List.mem_append] at ha
    have hi := ihi hs (fun n hn => ha n (.inr hn)) hc
    cases t with
    | var n ty' o' =>
      have hread := ha n (.inl (.inl (by simp [Expr.reads])))
      simp only [eval, namedArray, hi]
      change (Except.bind (eval c' s' i) fun v => liftMemory o (s.memory.read n v.toInt64)) = _
      simp only [hread]
      rfl
    | _ => rfl
  | place | size | capability =>
    rcases hc with h | rfl
    · exact absurd h (by simp [Expr.isClosed])
    · rfl
  | _ => rfl

end Machine

end GpuHistogram
