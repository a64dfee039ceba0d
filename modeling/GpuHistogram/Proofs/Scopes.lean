/-
What code takes from outside. `blockOver V A l` says that the code `l` of a thread uses a variable only if it is among
`V` or bound by then, each as the scalar it is, and accesses no arrays but `A`. For such code the variables that a kernel
captures are what they have to be: all of them are there (`capture_run`), and those that the code reads have the values
they have on the host.
-/
import GpuHistogram.Code.Build
import GpuHistogram.Code.Captures
import GpuHistogram.Machine.Launch
import GpuHistogram.Proofs.Uses

namespace GpuHistogram

/-! ## Code over variables and arrays -/

/-- all variables are scalars among `V`, and all arrays accessed are among `A` -/
def Expr.Over (V A : Name → Prop) : Expr → Prop
  | var n ty _ => ty.isPointer = false ∧ V n
  | unary _ e _ _ => e.Over V A
  | binary _ l r _ _ => l.Over V A ∧ r.Over V A
  | select c t e _ _ => c.Over V A ∧ t.Over V A ∧ e.Over V A
  | access (var n ty _) i _ _ => ty.isPointer = true ∧ A n ∧ i.Over V A
  | access .. => False
  | convert e _ => e.Over V A
  | bitCast e _ => e.Over V A
  | _ => True

mutual

/-- the variables that a statement binds -/
def Stmt.binders : Stmt → List Name
  | .define _ n _ _ => [n]
  | .forLoop _ n _ _ _ body _ => n :: blockBinders body
  | .ifElse _ thn els _ => blockBinders thn ++ blockBinders els
  | .whileLoop _ body _ => blockBinders body
  | .scope body _ => blockBinders body
  | .atomic _ _ _ _ _ _ old _ => old.toList
  | .compareSwap old _ _ _ _ _ _ _ => [old]
  | _ => []

/-- the variables that statements bind -/
def blockBinders : List Stmt → List Name
  | [] => []
  | s :: rest => s.binders ++ blockBinders rest

end

mutual

/-- a statement of a thread, without barriers, that uses variables among `V` and its own, and arrays among `A` -/
def Stmt.Over (V A : Name → Prop) : Stmt → Prop
  | .define _ _ e _ => e.Over V A
  | .assign dst e _ => dst.Over V A ∧ e.Over V A
  | .forLoop _ n init cond incr body _ =>
    init.Over V A ∧ cond.Over (fun m => m = n ∨ V m) A ∧ incr.Over (fun m => m = n ∨ V m) A ∧
      blockOver (fun m => m = n ∨ V m) A body
  | .ifElse cond thn els _ => cond.Over V A ∧ blockOver V A thn ∧ blockOver V A els
  | .whileLoop cond body _ => cond.Over V A ∧ blockOver V A body
  | .scope body _ => blockOver V A body
  | .fence .. => True
  | .atomic _ _ _ target idx v _ _ => A target ∧ idx.Over V A ∧ v.Over V A
  | .compareSwap _ _ _ target idx cmp new _ => A target ∧ idx.Over V A ∧ cmp.Over V A ∧ new.Over V A
  | _ => False

/-- statements of a thread, without barriers, that use variables among `V` and their own, and arrays among `A` -/
def blockOver (V A : Name → Prop) : List Stmt → Prop
  | [] => True
  | s :: rest => s.Over V A ∧ blockOver (fun n => n ∈ s.binders ∨ V n) A rest

end

attribute [grind =] Stmt.binders blockBinders Stmt.Over blockOver

variable {V V' A A' : Name → Prop}

theorem Expr.Over.mono {e : Expr} (h : e.Over V A) (hV : ∀ n, V n → V' n) (hA : ∀ n, A n → A' n) : e.Over V' A' := by
  induction e with
  | var n ty o => exact ⟨h.1, hV n h.2⟩
  | unary op e ty o ih => exact ih h
  | convert e ty ih => exact ih h
  | bitCast e ty ih => exact ih h
  | binary op l r ty o ihl ihr => exact ⟨ihl h.1, ihr h.2⟩
  | select b t e ty o ihb iht ihe => exact ⟨ihb h.1, iht h.2.1, ihe h.2.2⟩
  | access t i ty o iht ihi =>
    cases t with
    | var n ty' o' => exact ⟨h.1, hA n h.2.1, ihi h.2.2⟩
    | _ => exact h
  | _ => trivial

/-- the variables and arrays that such an expression reads -/
theorem Expr.Over.reads {e : Expr} (h : e.Over V A) : (∀ n ∈ e.scalars, V n) ∧ ∀ n ∈ e.arrays, A n := by
  induction e with
  | var n ty o => exact ⟨fun m hm => List.mem_singleton.1 hm ▸ h.2, fun m hm => absurd hm List.not_mem_nil⟩
  | unary op e ty o ih => exact ih h
  | convert e ty ih => exact ih h
  | bitCast e ty ih => exact ih h
  | binary op l r ty o ihl ihr =>
    simp only [reads_binary, List.mem_append]
    exact ⟨fun n hn => hn.elim ((ihl h.1).1 n) ((ihr h.2).1 n), fun n hn => hn.elim ((ihl h.1).2 n) ((ihr h.2).2 n)⟩
  | select b t e ty o ihb iht ihe =>
    simp only [reads_select, List.mem_append]
    exact ⟨fun n hn => hn.elim (Or.elim · ((ihb h.1).1 n) ((iht h.2.1).1 n)) ((ihe h.2.2).1 n),
      fun n hn => hn.elim (Or.elim · ((ihb h.1).2 n) ((iht h.2.1).2 n)) ((ihe h.2.2).2 n)⟩
  | access t i ty o iht ihi =>
    cases t with
    | var m ty' o' =>
      refine ⟨fun n hn => (ihi h.2.2).1 n hn, fun n hn => ?_⟩
      simp only [Expr.reads, List.mem_append, List.mem_singleton, List.not_mem_nil, or_false] at hn
      rcases hn with rfl | hn
      · exact h.2.1
      · exact (ihi h.2.2).2 n hn
    | _ => exact h.elim
  | _ => exact ⟨fun n hn => absurd hn List.not_mem_nil, fun n hn => absurd hn List.not_mem_nil⟩

/-- an expression is over the variables that it reads -/
theorem Expr.Over.strengthen {e : Expr} (h : e.Over V A) (hV : ∀ n ∈ e.scalars, V n → V' n) : e.Over V' A := by
  induction e with
  | var n ty o => exact ⟨h.1, hV n (List.mem_singleton_self n) h.2⟩
  | unary op e ty o ih => exact ih h hV
  | convert e ty ih => exact ih h hV
  | bitCast e ty ih => exact ih h hV
  | binary op l r ty o ihl ihr =>
    simp only [reads_binary, List.mem_append] at hV
    exact ⟨ihl h.1 fun n hn => hV n (.inl hn), ihr h.2 fun n hn => hV n (.inr hn)⟩
  | select b t e ty o ihb iht ihe =>
    simp only [reads_select, List.mem_append] at hV
    exact ⟨ihb h.1 fun n hn => hV n (.inl (.inl hn)), iht h.2.1 fun n hn => hV n (.inl (.inr hn)),
      ihe h.2.2 fun n hn => hV n (.inr hn)⟩
  | access t i ty o iht ihi =>
    cases t with
    | var n ty' o' => exact ⟨h.1, h.2.1, ihi h.2.2 hV⟩
    | _ => exact h
  | _ => trivial

@[simp] theorem blockBinders_nil : blockBinders [] = [] := by
  rw [blockBinders]

@[simp] theorem blockBinders_cons (s : Stmt) (l : List Stmt) :
    blockBinders (s :: l) = s.binders ++ blockBinders l := by
  rw [blockBinders]

@[simp] theorem blockBinders_append (l l' : List Stmt) :
    blockBinders (l ++ l') = blockBinders l ++ blockBinders l' := by
  induction l with
  | nil => simp
  | cons s l ih => simp [ih]

@[simp] theorem blockOver_nil : blockOver V A [] := by
  rw [blockOver]
  trivial

theorem blockOver_cons {s : Stmt} {l : List Stmt} :
    blockOver V A (s :: l) ↔ s.Over V A ∧ blockOver (fun n => n ∈ s.binders ∨ V n) A l := by
  rw [blockOver]

theorem blockOver_append {l l' : List Stmt} :
    blockOver V A (l ++ l') ↔ blockOver V A l ∧ blockOver (fun n => n ∈ blockBinders l ∨ V n) A l' := by
  induction l generalizing V with
  | nil => simp
  | cons s l ih =>
    have h : (fun n => n ∈ blockBinders l ∨ n ∈ s.binders ∨ V n) = fun n => n ∈ blockBinders (s :: l) ∨ V n := by
      funext n
      simp only [blockBinders_cons, List.mem_append, eq_iff_iff]
      tauto
    rw [List.cons_append, blockOver_cons, ih, h, blockOver_cons, and_assoc]

mutual

theorem Stmt.Over.mono (hA : ∀ n, A n → A' n) :
    ∀ {s : Stmt} {V V' : Name → Prop}, s.Over V A → (∀ n, V n → V' n) → s.Over V' A'
  | .define .., _, _, h, hV => by
    simp only [Stmt.Over] at h ⊢
    exact h.mono hV hA
  | .assign .., _, _, h, hV => by
    simp only [Stmt.Over] at h ⊢
    exact ⟨h.1.mono hV hA, h.2.mono hV hA⟩
  | .forLoop .., _, _, h, hV => by
    simp only [Stmt.Over] at h ⊢
    exact ⟨h.1.mono hV hA, h.2.1.mono (fun n => Or.imp_right (hV n)) hA, h.2.2.1.mono (fun n => Or.imp_right (hV n)) hA,
      blockOver_mono hA h.2.2.2 fun n => Or.imp_right (hV n)⟩
  | .ifElse .., _, _, h, hV => by
    simp only [Stmt.Over] at h ⊢
    exact ⟨h.1.mono hV hA, blockOver_mono hA h.2.1 hV, blockOver_mono hA h.2.2 hV⟩
  | .whileLoop .., _, _, h, hV => by
    simp only [Stmt.Over] at h ⊢
    exact ⟨h.1.mono hV hA, blockOver_mono hA h.2 hV⟩
  | .scope .., _, _, h, hV => by
    simp only [Stmt.Over] at h ⊢
    exact blockOver_mono hA h hV
  | .barrier .., _, _, h, _ => by simp only [Stmt.Over] at h
  | .fence .., _, _, _, _ => by simp only [Stmt.Over]
  | .atomic .., _, _, h, hV => by
    simp only [Stmt.Over] at h ⊢
    exact ⟨hA _ h.1, h.2.1.mono hV hA, h.2.2.mono hV hA⟩
  | .compareSwap .., _, _, h, hV => by
    simp only [Stmt.Over] at h ⊢
    exact ⟨hA _ h.1, h.2.1.mono hV hA, h.2.2.1.mono hV hA, h.2.2.2.mono hV hA⟩
  | .alloc .., _, _, h, _ => by simp only [Stmt.Over] at h
  | .free .., _, _, h, _ => by simp only [Stmt.Over] at h
  | .copy .., _, _, h, _ => by simp only [Stmt.Over] at h
  | .fill .., _, _, h, _ => by simp only [Stmt.Over] at h
  | .rebind .., _, _, h, _ => by simp only [Stmt.Over] at h
  | .table .., _, _, h, _ => by simp only [Stmt.Over] at h
  | .launch .., _, _, h, _ => by simp only [Stmt.Over] at h

theorem blockOver_mono (hA : ∀ n, A n → A' n) :
    ∀ {l : List Stmt} {V V' : Name → Prop}, blockOver V A l → (∀ n, V n → V' n) → blockOver V' A' l
  | [], _, _, _, _ => blockOver_nil
  | _ :: _, _, _, h, hV => by
    rw [blockOver_cons] at h ⊢
    exact ⟨h.1.mono hA hV, blockOver_mono hA h.2 fun n => Or.imp_right (hV n)⟩

end

/-- statements that are each over the same variables and arrays -/
theorem blockOver_of_forall {l : List Stmt} (h : ∀ s ∈ l, s.Over V A) : blockOver V A l := by
  induction l with
  | nil => exact blockOver_nil
  | cons s l ih =>
    rw [blockOver_cons]
    exact ⟨h s (List.mem_cons_self ..), blockOver_mono (fun _ h => h)
      (ih fun x hx => h x (List.mem_cons_of_mem s hx)) fun _ => .inr⟩

mutual

/-- a variable that is bound is set -/
theorem Stmt.binders_subset : ∀ s : Stmt, s.binders ⊆ s.uses .sets
  | .define .. => by simp [Stmt.binders, Stmt.uses, Use.among]
  | .forLoop _ _ _ _ _ body _ => by
    simpa [Stmt.binders, Stmt.uses, Use.among] using List.subset_cons_of_subset _ (blockBinders_subset body)
  | .ifElse _ thn els _ => by
    simpa [Stmt.binders, Stmt.uses, Use.among] using
      ⟨List.subset_append_of_subset_left _ (blockBinders_subset thn),
        List.subset_append_of_subset_right _ (blockBinders_subset els)⟩
  | .whileLoop _ body _ => by simpa [Stmt.binders, Stmt.uses, Use.among] using blockBinders_subset body
  | .scope body _ => by simpa [Stmt.binders, Stmt.uses] using blockBinders_subset body
  | .atomic .. => by simp [Stmt.binders, Stmt.uses, Use.among]
  | .compareSwap .. => by simp [Stmt.binders, Stmt.uses, Use.among]
  | .assign .. => by simp [Stmt.binders]
  | .barrier .. => by simp [Stmt.binders]
  | .fence .. => by simp [Stmt.binders]
  | .alloc .. => by simp [Stmt.binders]
  | .free .. => by simp [Stmt.binders]
  | .copy .. => by simp [Stmt.binders]
  | .fill .. => by simp [Stmt.binders]
  | .rebind .. => by simp [Stmt.binders]
  | .table .. => by simp [Stmt.binders]
  | .launch .. => by simp [Stmt.binders]

theorem blockBinders_subset : ∀ l : List Stmt, blockBinders l ⊆ blockSets l
  | [] => by simp
  | s :: l => by
    rw [blockBinders_cons, blockSets, blockUses_cons]
    exact List.append_subset.2 ⟨List.subset_append_of_subset_left _ s.binders_subset,
      List.subset_append_of_subset_right _ (blockBinders_subset l)⟩

end

section Shapes

variable {n : Name} {e init bound : Expr} {l : List Stmt} {sc : Scalar} {sp : Space}

@[simp] theorem over_bind : (Stmt.bind n e).Over V A ↔ e.Over V A := by
  simp only [Stmt.bind, Stmt.Over]

@[simp] theorem binders_bind : (Stmt.bind n e).binders = [n] := by
  simp only [Stmt.bind, Stmt.binders]

@[simp] theorem over_store {dst : Expr} : (Stmt.store dst e).Over V A ↔ dst.Over V A ∧ e.Over V A := by
  simp only [Stmt.store, Stmt.Over]

@[simp] theorem binders_store {dst : Expr} : (Stmt.store dst e).binders = [] := by
  simp only [Stmt.store, Stmt.binders]

@[simp] theorem over_scalarVar : (Expr.scalarVar n sc).Over V A ↔ V n := by
  simp [Expr.scalarVar, Expr.typed, Expr.Over, Ty.isPointer]

@[simp] theorem over_ofName : (Expr.ofName n).Over V A ↔ V n := over_scalarVar

@[simp] theorem over_truthVar : (Expr.typed n .bool).Over V A ↔ V n := over_scalarVar

@[simp] theorem over_truth {b : Bool} : (Expr.truth b).Over V A := trivial

@[simp] theorem over_not : (Expr.not e).Over V A ↔ e.Over V A := Iff.rfl

@[simp] theorem over_element : (Expr.element n sc sp e).Over V A ↔ A n ∧ e.Over V A := by
  simp [Expr.element, Expr.typed, Expr.Over, Ty.isPointer]

@[simp] theorem over_literal {v : Int} : (Expr.literal v sc).Over V A := trivial

@[simp] theorem over_op2 {op : Binary} {l r : Expr} : (Expr.op2 op l r).Over V A ↔ l.Over V A ∧ r.Over V A := Iff.rfl

@[simp] theorem over_eq {l r : Expr} : (l.eq r).Over V A ↔ l.Over V A ∧ r.Over V A := Iff.rfl

@[simp] theorem over_lt {l r : Expr} : (l.lt r).Over V A ↔ l.Over V A ∧ r.Over V A := Iff.rfl

@[simp] theorem over_add {l r : Expr} : (l + r).Over V A ↔ l.Over V A ∧ r.Over V A := Iff.rfl

@[simp] theorem over_mul {l r : Expr} : (l * r).Over V A ↔ l.Over V A ∧ r.Over V A := Iff.rfl

@[simp] theorem over_div {l r : Expr} : (l / r).Over V A ↔ l.Over V A ∧ r.Over V A := Iff.rfl

@[simp] theorem over_mod {l r : Expr} : (l % r).Over V A ↔ l.Over V A ∧ r.Over V A := Iff.rfl

@[simp] theorem over_numeral {k : ℕ} : (OfNat.ofNat k : Expr).Over V A := trivial

theorem over_castIfNeeded (h : e.Over V A) : (e.castIfNeeded sc).Over V A := by
  unfold Expr.castIfNeeded
  split <;> exact h

@[simp] theorem over_sameBits : (e.sameBits sc).Over V A ↔ e.Over V A := Iff.rfl

@[simp] theorem over_updateTruth {b : Bool} : (Stmt.update n (.truth b)).Over V A ↔ V n := by
  simp only [Stmt.update, over_store, over_truth, and_true]
  exact over_scalarVar

@[simp] theorem over_updateVar {m : Name} : (Stmt.update n (.scalarVar m sc)).Over V A ↔ V n ∧ V m := by
  simp only [Stmt.update, over_store, over_scalarVar]
  exact and_congr_left fun _ => over_scalarVar

@[simp] theorem binders_update : (Stmt.update n e).binders = [] := binders_store

@[simp] theorem over_ifThen : (Stmt.ifThen e l).Over V A ↔ e.Over V A ∧ blockOver V A l := by
  simp only [Stmt.ifThen, Stmt.Over, blockOver_nil, and_true]

@[simp] theorem binders_ifThen : (Stmt.ifThen e l).binders = blockBinders l := by
  simp only [Stmt.ifThen, Stmt.binders, blockBinders_nil, List.append_nil]

@[simp] theorem over_block : (Stmt.block l).Over V A ↔ blockOver V A l := by
  simp only [Stmt.block, Stmt.Over]

@[simp] theorem binders_block : (Stmt.block l).binders = blockBinders l := by
  simp only [Stmt.block, Stmt.binders]

theorem blockBinders_binds {α : Type} (name : α → Name) (e : α → Expr) (l : List α) :
    blockBinders (l.map fun a => .bind (name a) (e a)) = l.map name := by
  induction l with
  | nil => simp
  | cons a l ih => simp [ih]

/-- a counting loop over its bounds and its body -/
theorem over_count (hi : init.Over V A) (hb : bound.Over V A) (hl : blockOver (fun m => m = n ∨ V m) A l) :
    (Stmt.count n init bound l).Over V A := by
  simp only [Stmt.count, Stmt.countBy, Stmt.Over]
  refine ⟨hi, ⟨⟨rfl, .inl rfl⟩, hb.mono (fun _ => .inr) fun _ h => h⟩, ⟨⟨rfl, .inl rfl⟩, trivial⟩, hl⟩

@[simp] theorem binders_count : (Stmt.count n init bound l).binders = n :: blockBinders l := by
  simp only [Stmt.count, Stmt.countBy, Stmt.binders]

end Shapes

/-! ## What a pass over code meets -/

namespace Bindings

variable {β : Type} {b : Bindings β} {n m : Name} {v : β}

/-- no name is bound twice -/
def Distinct (b : Bindings β) : Prop := (b.entries.map (·.1)).Nodup

theorem mem_of_get? (h : b.get? n = some v) : (n, v) ∈ b.entries := by
  obtain ⟨l⟩ := b
  change find? n l = some v at h
  induction l with
  | nil => cases h
  | cons e l ih =>
    obtain ⟨m, w⟩ := e
    rw [find?] at h
    split_ifs at h with hm
    · subst hm
      cases h
      exact List.mem_cons_self ..
    · exact List.mem_cons_of_mem _ (ih h)

theorem get?_of_mem (hb : b.Distinct) (h : (n, v) ∈ b.entries) : b.get? n = some v := by
  obtain ⟨l⟩ := b
  change find? n l = some v
  unfold Distinct at hb
  induction l with
  | nil => cases h
  | cons e l ih =>
    obtain ⟨m, w⟩ := e
    rw [List.map_cons, List.nodup_cons] at hb
    rw [find?]
    rcases List.mem_cons.1 h with h | h
    · cases h
      rw [if_pos rfl]
    · rw [if_neg, ih hb.2 h]
      rintro rfl
      exact hb.1 (List.mem_map.2 ⟨_, h, rfl⟩)

theorem map_put (n : Name) (v : β) (l : List (Name × β)) :
    (put n v l).map (·.1) = if n ∈ l.map (·.1) then l.map (·.1) else l.map (·.1) ++ [n] := by
  induction l with
  | nil => rfl
  | cons e l ih =>
    obtain ⟨m, w⟩ := e
    rw [put]
    by_cases h : m = n
    · simp [h]
    · rw [if_neg h, List.map_cons, ih]
      by_cases hn : n ∈ l.map (·.1)
      · simp [hn]
      · rw [if_neg hn, if_neg]
        · rfl
        · rw [List.map_cons, List.mem_cons]
          exact fun hm => hm.elim (fun hm => h hm.symm) hn

theorem Distinct.set (hb : b.Distinct) (n : Name) (v : β) : (b.set n v).Distinct := by
  unfold Distinct at hb ⊢
  rw [Bindings.set, map_put]
  split_ifs with h
  · exact hb
  · exact List.nodup_append.2 ⟨hb, by simp, fun m hm k hk he => h (List.mem_singleton.1 hk ▸ he ▸ hm)⟩

theorem mem_sorted {e : Name × β} : e ∈ b.sorted ↔ e ∈ b.entries :=
  (List.mergeSort_perm _ _).mem_iff

end Bindings

namespace Occurrences

variable {V₀ A₀ : Name → Prop} {u u' : Occurrences}

/-- the free variables are scalars among `V₀` and arrays among `A₀` -/
structure Fine (V₀ A₀ : Name → Prop) (u : Occurrences) : Prop where
  distinct : u.free.Distinct
  free : ∀ n ty, u.free.get? n = some ty → if ty.isPointer then A₀ n else V₀ n

/-- a pass gets from `u` to `u'` over code that binds and reads names -/
structure Leads (V₀ A₀ : Name → Prop) (u u' : Occurrences) (binders reads : List Name) : Prop where
  bound : ∀ n, n ∈ u'.bound ↔ n ∈ binders ∨ n ∈ u.bound
  free : ∀ n, (u.free.get? n).isSome → (u'.free.get? n).isSome
  reads : ∀ n ∈ reads, n ∈ u'.bound ∨ (u'.free.get? n).isSome ∧ V₀ n
  fine : u.Fine V₀ A₀ → u'.Fine V₀ A₀

theorem Leads.refl (u : Occurrences) : Leads V₀ A₀ u u [] [] :=
  ⟨fun n => by simp, fun _ h => h, fun _ h => absurd h List.not_mem_nil, id⟩

theorem Leads.trans {u₁ u₂ : Occurrences} {b b' r r' : List Name} (h : Leads V₀ A₀ u u₁ b r)
    (h' : Leads V₀ A₀ u₁ u₂ b' r') : Leads V₀ A₀ u u₂ (b ++ b') (r ++ r') where
  bound := fun n => by
    rw [h'.bound, h.bound, List.mem_append]
    tauto
  free := fun n hn => h'.free n (h.free n hn)
  reads := fun n hn => by
    rcases List.mem_append.1 hn with hn | hn
    · exact (h.reads n hn).imp (fun hb => (h'.bound n).2 (.inr hb)) (And.imp_left (h'.free n))
    · exact h'.reads n hn
  fine := fun hu => h'.fine (h.fine hu)

theorem Leads.congr {b b' r r' : List Name} (h : Leads V₀ A₀ u u' b r) (hb : ∀ n, n ∈ b' ↔ n ∈ b) (hr : r' ⊆ r) :
    Leads V₀ A₀ u u' b' r' :=
  ⟨fun n => by rw [hb, h.bound], h.free, fun n hn => h.reads n (hr hn), h.fine⟩

theorem leads_use {n : Name} {ty : Ty} (h : n ∈ u.bound ∨ if ty.isPointer then A₀ n else V₀ n) :
    Leads V₀ A₀ u (u.use n ty) [] (if ty.isPointer then [] else [n]) := by
  have hread {m : Name} (hm : m ∈ if ty.isPointer then [] else [n]) : ty.isPointer = false ∧ m = n := by
    split_ifs at hm with hp
    · cases hm
    · exact ⟨by simpa using hp, List.mem_singleton.1 hm⟩
  unfold use
  split
  · rename_i hn
    exact ⟨fun m => by simp, fun _ h => h, fun m hm => .inl ((hread hm).2 ▸ hn), id⟩
  · rename_i hn
    refine ⟨fun m => by simp, fun m hm => ?_, fun m hm => .inr ?_, fun hu => ⟨hu.distinct.set n ty, fun m ty' hm => ?_⟩⟩
    · rw [Bindings.get?_set]
      split
      · rfl
      · exact hm
    · obtain ⟨hp, rfl⟩ := hread hm
      rw [Bindings.get?_set, if_pos rfl]
      exact ⟨rfl, by simpa [hp] using h.resolve_left hn⟩
    · rw [Bindings.get?_set] at hm
      split at hm
      · rename_i hnm
        cases hm
        exact hnm ▸ h.resolve_left hn
      · exact hu.free m ty' hm

theorem leads_bind (n : Name) : Leads V₀ A₀ u (u.bind n) [n] [] :=
  ⟨fun m => by simp [bind], fun _ h => h, fun _ h => absurd h List.not_mem_nil, fun hu => ⟨hu.distinct, hu.free⟩⟩

variable {V A : Name → Prop}

theorem leads_expr {e : Expr} (h : e.Over V A) (hV : ∀ n, V n → n ∈ u.bound ∨ V₀ n) (hA : ∀ n, A n → n ∈ u.bound ∨ A₀ n) :
    Leads V₀ A₀ u (u.expr e) [] e.scalars := by
  induction e generalizing u with
  | var n ty o =>
    have hn : Leads V₀ A₀ u (u.use n ty) [] _ := leads_use (by rw [h.1]; exact hV n h.2)
    rwa [h.1] at hn
  | unary op e ty o ih => exact ih h hV hA
  | convert e ty ih => exact ih h hV hA
  | bitCast e ty ih => exact ih h hV hA
  | binary op l r ty o ihl ihr =>
    have hl := ihl h.1 hV hA
    exact hl.trans (ihr h.2 (fun n hn => (hV n hn).imp_left fun hb => (hl.bound n).2 (.inr hb))
      fun n hn => (hA n hn).imp_left fun hb => (hl.bound n).2 (.inr hb))
  | select b t e ty o ihb iht ihe =>
    have hb := ihb h.1 hV hA
    have ht := hb.trans (iht h.2.1 (fun n hn => (hV n hn).imp_left fun h => (hb.bound n).2 (.inr h))
      fun n hn => (hA n hn).imp_left fun h => (hb.bound n).2 (.inr h))
    exact ht.trans (ihe h.2.2 (fun n hn => (hV n hn).imp_left fun h => (ht.bound n).2 (.inr h))
      fun n hn => (hA n hn).imp_left fun h => (ht.bound n).2 (.inr h))
  | access t i ty o iht ihi =>
    cases t with
    | var m ty' o' =>
      have hm : Leads V₀ A₀ u (u.use m ty') [] _ := leads_use (by rw [h.1]; exact hA m h.2.1)
      exact (hm.trans (ihi h.2.2 (fun n hn => (hV n hn).imp_left fun h => (hm.bound n).2 (.inr h))
        fun n hn => (hA n hn).imp_left fun h => (hm.bound n).2 (.inr h))).congr (fun _ => by simp)
          fun n hn => List.mem_append_right _ hn
    | _ => exact h.elim
  | _ => exact .refl u

/-- what may be used is bound or comes from outside -/
def Allows (V₀ A₀ V A : Name → Prop) (u : Occurrences) : Prop :=
  (∀ n, V n → n ∈ u.bound ∨ V₀ n) ∧ ∀ n, A n → n ∈ u.bound ∨ A₀ n

theorem Allows.later {b r : List Name} (h : u.Allows V₀ A₀ V A) (hl : Leads V₀ A₀ u u' b r) :
    u'.Allows V₀ A₀ (fun n => n ∈ b ∨ V n) A :=
  ⟨fun n hn => hn.elim (fun hb => .inl ((hl.bound n).2 (.inl hb)))
    fun hv => (h.1 n hv).imp_left fun hb => (hl.bound n).2 (.inr hb),
    fun n hn => (h.2 n hn).imp_left fun hb => (hl.bound n).2 (.inr hb)⟩

theorem Allows.mono {V' A' : Name → Prop} (h : u.Allows V₀ A₀ V A) (hV : ∀ n, V' n → V n) (hA : ∀ n, A' n → A n) :
    u.Allows V₀ A₀ V' A' :=
  ⟨fun n hn => h.1 n (hV n hn), fun n hn => h.2 n (hA n hn)⟩

theorem Allows.expr {e : Expr} (h : u.Allows V₀ A₀ V A) (he : e.Over V A) :
    Leads V₀ A₀ u (u.expr e) [] e.scalars ∧ (u.expr e).Allows V₀ A₀ V A := by
  have hl := leads_expr he h.1 h.2
  exact ⟨hl, (h.later hl).mono (fun n hn => .inr hn) fun _ hn => hn⟩

mutual

theorem leads_stmt : ∀ {s : Stmt} {V : Name → Prop} {u : Occurrences}, s.Over V A → u.Allows V₀ A₀ V A →
    Leads V₀ A₀ u (u.stmt s) s.binders (s.uses (.reads .scalar))
  | .define ty n e o, _, u, h, hu => by
    simp only [Stmt.Over] at h
    obtain ⟨he, -⟩ := hu.expr h
    rw [stmt]
    exact (he.trans (leads_bind n)).congr (fun _ => by simp [Stmt.binders]) (by simp [Stmt.uses, Use.among])
  | .assign dst e o, _, u, h, hu => by
    simp only [Stmt.Over] at h
    obtain ⟨hd, hu⟩ := hu.expr h.1
    obtain ⟨he, -⟩ := hu.expr h.2
    rw [stmt]
    · exact (hd.trans he).congr (fun _ => by simp [Stmt.binders]) (by simp [Stmt.uses, Use.among])
    all_goals simp
  | .forLoop ty n init cond incr body o, V, u, h, hu => by
    simp only [Stmt.Over] at h
    obtain ⟨hi, hu⟩ := hu.expr h.1
    have hn : Leads V₀ A₀ (u.expr init) _ _ _ := leads_bind n
    have hu : Allows V₀ A₀ (fun m => m = n ∨ V m) A _ :=
      (hu.later hn).mono (fun m hm => hm.imp_left fun h => by simp [h]) fun _ h => h
    obtain ⟨hc, hu⟩ := hu.expr h.2.1
    obtain ⟨hx, hu⟩ := hu.expr h.2.2.1
    have hb := leads_stmts h.2.2.2 hu
    rw [stmt]
    exact ((((hi.trans hn).trans hc).trans hx).trans hb).congr (fun _ => by simp [Stmt.binders])
      (by simp [Stmt.uses, Use.among])
  | .ifElse cond thn els o, _, u, h, hu => by
    simp only [Stmt.Over] at h
    obtain ⟨hc, hu⟩ := hu.expr h.1
    have ht := leads_stmts h.2.1 hu
    have he := leads_stmts h.2.2 ((hu.later ht).mono (fun _ h => .inr h) fun _ h => h)
    rw [stmt]
    exact ((hc.trans ht).trans he).congr (fun _ => by simp [Stmt.binders]) (by simp [Stmt.uses, Use.among])
  | .whileLoop cond body o, _, u, h, hu => by
    simp only [Stmt.Over] at h
    obtain ⟨hc, hu⟩ := hu.expr h.1
    have hb := leads_stmts h.2 hu
    rw [stmt]
    exact (hc.trans hb).congr (fun _ => by simp [Stmt.binders]) (by simp [Stmt.uses, Use.among])
  | .scope body o, _, u, h, hu => by
    simp only [Stmt.Over] at h
    rw [stmt]
    exact (leads_stmts h hu).congr (fun _ => by simp [Stmt.binders]) (by simp [Stmt.uses])
  | .barrier .., _, _, h, _ => by simp only [Stmt.Over] at h
  | .fence .., _, u, _, _ => by
    rw [stmt]
    · exact (Leads.refl u).congr (fun _ => by simp [Stmt.binders]) (by simp [Stmt.uses])
    all_goals simp
  | .atomic op sp sc target idx v old o, _, u, h, hu => by
    simp only [Stmt.Over] at h
    have ht : Leads V₀ A₀ u (u.use target (.pointer sc sp)) [] [] := leads_use (hu.2 target h.1)
    obtain ⟨hi, hu⟩ := ((hu.later ht).mono (fun _ h => .inr h) fun _ h => h).expr h.2.1
    obtain ⟨hv, hu⟩ := hu.expr h.2.2
    have hl := (ht.trans hi).trans hv
    cases old with
    | none =>
      rw [stmt]
      exact hl.congr (fun _ => by simp [Stmt.binders]) (by simp [Stmt.uses, Use.among])
    | some n =>
      rw [stmt]
      exact (hl.trans (leads_bind n)).congr (fun _ => by simp [Stmt.binders]) (by simp [Stmt.uses, Use.among])
  | .compareSwap old sp sc target idx cmp new o, _, u, h, hu => by
    simp only [Stmt.Over] at h
    have ht : Leads V₀ A₀ u (u.use target (.pointer sc sp)) [] [] := leads_use (hu.2 target h.1)
    obtain ⟨hi, hu⟩ := ((hu.later ht).mono (fun _ h => .inr h) fun _ h => h).expr h.2.1
    obtain ⟨hc, hu⟩ := hu.expr h.2.2.1
    obtain ⟨hn, hu⟩ := hu.expr h.2.2.2
    rw [stmt]
    exact ((((ht.trans hi).trans hc).trans hn).trans (leads_bind old)).congr (fun _ => by simp [Stmt.binders])
      (by simp [Stmt.uses, Use.among])
  | .alloc .., _, _, h, _ => by simp only [Stmt.Over] at h
  | .free .., _, _, h, _ => by simp only [Stmt.Over] at h
  | .copy .., _, _, h, _ => by simp only [Stmt.Over] at h
  | .fill .., _, _, h, _ => by simp only [Stmt.Over] at h
  | .rebind .., _, _, h, _ => by simp only [Stmt.Over] at h
  | .table .., _, _, h, _ => by simp only [Stmt.Over] at h
  | .launch .., _, _, h, _ => by simp only [Stmt.Over] at h

theorem leads_stmts : ∀ {l : List Stmt} {V : Name → Prop} {u : Occurrences}, blockOver V A l → u.Allows V₀ A₀ V A →
    Leads V₀ A₀ u (u.stmts l) (blockBinders l) (blockUses (.reads .scalar) l)
  | [], _, u, _, _ => by
    rw [stmts, blockBinders_nil, blockUses_nil]
    exact .refl u
  | x :: l, _, u, h, hu => by
    rw [blockOver_cons] at h
    have hx := leads_stmt h.1 hu
    have hl := leads_stmts h.2 (hu.later hx)
    rw [stmts, blockBinders_cons, blockUses_cons]
    exact hx.trans hl

end

theorem start_spec (blocks : List LocalBlock) :
    (start blocks).free = ∅ ∧ ∀ n, n ∈ (start blocks).bound ↔ n ∈ blocks.map (·.name) := by
  have h (u : Occurrences) : (blocks.foldl (fun u b => u.bind b.name) u).free = u.free ∧
      ∀ n, n ∈ (blocks.foldl (fun u b => u.bind b.name) u).bound ↔ n ∈ blocks.map (·.name) ∨ n ∈ u.bound := by
    induction blocks generalizing u with
    | nil => simp
    | cons b blocks ih =>
      obtain ⟨hf, hb⟩ := ih (u.bind b.name)
      refine ⟨hf, fun n => ?_⟩
      rw [List.foldl_cons, hb]
      simp only [bind, List.mem_cons, List.map_cons]
      tauto
  obtain ⟨hf, hb⟩ := h {}
  exact ⟨hf, fun n => (hb n).trans (by simp)⟩

end Occurrences

/-- the free variables of code are those it may use, with their types, and all that it reads but does not bind are
among them -/
theorem freeVariables_spec {V A : Name → Prop} {body : List Stmt} {blocks : List LocalBlock}
    (h : blockOver (fun n => n ∈ blocks.map (·.name) ∨ V n) (fun n => n ∈ blocks.map (·.name) ∨ A n) body) :
    (∀ x ∈ freeVariables body blocks, if x.2.isPointer then A x.1 else V x.1) ∧
      ∀ n ∈ blockUses (.reads .scalar) body, n ∉ blocks.map (·.name) → n ∉ blockBinders body →
        V n ∧ ∃ ty, (n, ty) ∈ freeVariables body blocks := by
  obtain ⟨hfree, hbound⟩ := Occurrences.start_spec blocks
  have hl : Occurrences.Leads V A (.start blocks) _ _ _ := Occurrences.leads_stmts h
    ⟨fun n hn => hn.imp_left (hbound n).2, fun n hn => hn.imp_left (hbound n).2⟩
  have hfine := hl.fine ⟨by rw [hfree]; exact List.nodup_nil, fun n ty hn => by rw [hfree] at hn; cases hn⟩
  refine ⟨fun x hx => ?_, fun n hn hblocks hbinders => ?_⟩
  · exact hfine.free x.1 x.2 (Bindings.get?_of_mem hfine.distinct (Bindings.mem_sorted.1 hx))
  · rcases hl.reads n hn with hb | hs
    · rcases (hl.bound n).1 hb with hb | hb
      · exact absurd hb hbinders
      · exact absurd ((hbound n).1 hb) hblocks
    · obtain ⟨ty, hty⟩ := Option.isSome_iff_exists.1 hs.1
      exact ⟨hs.2, ty, Bindings.mem_sorted.2 (Bindings.mem_of_get? hty)⟩

namespace Machine

variable {s s' t : State}

/-- capturing variables that are there -/
theorem capture_run {spec : LaunchSpec} {l : List (Name × Ty)}
    (h : ∀ x ∈ l, if x.2.isPointer then s.memory.contains x.1 = true else (s.vars.get? x.1).isSome = true) :
    ∃ b, capture s spec l = .ok b ∧ ∀ n ty, (n, ty) ∈ l → ty.isPointer = false → b.get? n = s.vars.get? n := by
  induction l with
  | nil => exact ⟨∅, rfl, fun n ty hn => absurd hn List.not_mem_nil⟩
  | cons x l ih =>
    obtain ⟨n, ty⟩ := x
    obtain ⟨b, hb, hvals⟩ := ih fun x hx => h x (List.mem_cons_of_mem _ hx)
    have hx := h (n, ty) (List.mem_cons_self ..)
    rw [capture]
    cases hty : ty.isPointer with
    | true =>
      simp only [hty, if_true] at hx ⊢
      rw [hx]
      refine ⟨b, hb, fun m ty' hm hty' => hvals m ty' ?_ hty'⟩
      rcases List.mem_cons.1 hm with hm | hm
      · cases hm
        rw [hty] at hty'
        cases hty'
      · exact hm
    | false =>
      simp only [hty, Bool.false_eq_true, if_false] at hx ⊢
      obtain ⟨v, hv⟩ := Option.isSome_iff_exists.1 hx
      rw [hv, hb]
      refine ⟨b.set n v, rfl, fun m ty' hm hty' => ?_⟩
      rw [Bindings.get?_set]
      split_ifs with hnm
      · rw [← hnm, hv]
      · rcases List.mem_cons.1 hm with hm | hm
        · cases hm
          exact absurd rfl hnm
        · exact hvals m ty' hm hty'

/-- what is captured are the variables of the host, but only the scalars among the captures -/
theorem capture_get? {spec : LaunchSpec} {l : List (Name × Ty)} {vars : Bindings Value}
    (h : capture s spec l = .ok vars) (n : Name) :
    vars.get? n = if n ∈ (l.filter fun x => !x.2.isPointer).map (·.1) then s.vars.get? n else none := by
  induction l generalizing vars with
  | nil =>
    cases h
    rfl
  | cons x l ih =>
    obtain ⟨m, ty⟩ := x
    simp only [capture] at h
    cases hty : ty.isPointer with
    | true =>
      simp only [hty, if_true] at h
      split_ifs at h
      rw [ih h, List.filter_cons_of_neg (by simp [hty])]
    | false =>
      simp only [hty, Bool.false_eq_true, if_false] at h
      split at h
      · rename_i v hv
        obtain ⟨rest, hrest, h⟩ := except_bind_eq_ok.1 h
        obtain rfl := except_pure_eq_ok.1 h
        rw [Bindings.get?_set, ih hrest, List.filter_cons_of_pos (by simp [hty]), List.map_cons]
        by_cases hm : m = n
        · simp [← hm, hv]
        · simp only [hm, if_false, List.mem_cons, Ne.symm hm, false_or]
      · cases h

end Machine

end GpuHistogram
