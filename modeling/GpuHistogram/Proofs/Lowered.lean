/-
What lowering does, one statement for each function of `Source/Lowering.lean`. `Lowers m u refused P` says that the
lowering `m`, begun with the features `u` recorded, fails exactly if something is refused, and that otherwise its result
and the features recorded by then are related by `P`.

What is refused is read off the code: `Expr.isRefused` and `Stmt.isRefused` look at one node, and `Expr.nodes` and
`blockNodes` list the nodes of all depths. What is recorded is compared with the result: `Accounts` says that the helpers
that were added are those that are called, and that doubles are recorded wherever they occur.
-/
import GpuHistogram.Code.Children
import GpuHistogram.Source.DeviceCode
import Mathlib.Tactic.Tauto

namespace GpuHistogram

/-! ## What is refused -/

/-- whether a type points into a memory space that is not known -/
def Ty.isUnknown : Ty → Bool
  | pointer _ (.other _) => true
  | _ => false

/-- whether a type is a floating-point number -/
def Ty.isFloat : Ty → Bool
  | scalar s => s.isFloat
  | pointer .. => false

/-- whether elements in a memory space can be changed in one step -/
def Space.hasAtomics : Space → Bool
  | device | shared => true
  | own | other _ => false

/-- the expression and all expressions in it -/
@[simp] def Expr.nodes : Expr → List Expr
  | unary op e ty o => unary op e ty o :: e.nodes
  | binary op l r ty o => binary op l r ty o :: (l.nodes ++ r.nodes)
  | select c t e ty o => select c t e ty o :: (c.nodes ++ (t.nodes ++ e.nodes))
  | access t i ty o => access t i ty o :: (t.nodes ++ i.nodes)
  | convert e ty => convert e ty :: e.nodes
  | bitCast e ty => bitCast e ty :: e.nodes
  | e => [e]

/-- whether there is no text for a node: it asks for what only the host knows, its type points into an unknown memory
space, it is a mathematical function at a type that has none, or it changes the number of bits -/
@[simp] def Expr.isRefused : Expr → Bool
  | size .. | capability .. => true
  | unary .abs _ ty _ | binary .max _ _ ty _ | binary .min _ _ ty _ => ty.isPointer
  | unary .exp _ ty _ | unary .log _ ty _ | unary .sqrt _ ty _ => !ty.isFloat
  | bitCast e (.scalar s) => e.ty.elem.bytes ≠ s.bytes
  | e => e.ty.isUnknown

/-- whether there is no text for some node of an expression -/
def Expr.Refused (e : Expr) : Prop := ∃ x ∈ e.nodes, x.isRefused = true

/-- the expressions of a statement, without those of the statements in it -/
def Stmt.exprs (s : Stmt) : List Expr :=
  Id.run (s.foldExprs (fun l e => pure (l ++ [e])) [])

mutual

/-- the statement and all statements in it -/
@[simp] def Stmt.nodes : Stmt → List Stmt
  | .forLoop ty n init cond incr body o => .forLoop ty n init cond incr body o :: blockNodes body
  | .ifElse cond thn els o => .ifElse cond thn els o :: (blockNodes thn ++ blockNodes els)
  | .whileLoop cond body o => .whileLoop cond body o :: blockNodes body
  | .scope body o => .scope body o :: blockNodes body
  | s => [s]

/-- the statements of a list and all statements in them -/
@[simp] def blockNodes : List Stmt → List Stmt
  | [] => []
  | s :: rest => s.nodes ++ blockNodes rest

end

/-- whether there is no text for a node, apart from its expressions and the statements in it: only the host runs it, it
changes elements in one step where that is not possible, or it binds a pointer into an unknown memory space -/
@[simp] def Stmt.isRefused : Stmt → Bool
  | .define ty .. | .forLoop ty .. => ty.isUnknown
  | .fence space _ | .atomic _ space .. | .compareSwap _ space .. => !space.hasAtomics
  | s => s.isHostOnly

/-- whether there is no text for a node or one of its expressions -/
def Stmt.RefusedHere (s : Stmt) : Prop := s.isRefused = true ∨ ∃ e ∈ s.exprs, e.Refused

/-- whether there is no text for some node of a list of statements -/
def BlockRefused (l : List Stmt) : Prop := ∃ s ∈ blockNodes l, s.RefusedHere

/-- whether there is no text for a kernel -/
def Kernel.Refused (k : Kernel) : Prop :=
  (∃ c ∈ k.captures, c.2.isUnknown = true) ∨ BlockRefused k.body

/-! ## What the text uses -/

namespace Source

/-- the element types in a type -/
def Ty.scalars : Ty → List Scalar
  | void => []
  | scalar s | pointer s _ => [s]

mutual

/-- the expression and all expressions in it -/
@[simp] def Expr.nodes : Expr → List Expr
  | .unary op e ty => .unary op e ty :: e.nodes
  | .binary op l r ty => .binary op l r ty :: (l.nodes ++ r.nodes)
  | .ternary c t e ty => .ternary c t e ty :: (c.nodes ++ (t.nodes ++ e.nodes))
  | .access t i ty => .access t i ty :: (t.nodes ++ i.nodes)
  | .addressOf e ty => .addressOf e ty :: e.nodes
  | .convert e ty => .convert e ty :: e.nodes
  | .call id args ty => .call id args ty :: nodesAll args
  | e => [e]

/-- all expressions in a list of expressions -/
@[simp] def nodesAll : List Expr → List Expr
  | [] => []
  | e :: rest => e.nodes ++ nodesAll rest

end

/-- the function that a node calls -/
def Expr.callee? : Expr → Option String
  | .call id _ _ => some id
  | _ => none

mutual

/-- all expressions in a statement -/
@[simp] def Stmt.nodes : Stmt → List Expr
  | .define _ _ e => e.nodes
  | .assign dst e => dst.nodes ++ e.nodes
  | .forLoop _ _ init cond incr body => init.nodes ++ (cond.nodes ++ (incr.nodes ++ blockExprs body))
  | .ifElse cond thn els => cond.nodes ++ (blockExprs thn ++ blockExprs els)
  | .whileLoop cond body => cond.nodes ++ blockExprs body
  | .scope body => blockExprs body
  | .expr e => e.nodes
  | .localArray .. | .externShared _ => []

/-- all expressions in statements -/
@[simp] def blockExprs : List Stmt → List Expr
  | [] => []
  | s :: rest => s.nodes ++ blockExprs rest

end

mutual

/-- the element types that a statement declares variables with -/
@[simp] def Stmt.declared : Stmt → List Scalar
  | .define ty _ _ => ty.scalars
  | .forLoop ty _ _ _ _ body => ty.scalars ++ blockDeclared body
  | .ifElse _ thn els => blockDeclared thn ++ blockDeclared els
  | .whileLoop _ body => blockDeclared body
  | .scope body => blockDeclared body
  | .localArray _ s _ _ => [s]
  | .assign .. | .expr _ | .externShared _ => []

/-- the element types that statements declare variables with -/
@[simp] def blockDeclared : List Stmt → List Scalar
  | [] => []
  | s :: rest => s.declared ++ blockDeclared rest

end

/-- the element types of a helper -/
def Helper.scalars : Helper → List Scalar
  | math _ s | atomic _ s _ => [s]
  | bitCast source target => [source, target]

end Source

/-- the functions that are there whatever is used: those that threads synchronize by, and those by which a thread asks about
its place -/
def LoweringContext.given (c : LoweringContext) : List String :=
  ["barrier_local", "barrier_global", "mem_fence_global", "mem_fence_local"] ++ Place.all.map Place.function
    ++ if c.permuted then (Place.all.filter Place.dependsOnGrid).map (·.function ++ "_fn") else []

/-- what was recorded from `u` to `u'` is what some expressions use: the helpers that were added are those that are called,
and doubles are recorded if they occur in the expressions or in an added helper -/
structure Accounts (c : LoweringContext) (u u' : Source.Features) (es : List Source.Expr) : Prop where
  permuted : u'.permuted = u.permuted
  types : u.types ⊆ u'.types
  helpers : u.helpers ⊆ u'.helpers
  doubles : ∀ e ∈ es, .f64 ∈ e.ty.scalars → .f64 ∈ u'.types
  helperDoubles : ∀ h ∈ u'.helpers, h ∈ u.helpers ∨ (.f64 ∈ h.scalars → .f64 ∈ u'.types)
  provided : ∀ e ∈ es, ∀ id, e.callee? = some id → id ∈ c.given ∨ ∃ h ∈ u'.helpers, h.name = id
  called : ∀ h ∈ u'.helpers, h ∈ u.helpers ∨ ∃ e ∈ es, e.callee? = some h.name

/-! ## Sets of features -/

theorem Scalar.rank_lt (s : Scalar) : s.rank < 11 := by
  cases s <;> decide

theorem Scalar.rank_injective (s t : Scalar) (h : s.rank = t.rank) : s = t := by
  cases s <;> cases t <;> first | rfl | cases h

theorem Atomic.rank_injective (a b : Atomic) (h : a.rank = b.rank) : a = b := by
  cases a <;> cases b <;> first | rfl | cases h

namespace Source

theorem MathFunction.rank_lt (f : MathFunction) : f.rank < 6 := by
  cases f <;> decide

theorem MathFunction.rank_injective (f g : MathFunction) (h : f.rank = g.rank) : f = g := by
  cases f <;> cases g <;> first | rfl | cases h

theorem AtomicSpace.rank_lt (s : AtomicSpace) : s.rank < 2 := by
  cases s <;> decide

theorem AtomicSpace.rank_injective (s t : AtomicSpace) (h : s.rank = t.rank) : s = t := by
  cases s <;> cases t <;> first | rfl | cases h

theorem AtomicStep.rank_injective (k l : AtomicStep) (h : k.rank = l.rank) : k = l := by
  have hlt (op : Atomic) : op.rank < 9 := by cases op <;> decide
  cases k with
  | update op =>
    have := hlt op
    cases l with
    | update op' => rw [Atomic.rank_injective op op' h]
    | compareSwap => simp only [rank] at h; omega
  | compareSwap =>
    cases l with
    | update op' => have := hlt op'; simp only [rank] at h; omega
    | compareSwap => rfl

/-- helpers of one rank are the same -/
theorem Helper.rank_injective (a b : Helper) (h : a.rank = b.rank) : a = b := by
  cases a with
  | math f s =>
    have hf := f.rank_lt
    have hs := s.rank_lt
    cases b with
    | math g t =>
      have ht := t.rank_lt
      simp only [rank] at h
      rw [f.rank_injective g (by omega), s.rank_injective t (by omega)]
    | bitCast | atomic => simp only [rank] at h; omega
  | bitCast s t =>
    have hs := s.rank_lt
    have ht := t.rank_lt
    cases b with
    | math g t' =>
      have hg := g.rank_lt
      have ht' := t'.rank_lt
      simp only [rank] at h
      omega
    | bitCast s' t' =>
      have ht' := t'.rank_lt
      simp only [rank] at h
      rw [s.rank_injective s' (by omega), t.rank_injective t' (by omega)]
    | atomic => simp only [rank] at h; omega
  | atomic k s space =>
    have hs := s.rank_lt
    have hspace := space.rank_lt
    cases b with
    | math g t =>
      have hg := g.rank_lt
      have ht := t.rank_lt
      simp only [rank] at h
      omega
    | bitCast s' t' =>
      have hs' := s'.rank_lt
      have ht' := t'.rank_lt
      simp only [rank] at h
      omega
    | atomic l t space' =>
      have ht := t.rank_lt
      have hspace' := space'.rank_lt
      simp only [rank] at h
      rw [k.rank_injective l (by omega), s.rank_injective t (by omega), space.rank_injective space' (by omega)]

namespace Features

variable (u : Features)

@[simp] theorem mem_types_useType (s t : Scalar) : t ∈ (u.useType s).types ↔ t = s ∨ t ∈ u.types :=
  mem_insertRanked Scalar.rank_injective s t u.types

@[simp] theorem mem_helpers_useHelper (h h' : Helper) : h' ∈ (u.useHelper h).helpers ↔ h' = h ∨ h' ∈ u.helpers :=
  mem_insertRanked Helper.rank_injective h h' u.helpers

@[simp] theorem helpers_useType (s : Scalar) : (u.useType s).helpers = u.helpers := rfl

@[simp] theorem types_useHelper (h : Helper) : (u.useHelper h).types = u.types := rfl

@[simp] theorem permuted_useType (s : Scalar) : (u.useType s).permuted = u.permuted := rfl

@[simp] theorem permuted_useHelper (h : Helper) : (u.useHelper h).permuted = u.permuted := rfl

end Features

end Source

namespace Accounts

variable {c : LoweringContext} {u u' u'' : Source.Features} {es es' : List Source.Expr}

theorem refl (c : LoweringContext) (u : Source.Features) : Accounts c u u [] where
  permuted := rfl
  types := List.Subset.refl _
  helpers := List.Subset.refl _
  doubles := fun _ he => absurd he List.not_mem_nil
  helperDoubles := fun _ hh => .inl hh
  provided := fun _ he => absurd he List.not_mem_nil
  called := fun _ hh => .inl hh

theorem useType (c : LoweringContext) (u : Source.Features) (s : Scalar) : Accounts c u (u.useType s) [] :=
  { refl c u with
    types := fun t ht => (u.mem_types_useType s t).2 (.inr ht)
    doubles := fun _ he => absurd he List.not_mem_nil
    helperDoubles := fun _ hh => .inl hh }

/-- only which expressions there are matters -/
theorem congr (h : Accounts c u u' es) (hes : ∀ e, e ∈ es' ↔ e ∈ es) : Accounts c u u' es' where
  permuted := h.permuted
  types := h.types
  helpers := h.helpers
  doubles := fun e he => h.doubles e ((hes e).1 he)
  helperDoubles := h.helperDoubles
  provided := fun e he => h.provided e ((hes e).1 he)
  called := fun x hx => (h.called x hx).imp_right fun ⟨e, he, hc⟩ => ⟨e, (hes e).2 he, hc⟩

theorem append (h : Accounts c u u' es) (h' : Accounts c u' u'' es') : Accounts c u u'' (es ++ es') where
  permuted := h'.permuted.trans h.permuted
  types := fun _ hx => h'.types (h.types hx)
  helpers := fun _ hx => h'.helpers (h.helpers hx)
  doubles := fun e he hd => (List.mem_append.1 he).elim (fun he => h'.types (h.doubles e he hd)) fun he => h'.doubles e he hd
  helperDoubles := fun x hx => by
    rcases h'.helperDoubles x hx with hx | hx
    · exact (h.helperDoubles x hx).imp_right fun hd hs => h'.types (hd hs)
    · exact .inr hx
  provided := fun e he id hid => by
    rcases List.mem_append.1 he with he | he
    · exact (h.provided e he id hid).imp_right fun ⟨x, hx, hn⟩ => ⟨x, h'.helpers hx, hn⟩
    · exact h'.provided e he id hid
  called := fun x hx => by
    rcases h'.called x hx with hx | ⟨e, he, hc⟩
    · exact (h.called x hx).imp_right fun ⟨e, he, hc⟩ => ⟨e, List.mem_append_left _ he, hc⟩
    · exact .inr ⟨e, List.mem_append_right _ he, hc⟩

/-- one more expression that calls nothing but what is there -/
theorem cons (h : Accounts c u u' es) (e : Source.Expr) (hd : .f64 ∈ e.ty.scalars → .f64 ∈ u'.types)
    (hc : ∀ id, e.callee? = some id → id ∈ c.given) : Accounts c u u' (e :: es) :=
  { h with
    doubles := fun x hx => (List.mem_cons.1 hx).elim (fun hx => hx ▸ hd) (h.doubles x)
    provided := fun x hx id hid => by
      rcases List.mem_cons.1 hx with rfl | hx
      · exact .inl (hc id hid)
      · exact h.provided x hx id hid
    called := fun x hx => (h.called x hx).imp_right fun ⟨y, hy, hy'⟩ => ⟨y, List.mem_cons_of_mem e hy, hy'⟩ }

/-- one call of a function that is there -/
theorem given (h : Accounts c u u' []) {id : String} (hid : id ∈ c.given) : Accounts c u u' [.call id [] .void] :=
  h.cons _ (fun hd => absurd hd List.not_mem_nil) fun _ hid' => Option.some.inj hid' ▸ hid

/-- the call of a helper that was recorded first -/
theorem call {x : Source.Helper} {args : List Source.Expr} {ty : Source.Ty}
    (h : Accounts c (u.useHelper x) u' (Source.nodesAll args)) (hx : .f64 ∈ x.scalars → .f64 ∈ u'.types)
    (hd : .f64 ∈ ty.scalars → .f64 ∈ u'.types) : Accounts c u u' (x.call args ty).nodes where
  permuted := h.permuted
  types := h.types
  helpers := fun y hy => h.helpers ((u.mem_helpers_useHelper x y).2 (.inr hy))
  doubles := fun e he => (List.mem_cons.1 he).elim (fun he => he ▸ hd) (h.doubles e)
  helperDoubles := fun y hy => by
    rcases h.helperDoubles y hy with hy | hy
    · rcases (u.mem_helpers_useHelper x y).1 hy with rfl | hy
      · exact .inr hx
      · exact .inl hy
    · exact .inr hy
  provided := fun e he id hid => by
    rcases List.mem_cons.1 he with rfl | he
    · exact .inr ⟨x, h.helpers ((u.mem_helpers_useHelper x x).2 (.inl rfl)), Option.some.inj hid⟩
    · exact h.provided e he id hid
  called := fun y hy => by
    rcases h.called y hy with hy | ⟨e, he, hc⟩
    · rcases (u.mem_helpers_useHelper x y).1 hy with rfl | hy
      · exact .inr ⟨_, List.mem_cons_self .., rfl⟩
      · exact .inl hy
    · exact .inr ⟨e, List.mem_cons_of_mem _ he, hc⟩

/-- the call of a helper that is recorded last -/
theorem thenCall {x : Source.Helper} {args : List Source.Expr} {ty : Source.Ty}
    (h : Accounts c u u' (Source.nodesAll args)) (hx : .f64 ∈ x.scalars → .f64 ∈ u'.types)
    (hd : .f64 ∈ ty.scalars → .f64 ∈ u'.types) : Accounts c u (u'.useHelper x) (x.call args ty).nodes where
  permuted := h.permuted
  types := h.types
  helpers := fun y hy => (u'.mem_helpers_useHelper x y).2 (.inr (h.helpers hy))
  doubles := fun e he => (List.mem_cons.1 he).elim (fun he => he ▸ hd) (h.doubles e)
  helperDoubles := fun y hy => by
    rcases (u'.mem_helpers_useHelper x y).1 hy with rfl | hy
    · exact .inr hx
    · exact h.helperDoubles y hy
  provided := fun e he id hid => by
    rcases List.mem_cons.1 he with rfl | he
    · exact .inr ⟨x, (u'.mem_helpers_useHelper x x).2 (.inl rfl), Option.some.inj hid⟩
    · exact (h.provided e he id hid).imp_right fun ⟨y, hy, hn⟩ => ⟨y, (u'.mem_helpers_useHelper x y).2 (.inr hy), hn⟩
  called := fun y hy => by
    rcases (u'.mem_helpers_useHelper x y).1 hy with rfl | hy
    · exact .inr ⟨_, List.mem_cons_self .., rfl⟩
    · exact (h.called y hy).imp_right fun ⟨e, he, hc⟩ => ⟨e, List.mem_cons_of_mem _ he, hc⟩

end Accounts

/-! ## Rules -/

/-- what a lowering does from the given features on: it fails exactly if something is refused, and otherwise its result and
the features it leaves are related -/
def Lowers {α : Type} (m : Lowering α) (u : Source.Features) (refused : Prop) (P : α → Source.Features → Prop) : Prop :=
  match m u with
  | .ok a u' => ¬ refused ∧ P a u'
  | .error _ _ => refused

namespace Lowers

variable {α β : Type} {m : Lowering α} {f : α → Lowering β} {u : Source.Features} {r q : Prop}
  {P P' : α → Source.Features → Prop} {Q : β → Source.Features → Prop}

theorem mono (h : Lowers m u r P) (hr : q ↔ r) (hP : ∀ a u', ¬ r → P a u' → P' a u') : Lowers m u q P' := by
  unfold Lowers at h ⊢
  split at h
  · exact ⟨fun hr' => h.1 (hr.1 hr'), hP _ _ h.1 h.2⟩
  · exact hr.2 h

theorem pure {a : α} (h : P a u) : Lowers (Pure.pure a) u False P := ⟨not_false, h⟩

theorem refuse (o : Origin) (cause : LoweringError) (P : α → Source.Features → Prop) :
    Lowers (Lowering.refuse o cause) u True P := trivial

theorem refuse_bind (o : Origin) (cause : LoweringError) (Q : β → Source.Features → Prop) :
    Lowers (Lowering.refuse o cause >>= f) u True Q := trivial

theorem bind (h : Lowers m u r P) (hf : ∀ a u', P a u' → Lowers (f a) u' q Q) : Lowers (m >>= f) u (r ∨ q) Q := by
  unfold Lowers at h ⊢
  cases hm : m u with
  | error e u' =>
    have hrun : (m >>= f) u = .error e u' := by simp [Bind.bind, EStateM.bind, hm]
    rw [hm] at h
    rw [hrun]
    exact Or.inl h
  | ok a u' =>
    have hrun : (m >>= f) u = f a u' := by simp [Bind.bind, EStateM.bind, hm]
    rw [hm] at h
    have hb := hf a u' h.2
    unfold Lowers at hb
    rw [hrun]
    split at hb
    · exact And.intro (not_or.2 ⟨h.1, hb.1⟩) hb.2
    · exact Or.inr hb

theorem useType {s : Scalar} {P : Unit → Source.Features → Prop} (h : P () (u.useType s)) :
    Lowers (Lowering.useType s) u False P := ⟨not_false, h⟩

theorem useHelper {x : Source.Helper} {P : Unit → Source.Features → Prop} (h : P () (u.useHelper x)) :
    Lowers (Lowering.useHelper x) u False P := ⟨not_false, h⟩

theorem scalarTy {s : Scalar} {P : Source.Ty → Source.Features → Prop} (h : P (.scalar s) (u.useType s)) :
    Lowers (Lowering.scalarTy s) u False P := ⟨not_false, h⟩

end Lowers

/-! ## Types, places and mathematical functions -/

variable {c : LoweringContext} {u : Source.Features}

theorem Space.qualifier_lowers (t : Target) (o : Origin) (space : Space) (s : Scalar) :
    Lowers (Lowering.ofExcept o (space.qualifier t)) u ((Ty.pointer s space).isUnknown = true) fun _ u' => u' = u := by
  cases space with
  | other q => exact .mono (.refuse o _ _) (by simp [Ty.isUnknown]) fun _ _ _ h => h
  | device | shared | own => exact .mono (.pure rfl) (by simp [Ty.isUnknown]) fun _ _ _ h => h

theorem Space.hasAtomics_of_isUnknown (space : Space) (s : Scalar) (h : (Ty.pointer s space).isUnknown = true) :
    space.hasAtomics = false := by
  cases space <;> first | rfl | cases h

theorem Space.atomicSpace_lowers (o : Origin) (space : Space) :
    Lowers (Lowering.ofExcept o space.atomicSpace) u (space.hasAtomics = false) fun _ u' => u' = u := by
  cases space with
  | own | other q => exact .mono (.refuse o _ _) (by simp [Space.hasAtomics]) fun _ _ _ h => h
  | device | shared => exact .mono (.pure rfl) (by simp [Space.hasAtomics]) fun _ _ _ h => h

/-- doubles among one recorded type are recorded -/
theorem double_recorded {l : List Scalar} {s : Scalar} (hs : l = [s]) (h : s ∈ u.types) : .f64 ∈ l → .f64 ∈ u.types := by
  rw [hs, List.mem_singleton]
  rintro rfl
  exact h

theorem Ty.toSource_lowers (c : LoweringContext) (o : Origin) (ty : Ty) :
    Lowers (ty.toSource c.target o) u (ty.isUnknown = true) fun ty' u' =>
      Accounts c u u' [] ∧ ty.elem ∈ u'.types ∧ ty'.scalar? = ty.scalar? ∧ ty'.scalars = [ty.elem] := by
  cases ty with
  | scalar s =>
    exact .mono (.scalarTy ⟨.useType c u s, by simp [Ty.elem], rfl, rfl⟩) (by simp [Ty.isUnknown]) fun _ _ _ h => h
  | pointer s space =>
    refine .mono (.bind (P := fun _ u' => u' = u.useType s) (.useType rfl) fun _ u' hu =>
      .bind (Space.qualifier_lowers c.target o space s) fun q u'' hq => .pure ?_) (by simp) fun _ _ _ h => h
    obtain rfl := hq.trans hu
    exact ⟨.useType c u s, by simp [Ty.elem], rfl, rfl⟩

/-- whether a mathematical function does not exist at a type -/
def Ty.lacks (f : Source.MathFunction) : Ty → Bool
  | scalar s => f.needsFloat && !s.isFloat
  | pointer .. => true

theorem callMath_lowers {o : Origin} {f : Source.MathFunction} {args : List Source.Expr} {ty : Ty} {ty' : Source.Ty}
    (hty : ty'.scalar? = ty.scalar?) :
    Lowers (callMath o f args ty') u (ty.lacks f = true) fun a u' =>
      ∃ x : Source.Helper, x.scalars = [ty.elem] ∧ a = x.call args ty' ∧ u' = u.useHelper x := by
  unfold callMath
  rw [hty]
  cases ty with
  | pointer s space => exact .mono (.refuse o _ _) (by simp [Ty.lacks]) fun _ _ _ h => h
  | scalar s =>
    simp only [Ty.scalar?, Ty.lacks]
    cases f.needsFloat && !s.isFloat with
    | true => exact rfl
    | false => exact ⟨Bool.false_ne_true, .math f s, rfl, rfl, rfl⟩

/-- asking about the place of a thread calls a function that is there -/
theorem place_accounts (c : LoweringContext) (p : Place) (axis : Axis) {u' : Source.Features} (h : Accounts c u u' [])
    (hi : .i64 ∈ u'.types) : Accounts c u u' (p.call c axis).nodes := by
  have hmem : p ∈ Place.all := by cases p <;> decide
  have hplace : p.function ∈ c.given := List.mem_append_left _ (List.mem_append_right _ (List.mem_map_of_mem hmem))
  have hi64 : .f64 ∈ Source.Ty.i64.scalars → .f64 ∈ u'.types := double_recorded rfl hi
  have haxis : Accounts c u u' [.int axis.index (.scalar .i32)] := by
    refine h.cons _ (fun hd => by simp [Source.Expr.ty, Source.Ty.scalars] at hd) fun _ hid => ?_
    cases hid
  unfold Place.call
  split
  · next hperm =>
    obtain ⟨hc, hgrid⟩ := Bool.and_eq_true_iff.1 hperm
    have hfn : p.function ++ "_fn" ∈ c.given := by
      refine List.mem_append_right _ ?_
      rw [if_pos hc]
      exact List.mem_map.2 ⟨p, List.mem_filter.2 ⟨hmem, hgrid⟩, rfl⟩
    have haxes (n : Name) {es : List Source.Expr} (h : Accounts c u u' es) : Accounts c u u' (.var n .i64 :: es) := by
      refine h.cons _ hi64 fun _ hid => ?_
      cases hid
    refine (haxes _ (haxes _ (haxes _ haxis))).cons _ hi64 fun id hid => ?_
    rwa [← Option.some.inj hid]
  · refine haxis.cons _ hi64 fun id hid => ?_
    rwa [← Option.some.inj hid]

/-! ## Expressions -/

namespace Expr

variable {e l r b t i : Expr} {ty : Ty} {o : Origin}

theorem refused_leaf (h : e.nodes = [e]) : e.Refused ↔ e.isRefused = true := by
  simp [Refused, h]

/-- whether an operator has a mathematical function that the type lacks, or the type is not known -/
theorem isRefused_unary {op : Unary} : (unary op e ty o).isRefused = true ↔
    ty.isUnknown = true ∨ ∃ f, op.mathFunction? = some f ∧ ty.lacks f = true := by
  cases ty <;> cases op <;>
    simp [isRefused, Unary.mathFunction?, Ty.lacks, Ty.isPointer, Ty.isFloat, Source.MathFunction.needsFloat, Ty.isUnknown,
      Expr.ty]

theorem refused_unary {op : Unary} :
    (unary op e ty o).Refused ↔ (ty.isUnknown = true ∨ ∃ f, op.mathFunction? = some f ∧ ty.lacks f = true) ∨ e.Refused := by
  rw [← isRefused_unary (e := e) (o := o)]
  simp [Refused, nodes]

theorem isRefused_binary {op : Binary} : (binary op l r ty o).isRefused = true ↔
    ty.isUnknown = true ∨ ∃ f, op.mathFunction? = some f ∧ ty.lacks f = true := by
  cases ty <;> cases op <;>
    simp [isRefused, Binary.mathFunction?, Ty.lacks, Ty.isPointer, Source.MathFunction.needsFloat, Ty.isUnknown, Expr.ty]

theorem refused_binary {op : Binary} :
    (binary op l r ty o).Refused ↔
      (ty.isUnknown = true ∨ ∃ f, op.mathFunction? = some f ∧ ty.lacks f = true) ∨ l.Refused ∨ r.Refused := by
  rw [← isRefused_binary (l := l) (r := r) (o := o)]
  simp [Refused, nodes, or_and_right, exists_or]

theorem refused_select :
    (select b t e ty o).Refused ↔ ty.isUnknown = true ∨ b.Refused ∨ t.Refused ∨ e.Refused := by
  have hnode : (select b t e ty o).isRefused = ty.isUnknown := rfl
  rw [← hnode]
  simp [Refused, nodes, or_and_right, exists_or]

theorem refused_access : (access t i ty o).Refused ↔ ty.isUnknown = true ∨ t.Refused ∨ i.Refused := by
  have hnode : (access t i ty o).isRefused = ty.isUnknown := rfl
  rw [← hnode]
  simp [Refused, nodes, or_and_right, exists_or]

theorem refused_convert : (convert e ty).Refused ↔ ty.isUnknown = true ∨ e.Refused := by
  have hnode : (convert e ty).isRefused = ty.isUnknown := rfl
  rw [← hnode]
  simp [Refused, nodes]

theorem isRefused_bitCast : (bitCast e ty).isRefused = true ↔
    ty.isUnknown = true ∨ e.ty.elem.bytes ≠ (ty.scalar?.getD e.ty.elem).bytes := by
  cases ty with
  | scalar s => simp only [isRefused, Ty.isUnknown, Ty.scalar?, Option.getD_some, decide_eq_true_eq, Bool.false_eq_true, false_or]
  | pointer s space => simp only [isRefused, Ty.scalar?, Option.getD_none, ne_eq, not_true_eq_false, or_false]; rfl

theorem refused_bitCast : (bitCast e ty).Refused ↔
    (ty.isUnknown = true ∨ e.ty.elem.bytes ≠ (ty.scalar?.getD e.ty.elem).bytes) ∨ e.Refused := by
  rw [← isRefused_bitCast]
  simp [Refused, nodes]

/-- an expression has text exactly if no node is refused; then what is recorded is what the text uses -/
theorem toSource_lowers (c : LoweringContext) (e : Expr) (u : Source.Features) :
    Lowers (e.toSource c) u e.Refused fun a u' => Accounts c u u' a.nodes ∧ e.ty.elem ∈ u'.types := by
  induction e generalizing u with
  | var n ty o | bool b ty o | int v ty o | float b ty o =>
    refine .mono (.bind (Ty.toSource_lowers c o ty) fun ty' u₁ ⟨ha, hmem, _, hs⟩ => .pure ?_)
      ((refused_leaf rfl).trans (by simp [isRefused, Expr.ty])) fun _ _ _ h => h
    exact ⟨ha.cons _ (double_recorded hs hmem) nofun, hmem⟩
  | unary op e ty o ih =>
    rw [toSource]
    cases hf : op.mathFunction? with
    | none =>
      refine .mono (.bind (Ty.toSource_lowers c o ty) fun ty' u₁ ⟨ha, hmem, _, hs⟩ => .bind (ih u₁)
        fun e' u₂ ⟨he, _⟩ => .pure ?_) (refused_unary.trans (by simp [hf])) fun _ _ _ h => h
      exact ⟨(ha.append he).cons _ (double_recorded hs (he.types hmem)) nofun, he.types hmem⟩
    | some f =>
      refine .mono (.bind (Ty.toSource_lowers c o ty) fun ty' u₁ ⟨ha, hmem, hsc, hs⟩ => .bind (ih u₁)
        fun e' u₂ ⟨he, _⟩ => .mono (callMath_lowers hsc) Iff.rfl ?_) (refused_unary.trans ?_) fun _ _ _ h => h
      · rintro _ _ - ⟨x, hx, rfl, rfl⟩
        have hargs : Accounts c u u₂ (Source.nodesAll [e']) := (ha.append he).congr (by simp [Source.nodesAll])
        exact ⟨hargs.thenCall (double_recorded hx (he.types hmem)) (double_recorded hs (he.types hmem)), he.types hmem⟩
      · simp only [hf, Option.some.injEq, exists_eq_left']
        tauto
  | binary op l r ty o ihl ihr =>
    rw [toSource]
    cases hf : op.mathFunction? with
    | none =>
      refine .mono (.bind (Ty.toSource_lowers c o ty) fun ty' u₁ ⟨ha, hmem, _, hs⟩ => .bind (ihl u₁)
        fun l' u₂ ⟨hl, _⟩ => .bind (ihr u₂) fun r' u₃ ⟨hr, _⟩ => .pure ?_) (refused_binary.trans (by simp [hf])) fun _ _ _ h => h
      have hmem₃ := hr.types (hl.types hmem)
      exact ⟨((ha.append hl).append hr).cons _ (double_recorded hs hmem₃) nofun, hmem₃⟩
    | some f =>
      refine .mono (.bind (Ty.toSource_lowers c o ty) fun ty' u₁ ⟨ha, hmem, hsc, hs⟩ => .bind (ihl u₁)
        fun l' u₂ ⟨hl, _⟩ => .bind (ihr u₂) fun r' u₃ ⟨hr, _⟩ => .mono (callMath_lowers hsc) Iff.rfl ?_)
        (refused_binary.trans ?_) fun _ _ _ h => h
      · rintro _ _ - ⟨x, hx, rfl, rfl⟩
        have hmem₃ := hr.types (hl.types hmem)
        have hargs : Accounts c u u₃ (Source.nodesAll [l', r']) :=
          ((ha.append hl).append hr).congr (by simp [Source.nodesAll])
        exact ⟨hargs.thenCall (double_recorded hx hmem₃) (double_recorded hs hmem₃), hmem₃⟩
      · simp only [hf, Option.some.injEq, exists_eq_left']
        tauto
  | select b t e ty o ihb iht ihe =>
    refine .mono (.bind (Ty.toSource_lowers c o ty) fun ty' u₁ ⟨ha, hmem, _, hs⟩ => .bind (ihb u₁)
      fun b' u₂ ⟨hb, _⟩ => .bind (iht u₂) fun t' u₃ ⟨ht, _⟩ => .bind (ihe u₃) fun e' u₄ ⟨he, _⟩ => .pure ?_)
      (refused_select.trans (by simp)) fun _ _ _ h => h
    have hmem₄ := he.types (ht.types (hb.types hmem))
    exact ⟨(ha.append (hb.append (ht.append he))).cons _ (double_recorded hs hmem₄) nofun, hmem₄⟩
  | access t i ty o iht ihi =>
    refine .mono (.bind (Ty.toSource_lowers c o ty) fun ty' u₁ ⟨ha, hmem, _, hs⟩ => .bind (iht u₁)
      fun t' u₂ ⟨ht, _⟩ => .bind (ihi u₂) fun i' u₃ ⟨hi, _⟩ => .pure ?_) (refused_access.trans (by simp)) fun _ _ _ h => h
    have hmem₃ := hi.types (ht.types hmem)
    exact ⟨(ha.append (ht.append hi)).cons _ (double_recorded hs hmem₃) nofun, hmem₃⟩
  | convert e ty ih =>
    refine .mono (.bind (Ty.toSource_lowers c e.origin ty) fun ty' u₁ ⟨ha, hmem, _, hs⟩ => .bind (ih u₁)
      fun e' u₂ ⟨he, _⟩ => .pure ?_) (refused_convert.trans (by simp)) fun _ _ _ h => h
    exact ⟨(ha.append he).cons _ (double_recorded hs (he.types hmem)) nofun, he.types hmem⟩
  | bitCast e ty ih =>
    refine .mono (.bind (Ty.toSource_lowers c e.origin ty) fun ty' u₁ ⟨ha, hmem, hsc, hs⟩ => ?_)
      (refused_bitCast.trans or_assoc) fun _ _ _ h => h
    rw [hsc]
    by_cases hb : e.ty.elem.bytes = (ty.scalar?.getD e.ty.elem).bytes
    · rw [if_neg (not_not.2 hb)]
      refine .mono (.bind (ih u₁) fun e' u₂ ⟨he, hmem'⟩ => .bind (P := fun _ u₃ =>
        u₃ = u₂.useHelper (.bitCast e.ty.elem (ty.scalar?.getD e.ty.elem))) (.useHelper rfl) fun _ u₃ hu₃ => .pure ?_)
        (by simp [hb]) fun _ _ _ h => h
      subst hu₃
      have hargs : Accounts c u u₂ (Source.nodesAll [e']) := (ha.append he).congr (by simp [Source.nodesAll])
      refine ⟨hargs.thenCall (fun hd => ?_) (double_recorded hs (he.types hmem)), he.types hmem⟩
      rcases List.mem_cons.1 hd with hd | hd
      · exact hd ▸ hmem'
      · cases ty with
        | scalar s => exact List.mem_singleton.1 hd ▸ he.types hmem
        | pointer s space => exact List.mem_singleton.1 hd ▸ hmem'
    · rw [if_pos hb]
      exact .mono (.refuse_bind _ _ fun _ _ => True) (by simp [hb]) fun _ _ h _ => absurd trivial h
  | place p axis o =>
    refine .mono (.bind (P := fun _ u' => u' = u.useType .i64) (.useType rfl) fun _ u' hu => .pure ?_)
      ((refused_leaf rfl).trans (by simp [isRefused, Expr.ty, Ty.i64, Ty.isUnknown])) fun _ _ _ h => h
    subst hu
    exact ⟨place_accounts c p axis (.useType c u .i64) (by simp), by simp [Expr.ty, Ty.i64, Ty.elem]⟩
  | size id o =>
    exact .mono (.bind (P := fun _ _ => True) (.useType trivial) fun _ _ _ => .refuse o _ _)
      ((refused_leaf rfl).trans (by simp [isRefused])) fun _ _ _ h => h
  | capability q o =>
    exact .mono (.bind (P := fun _ _ => True) (.useType trivial) fun _ _ _ => .refuse o _ _)
      ((refused_leaf rfl).trans (by simp [isRefused])) fun _ _ _ h => h

end Expr

/-! ## Elements in memory -/

theorem addressOfElement_lowers (c : LoweringContext) (space : Space) (s : Scalar) (target : Name) (idx : Expr) (o : Origin) :
    Lowers (addressOfElement c space s target idx o) u ((Ty.pointer s space).isUnknown = true ∨ idx.Refused) fun a u' =>
      Accounts c u u' a.nodes ∧ s ∈ u'.types := by
  refine .mono (.bind (Space.qualifier_lowers c.target o space s) fun q u₁ hu₁ => .bind (idx.toSource_lowers c u₁)
    fun i u₂ ⟨hi, _⟩ => .bind (P := fun ty u₃ => ty = .scalar s ∧ u₃ = u₂.useType s) (.scalarTy ⟨rfl, rfl⟩)
      fun ty u₃ ⟨hty, hu₃⟩ => .pure ?_) (by simp) fun _ _ _ h => h
  subst hu₁ hty hu₃
  have hs : s ∈ (u₂.useType s).types := by simp
  have hptr : .f64 ∈ (Source.Ty.pointer s q).scalars → .f64 ∈ (u₂.useType s).types := double_recorded rfl hs
  have hidx : Accounts c u₁ (u₂.useType s) i.nodes := (hi.append (.useType c u₂ s)).congr (by simp)
  have helem := (hidx.cons (.var target (.pointer s q)) hptr nofun).cons (.access (.var target (.pointer s q)) i (.scalar s))
    (double_recorded rfl hs) nofun
  exact ⟨helem.cons (.addressOf _ (.pointer s q)) hptr nofun, hs⟩

theorem Scalar.bitPattern_ne_f64 (s : Scalar) : s.bitPattern ≠ .f64 := by
  cases s <;> decide

theorem addressAs_accounts {u' : Source.Features} {e : Source.Expr} (h : Accounts c u u' e.nodes) (s : Scalar) :
    Accounts c u u' (addressAs s.bitPattern e).nodes := by
  by_cases hne : e.ty = e.ty.withElem s.bitPattern
  · rw [addressAs, if_pos hne]
    exact h
  · rw [addressAs, if_neg hne]
    refine h.cons (.convert e _) (fun hd => ?_) nofun
    change .f64 ∈ (e.ty.withElem s.bitPattern).scalars at hd
    cases hty : e.ty with
    | void => simp [hty, Source.Ty.withElem] at hne
    | scalar t => simp [hty, Source.Ty.withElem] at hne
    | pointer t q =>
      rw [hty] at hd
      exact absurd (List.mem_singleton.1 hd).symm s.bitPattern_ne_f64

/-! ## Statements -/

/-- whether there is no text for some node of a statement -/
def Stmt.Refused (s : Stmt) : Prop := ∃ x ∈ s.nodes, x.RefusedHere

theorem blockRefused_nil : BlockRefused [] ↔ False := by
  simp [BlockRefused, blockNodes]

theorem blockRefused_cons (s : Stmt) (l : List Stmt) : BlockRefused (s :: l) ↔ s.Refused ∨ BlockRefused l := by
  simp [BlockRefused, Stmt.Refused, blockNodes, or_and_right, exists_or]

namespace Stmt

variable {ty : Ty} {n : Name} {e e' dst cond init incr idx value cmp new : Expr} {o : Origin} {body thn els : List Stmt}

theorem refused_leaf {s : Stmt} (h : s.nodes = [s]) : s.Refused ↔ s.isRefused = true ∨ ∃ e ∈ s.exprs, e.Refused := by
  simp [Refused, h, RefusedHere]

theorem refused_define : (define ty n e o).Refused ↔ ty.isUnknown = true ∨ e.Refused := by
  rw [refused_leaf (by simp [nodes])]
  simp [isRefused, exprs, foldExprs]

theorem refused_assign : (assign dst e o).Refused ↔ dst.Refused ∨ e.Refused := by
  rw [refused_leaf (by simp [nodes])]
  simp [isRefused, isHostOnly, exprs, foldExprs]

theorem refused_forLoop : (forLoop ty n init cond incr body o).Refused ↔
    ty.isUnknown = true ∨ init.Refused ∨ cond.Refused ∨ incr.Refused ∨ BlockRefused body := by
  simp [Refused, nodes, RefusedHere, isRefused, exprs, foldExprs, BlockRefused, or_assoc]

theorem refused_ifElse : (ifElse cond thn els o).Refused ↔ cond.Refused ∨ BlockRefused thn ∨ BlockRefused els := by
  simp [Refused, nodes, RefusedHere, isRefused, isHostOnly, exprs, foldExprs, BlockRefused, or_and_right, exists_or]

theorem refused_whileLoop : (whileLoop cond body o).Refused ↔ cond.Refused ∨ BlockRefused body := by
  simp [Refused, nodes, RefusedHere, isRefused, isHostOnly, exprs, foldExprs, BlockRefused]

theorem refused_scope : (scope body o).Refused ↔ BlockRefused body := by
  simp [Refused, nodes, RefusedHere, isRefused, isHostOnly, exprs, foldExprs, BlockRefused]

theorem refused_barrier {sc : BarrierScope} : (barrier sc o).Refused ↔ False := by
  rw [refused_leaf (by simp [nodes])]
  simp [isRefused, isHostOnly, exprs, foldExprs]

theorem refused_fence {space : Space} : (fence space o).Refused ↔ space.hasAtomics = false := by
  rw [refused_leaf (by simp [nodes])]
  simp [isRefused, exprs, foldExprs]

theorem refused_atomic {op : Atomic} {space : Space} {s : Scalar} {old : Option Name} :
    (atomic op space s n idx value old o).Refused ↔ space.hasAtomics = false ∨ idx.Refused ∨ value.Refused := by
  rw [refused_leaf (by simp [nodes])]
  simp [isRefused, exprs, foldExprs]

theorem refused_compareSwap {space : Space} {s : Scalar} {old : Name} : (compareSwap old space s n idx cmp new o).Refused ↔
    space.hasAtomics = false ∨ idx.Refused ∨ cmp.Refused ∨ new.Refused := by
  rw [refused_leaf (by simp [nodes])]
  simp [isRefused, exprs, foldExprs]

theorem self_mem_nodes (s : Stmt) : s ∈ s.nodes := by
  cases s <;> simp [nodes]

theorem refused_of_isHostOnly {s : Stmt} (h : s.isHostOnly = true) : s.Refused := by
  refine ⟨s, s.self_mem_nodes, .inl ?_⟩
  cases s <;> first | exact h | cases h

end Stmt

/-- what was recorded is what statements use, given the expressions in them and the element types that they declare -/
def AccountsStmts (c : LoweringContext) (u u' : Source.Features) (es : List Source.Expr) (declared : List Scalar) : Prop :=
  Accounts c u u' es ∧ (.f64 ∈ declared → .f64 ∈ u'.types)

namespace AccountsStmts

variable {u' u'' : Source.Features} {es es' : List Source.Expr} {ds ds' : List Scalar}

theorem append (h : AccountsStmts c u u' es ds) (h' : AccountsStmts c u' u'' es' ds') :
    AccountsStmts c u u'' (es ++ es') (ds ++ ds') :=
  ⟨h.1.append h'.1, fun hd => (List.mem_append.1 hd).elim (fun hd => h'.1.types (h.2 hd)) h'.2⟩

/-- statements after expressions -/
theorem after (h' : AccountsStmts c u' u'' es' ds) (h : Accounts c u u' es) : AccountsStmts c u u'' (es ++ es') ds :=
  ⟨h.append h'.1, h'.2⟩

end AccountsStmts

theorem Accounts.toStmts {u' : Source.Features} {es : List Source.Expr} (h : Accounts c u u' es) : AccountsStmts c u u' es [] :=
  ⟨h, fun hd => absurd hd List.not_mem_nil⟩

theorem Accounts.declaring {u' : Source.Features} {es : List Source.Expr} {ds : List Scalar} {s : Scalar}
    (h : Accounts c u u' es) (hs : ds = [s]) (hmem : s ∈ u'.types) : AccountsStmts c u u' es ds :=
  ⟨h, double_recorded hs hmem⟩

theorem hostOnly_lowers {s : Stmt} (h : s.isHostOnly = true) {P : Source.Stmt → Source.Features → Prop} :
    Lowers (s.toSource c) u s.Refused P := by
  have hr : s.Refused ↔ True := iff_true_intro (Stmt.refused_of_isHostOnly h)
  cases s <;> first
    | (rw [Stmt.toSource]; exact .mono (.refuse _ _ _) hr fun _ _ _ h => h)
    | cases h

theorem bindResult_accounts {u' : Source.Features} {s : Scalar} {e : Source.Expr} (h : Accounts c u u' e.nodes)
    (hs : s ∈ u'.types) (old : Option Name) :
    AccountsStmts c u u' (bindResult (.scalar s) old e).nodes (bindResult (.scalar s) old e).declared := by
  cases old with
  | none => exact h.toStmts
  | some n => exact h.declaring rfl hs

mutual

/-- a statement has text exactly if no node is refused; then what is recorded is what the text uses -/
theorem Stmt.toSource_lowers (c : LoweringContext) (u : Source.Features) : (s : Stmt) →
    Lowers (s.toSource c) u s.Refused fun a u' => AccountsStmts c u u' a.nodes a.declared
  | .define ty n e o => by
    rw [Stmt.toSource]
    refine .mono (.bind (Ty.toSource_lowers c o ty) fun ty' u₁ ⟨ha, hmem, _, hs⟩ => .bind (e.toSource_lowers c u₁)
      fun e' u₂ ⟨he, _⟩ => .pure ?_) (Stmt.refused_define.trans (by simp)) fun _ _ _ h => h
    exact (ha.append he).declaring hs (he.types hmem)
  | .assign dst e o => by
    rw [Stmt.toSource]
    refine .mono (.bind (dst.toSource_lowers c u) fun d u₁ ⟨hd, _⟩ => .bind (e.toSource_lowers c u₁)
      fun e' u₂ ⟨he, _⟩ => .pure ?_) (Stmt.refused_assign.trans (by simp)) fun _ _ _ h => h
    exact (hd.append he).toStmts
  | .forLoop ty n init cond incr body o => by
    rw [Stmt.toSource]
    refine .mono (.bind (Ty.toSource_lowers c o ty) fun ty' u₁ ⟨ha, hmem, _, hs⟩ => .bind (init.toSource_lowers c u₁)
      fun i' u₂ ⟨hi, _⟩ => .bind (cond.toSource_lowers c u₂) fun c' u₃ ⟨hc, _⟩ => .bind (incr.toSource_lowers c u₃)
      fun n' u₄ ⟨hn, _⟩ => .bind (blockToSource_lowers c u₄ body) fun b' u₅ hb => .pure ?_)
      (Stmt.refused_forLoop.trans (by simp)) fun _ _ _ h => h
    have hhead := (ha.append (hi.append (hc.append hn))).declaring hs (hn.types (hc.types (hi.types hmem)))
    have h := hhead.append hb
    simpa only [Source.Stmt.nodes, Source.Stmt.declared, List.append_assoc, List.nil_append] using h
  | .ifElse cond thn els o => by
    rw [Stmt.toSource]
    refine .mono (.bind (cond.toSource_lowers c u) fun b u₁ ⟨hb, _⟩ => .bind (blockToSource_lowers c u₁ thn)
      fun t u₂ ht => .bind (blockToSource_lowers c u₂ els) fun e u₃ he => .pure ?_)
      (Stmt.refused_ifElse.trans (by simp)) fun _ _ _ h => h
    exact (ht.append he).after hb
  | .whileLoop cond body o => by
    rw [Stmt.toSource]
    refine .mono (.bind (cond.toSource_lowers c u) fun b u₁ ⟨hb, _⟩ => .bind (blockToSource_lowers c u₁ body)
      fun t u₂ ht => .pure ?_) (Stmt.refused_whileLoop.trans (by simp)) fun _ _ _ h => h
    exact ht.after hb
  | .scope body o => by
    rw [Stmt.toSource]
    refine .mono (.bind (blockToSource_lowers c u body) fun t u₁ ht => .pure ?_)
      (Stmt.refused_scope.trans (by simp)) fun _ _ _ h => h
    exact ht
  | .barrier sc o => by
    rw [Stmt.toSource]
    refine .mono (.pure ?_) Stmt.refused_barrier fun _ _ _ h => h
    exact (Accounts.given (.refl c u) (by cases sc <;> simp [BarrierScope.function, LoweringContext.given])).toStmts
  | .fence space o => by
    rw [Stmt.toSource]
    refine .mono (.bind (Space.atomicSpace_lowers o space) fun sp u₁ hu => .pure ?_)
      (Stmt.refused_fence.trans (by simp)) fun _ _ _ h => h
    subst hu
    exact (Accounts.given (.refl c u₁)
      (by cases sp <;> simp [Source.AtomicSpace.fenceFunction, LoweringContext.given])).toStmts
  | .atomic op space s target idx value old o => by
    rw [Stmt.toSource]
    refine .mono (.bind (Space.atomicSpace_lowers o space) fun sp u₁ hu₁ => .bind (P := fun _ u₂ =>
      u₂ = u₁.useHelper (.atomic (.update op) s sp)) (.useHelper rfl) fun _ u₂ hu₂ => .bind
      (addressOfElement_lowers c space s target idx o) fun addr u₃ ⟨ha, hs⟩ => .bind (value.toSource_lowers c u₃)
      fun v u₄ ⟨hv, _⟩ => .bind (P := fun ty u₅ => ty = .scalar s ∧ u₅ = u₄.useType s) (.scalarTy ⟨rfl, rfl⟩)
      fun ty u₅ ⟨hty, hu₅⟩ => .pure ?_) (Stmt.refused_atomic.trans ?_) fun _ _ _ h => h
    · subst hu₁ hu₂ hty hu₅
      have hargs : Accounts c (u₁.useHelper (.atomic (.update op) s sp)) (u₄.useType s) (Source.nodesAll [addr, v]) :=
        ((ha.append hv).append (.useType c u₄ s)).congr (by simp [Source.nodesAll])
      have hmem : s ∈ (u₄.useType s).types := by simp
      exact bindResult_accounts (hargs.call (double_recorded rfl hmem) (double_recorded rfl hmem)) hmem old
    · have := space.hasAtomics_of_isUnknown s
      tauto
  | .compareSwap old space s target idx cmp new o => by
    rw [Stmt.toSource]
    refine .mono (.bind (Space.atomicSpace_lowers o space) fun sp u₁ hu₁ => .bind (P := fun _ u₂ =>
      u₂ = u₁.useHelper (.atomic .compareSwap s.bitPattern sp)) (.useHelper rfl) fun _ u₂ hu₂ => .bind
      (addressOfElement_lowers c space s target idx o) fun addr u₃ ⟨ha, hs⟩ => .bind (cmp.toSource_lowers c u₃)
      fun v u₄ ⟨hv, _⟩ => .bind (new.toSource_lowers c u₄) fun w u₅ ⟨hw, _⟩ => .bind (P := fun ty u₆ =>
        ty = .scalar s.bitPattern ∧ u₆ = u₅.useType s.bitPattern) (.scalarTy ⟨rfl, rfl⟩)
      fun ty u₆ ⟨hty, hu₆⟩ => .pure ?_) (Stmt.refused_compareSwap.trans ?_) fun _ _ _ h => h
    · subst hu₁ hu₂ hty hu₆
      have hargs : Accounts c (u₁.useHelper (.atomic .compareSwap s.bitPattern sp)) (u₅.useType s.bitPattern)
          (Source.nodesAll [addressAs s.bitPattern addr, v, w]) :=
        (((addressAs_accounts ha s).append (hv.append hw)).append (.useType c u₅ s.bitPattern)).congr
          (by simp [Source.nodesAll])
      have hmem : s.bitPattern ∈ (u₅.useType s.bitPattern).types := by simp
      exact bindResult_accounts (hargs.call (double_recorded rfl hmem) (double_recorded rfl hmem)) hmem (some old)
    · have := space.hasAtomics_of_isUnknown s
      tauto
  | .alloc .. | .free .. | .copy .. | .fill .. | .rebind .. | .table .. | .launch .. => hostOnly_lowers rfl

/-- statements have text exactly if no node is refused; then what is recorded is what the text uses -/
theorem blockToSource_lowers (c : LoweringContext) (u : Source.Features) : (l : List Stmt) →
    Lowers (blockToSource c l) u (BlockRefused l) fun b u' =>
      AccountsStmts c u u' (Source.blockExprs b) (Source.blockDeclared b)
  | [] => by
    rw [blockToSource]
    exact .mono (.pure (Accounts.refl c u).toStmts) blockRefused_nil fun _ _ _ h => h
  | s :: rest => by
    rw [blockToSource]
    refine .mono (.bind (Stmt.toSource_lowers c u s) fun t u₁ ht => .bind (blockToSource_lowers c u₁ rest)
      fun b u₂ hb => .pure ?_) ((blockRefused_cons s rest).trans (by simp)) fun _ _ _ h => h
    exact ht.append hb

end

/-! ## Kernels -/

namespace Source

theorem blockExprs_append (a b : List Stmt) : blockExprs (a ++ b) = blockExprs a ++ blockExprs b := by
  induction a with
  | nil => rw [blockExprs, List.nil_append, List.nil_append]
  | cons s a ih => rw [List.cons_append, blockExprs, blockExprs, ih, List.append_assoc]

theorem blockDeclared_append (a b : List Stmt) : blockDeclared (a ++ b) = blockDeclared a ++ blockDeclared b := by
  induction a with
  | nil => rw [blockDeclared, List.nil_append, List.nil_append]
  | cons s a ih => rw [List.cons_append, blockDeclared, blockDeclared, ih, List.append_assoc]

/-- all expressions in a kernel -/
def Kernel.exprs (k : Kernel) : List Expr := blockExprs k.body

/-- the element types that a kernel declares parameters and variables with -/
def Kernel.declared (k : Kernel) : List Scalar := k.params.flatMap (·.ty.scalars) ++ blockDeclared k.body

end Source

theorem paramToSource_lowers (c : LoweringContext) (o : Origin) (p : Name × Ty) :
    Lowers (paramToSource c.target o p) u (p.2.isUnknown = true) fun q u' =>
      Accounts c u u' [] ∧ q.name = p.1 ∧ (.f64 ∈ q.ty.scalars → .f64 ∈ u'.types) := by
  unfold paramToSource
  refine .mono (.bind (q := False) (Ty.toSource_lowers c o p.2) fun ty u₁ ⟨ha, hmem, _, hs⟩ => ?_) (by simp) fun _ _ _ h => h
  split
  · refine .mono (.bind (P := fun ty u₂ => ty = .scalar .i8 ∧ u₂ = u₁.useType .i8) (.scalarTy ⟨rfl, rfl⟩)
      fun ty u₂ ⟨hty, hu⟩ => .pure ?_) (by simp) fun _ _ _ h => h
    subst hty hu
    exact ⟨ha.append (.useType c u₁ .i8), rfl, fun hd => by simp [Source.Ty.scalars] at hd⟩
  · exact .pure ⟨ha, rfl, double_recorded hs hmem⟩

theorem params_lowers (c : LoweringContext) (o : Origin) (l : List (Name × Ty)) (u : Source.Features) :
    Lowers (l.mapM (paramToSource c.target o)) u (∃ p ∈ l, p.2.isUnknown = true) fun qs u' =>
      AccountsStmts c u u' [] (qs.flatMap (·.ty.scalars)) ∧ qs.map (·.name) = l.map (·.1) := by
  induction l generalizing u with
  | nil =>
    rw [List.mapM_nil]
    exact .mono (.pure ⟨(Accounts.refl c u).toStmts, rfl⟩) (by simp) fun _ _ _ h => h
  | cons p l ih =>
    rw [List.mapM_cons]
    refine .mono (.bind (paramToSource_lowers c o p) fun q u₁ ⟨ha, hq, hd⟩ => .bind (ih u₁) fun qs u₂ ⟨hqs, hnames⟩ =>
      .pure ?_) (by simp) fun _ _ _ h => h
    exact ⟨AccountsStmts.append ⟨ha, hd⟩ hqs, by rw [List.map_cons, List.map_cons, hq, hnames]⟩

theorem useTypes_lowers (c : LoweringContext) (l : List Scalar) (u : Source.Features) :
    Lowers (l.forM Lowering.useType) u False fun _ u' => Accounts c u u' [] ∧ l ⊆ u'.types := by
  induction l generalizing u with
  | nil => exact .pure ⟨.refl c u, List.nil_subset _⟩
  | cons s l ih =>
    refine .mono (.bind (P := fun _ u' => u' = u.useType s) (.useType rfl) fun _ u₁ hu => .mono (ih u₁) Iff.rfl
      fun _ u₂ _ ⟨ha, hl⟩ => ?_) (by simp) fun _ _ _ h => h
    subst hu
    exact ⟨(Accounts.useType c u s).append ha, List.cons_subset.2 ⟨ha.types (by simp), hl⟩⟩

namespace LocalBlock

theorem elem_mem_types (t : Target) (b : LocalBlock) : b.elem ∈ b.types t := by
  unfold types
  split <;> exact List.mem_cons_self ..

theorem declaration_accounts {t : Target} {b : LocalBlock} (hb : b.elem ∈ u.types) {s : Source.Stmt}
    (hs : b.declaration? t = some s) : AccountsStmts c u u s.nodes s.declared := by
  unfold declaration? at hs
  split at hs <;> cases hs
  · exact (Accounts.refl c u).declaring rfl hb
  · exact (Accounts.refl c u).declaring rfl hb
  · have hd : .f64 ∈ [b.elem] → .f64 ∈ u.types := double_recorded rfl hb
    have hbytes : .f64 ∈ [Scalar.u8] → .f64 ∈ u.types := fun h => absurd h (by decide)
    have hoffset : .f64 ∈ [Scalar.i64] → .f64 ∈ u.types := fun h => absurd h (by decide)
    have hplace := (((Accounts.refl c u).cons (.var (offsetName b.name) .i64) hoffset nofun).cons
      (.var sharedBytes (.pointer .u8 .unqualified)) hbytes nofun).cons
      (.access (.var sharedBytes (.pointer .u8 .unqualified)) (.var (offsetName b.name) .i64) (.scalar .u8)) hbytes nofun
    exact ⟨(hplace.cons (.addressOf _ (.pointer .u8 .unqualified)) hbytes nofun).cons
      (.convert _ (.pointer b.elem .unqualified)) hd nofun, hd⟩

/-- the declarations of local memory call nothing, and declare the element types of the blocks -/
theorem declarations_accounts (t : Target) (blocks : List LocalBlock) (hmem : ∀ b ∈ blocks, b.elem ∈ u.types) :
    AccountsStmts c u u (Source.blockExprs (declarations t blocks)) (Source.blockDeclared (declarations t blocks)) := by
  have hall : AccountsStmts c u u (Source.blockExprs (blocks.filterMap (·.declaration? t)))
      (Source.blockDeclared (blocks.filterMap (·.declaration? t))) := by
    induction blocks with
    | nil => exact (Accounts.refl c u).toStmts
    | cons b l ih =>
      have hrest := ih fun x hx => hmem x (List.mem_cons_of_mem b hx)
      rw [List.filterMap_cons]
      split
      · exact hrest
      · next s hs => exact (declaration_accounts (hmem b (List.mem_cons_self ..)) hs).append hrest
  unfold declarations
  split
  · exact (Accounts.refl c u).toStmts.append hall
  · exact hall

end LocalBlock

/-- the parameters that blocks of local memory need have recorded types -/
theorem LocalBlock.param_recorded {t : Target} {b : LocalBlock} (hb : b.elem ∈ u.types) {p : Source.Param}
    (hp : b.param? t = some p) : .f64 ∈ p.ty.scalars → .f64 ∈ u.types := by
  unfold param? at hp
  split at hp <;> cases hp
  · exact double_recorded rfl hb
  · exact fun h => absurd (List.mem_singleton.1 h) nofun

/-- the names of the parameters of a kernel: the captured variables, what blocks of local memory need, and the axes if they
are exchanged -/
def Kernel.paramNames (k : Kernel) (t : Target) : List Name :=
  k.captures.map (·.1) ++ (k.blocks.filterMap (·.param? t)).map (·.name) ++ if t.permutes k.dims then axisParams else []

/-- the parameters, local memory and body of a kernel -/
theorem Kernel.parts_lowers (c : LoweringContext) (k : Kernel) (u : Source.Features) (hc : c.permuted = c.target.permutes k.dims) :
    Lowers (do
      let params ← k.captures.mapM (paramToSource c.target k.origin)
      (k.blocks.flatMap (·.types c.target)).forM Lowering.useType
      let body ← blockToSource c k.body
      return ({
        target := c.target
        name := k.name
        params := params ++ k.blocks.filterMap (·.param? c.target)
          ++ (if c.permuted then axisParams.map fun n => ⟨n, .i64⟩ else [])
        body := LocalBlock.declarations c.target k.blocks ++ body } : Source.Kernel)) u k.Refused fun κ u' =>
      κ.params.map (·.name) = k.paramNames c.target ∧ AccountsStmts c u u' κ.exprs κ.declared := by
  refine .mono (.bind (params_lowers c k.origin k.captures u) fun params u₁ ⟨hp, hnames⟩ => .bind (useTypes_lowers c _ u₁)
    fun _ u₂ ⟨ha, htypes⟩ => .bind (blockToSource_lowers c u₂ k.body) fun body u₃ hbody => .pure ?_)
    (by simp [Kernel.Refused]) fun _ _ _ h => h
  have hmem (b : LocalBlock) (hb : b ∈ k.blocks) : b.elem ∈ u₂.types :=
    htypes (List.mem_flatMap.2 ⟨b, hb, b.elem_mem_types c.target⟩)
  have hdecls : AccountsStmts c u₂ u₂ _ _ := LocalBlock.declarations_accounts c.target k.blocks hmem
  have hall := (hdecls.append hbody).after ha
  rw [List.nil_append, ← Source.blockExprs_append, ← Source.blockDeclared_append] at hall
  refine ⟨?_, hp.1.append hall.1, fun hd => ?_⟩
  · rw [List.map_append, List.map_append, hnames, Kernel.paramNames, ← hc]
    split <;> rfl
  · simp only [Source.Kernel.declared, List.flatMap_append, List.mem_append] at hd
    rcases hd with ((hd | hd) | hd) | hd
    · exact hall.1.types (hp.2 hd)
    · obtain ⟨p, hp, hd⟩ := List.mem_flatMap.1 hd
      obtain ⟨b, hb, hp⟩ := List.mem_filterMap.1 hp
      exact hbody.1.types (LocalBlock.param_recorded (hmem b hb) hp hd)
    · split at hd
      · simp [axisParams, Source.Ty.i64, Source.Ty.scalars] at hd
      · cases hd
    · exact hall.2 hd

/-- a kernel has text exactly if no part of it is refused; then its parameters have the names that they should have, and what
is recorded is what its text uses -/
theorem Kernel.toSource_lowers (t : Target) (k : Kernel) (u : Source.Features) :
    Lowers (k.toSource t) u k.Refused fun κ u' =>
      κ.params.map (·.name) = k.paramNames t ∧
        AccountsStmts ⟨t, t.permutes k.dims⟩ { u with permuted := u.permuted || t.permutes k.dims } u' κ.exprs κ.declared := by
  have hparts := k.parts_lowers ⟨t, t.permutes k.dims⟩ { u with permuted := u.permuted || t.permutes k.dims } rfl
  unfold Kernel.toSource
  dsimp only at hparts ⊢
  split
  · next hperm =>
    refine .mono (.bind (P := fun _ u' => u' = { u with permuted := u.permuted || t.permutes k.dims }) ⟨not_false, ?_⟩ ?_)
      (false_or k.Refused).to_iff.symm fun _ _ _ h => h
    · rw [hperm, Bool.or_true]
    · rintro _ _ rfl
      simpa only [if_pos hperm] using hparts
  · next hperm =>
    simpa only [hperm, Bool.or_false, Bool.false_eq_true, if_false] using hparts

/-- what was recorded is what the texts of kernels use -/
structure AccountsKernels (t : Target) (u u' : Source.Features) (ks : List Kernel) (κs : List Source.Kernel) : Prop where
  permuted : u'.permuted = (u.permuted || ks.any fun k => t.permutes k.dims)
  types : u.types ⊆ u'.types
  helpers : u.helpers ⊆ u'.helpers
  doubles : ∀ κ ∈ κs, (∃ e ∈ κ.exprs, .f64 ∈ e.ty.scalars) ∨ .f64 ∈ κ.declared → .f64 ∈ u'.types
  helperDoubles : ∀ h ∈ u'.helpers, h ∈ u.helpers ∨ (.f64 ∈ h.scalars → .f64 ∈ u'.types)
  provided : ∀ κ ∈ κs, ∀ e ∈ κ.exprs, ∀ id, e.callee? = some id →
    id ∈ LoweringContext.given ⟨t, u'.permuted⟩ ∨ ∃ h ∈ u'.helpers, h.name = id
  called : ∀ h ∈ u'.helpers, h ∈ u.helpers ∨ ∃ κ ∈ κs, ∃ e ∈ κ.exprs, e.callee? = some h.name

theorem LoweringContext.given_mono {t : Target} {p p' : Bool} (h : p = true → p' = true) {id : String}
    (hid : id ∈ given ⟨t, p⟩) : id ∈ given ⟨t, p'⟩ := by
  refine List.mem_append.2 ((List.mem_append.1 hid).imp_right fun hid => ?_)
  split at hid
  · next hp => rwa [if_pos (h hp)]
  · cases hid

/-- kernels have text exactly if none is refused; then what is recorded is what their texts use -/
theorem lowerAll_lowers (t : Target) (ks : List Kernel) (u : Source.Features) :
    Lowers (lowerAll t ks) u (∃ k ∈ ks, k.Refused) fun κs u' => AccountsKernels t u u' ks κs := by
  induction ks generalizing u with
  | nil =>
    refine .mono (.pure ?_) (by simp) fun _ _ _ h => h
    exact ⟨by simp, List.Subset.refl _, List.Subset.refl _, fun _ h => absurd h List.not_mem_nil, fun _ h => .inl h,
      fun _ h => absurd h List.not_mem_nil, fun _ h => .inl h⟩
  | cons k ks ih =>
    unfold lowerAll at ih ⊢
    rw [List.mapM_cons]
    refine .mono (.bind (k.toSource_lowers t u) fun κ u₁ ⟨_, hκ, hdecl⟩ => .bind (ih u₁) fun κs u₂ hκs => .pure ?_)
      (by simp) fun _ _ _ h => h
    have hpermuted : u₂.permuted = (u.permuted || (k :: ks).any fun k => t.permutes k.dims) := by
      rw [hκs.permuted, hκ.permuted, List.any_cons, Bool.or_assoc]
    refine ⟨hpermuted, fun _ hs => hκs.types (hκ.types hs), fun _ hx => hκs.helpers (hκ.helpers hx), ?_, fun x hx => ?_, ?_,
      fun x hx => ?_⟩
    · refine List.forall_mem_cons.2 ⟨fun h => hκs.types ?_, hκs.doubles⟩
      exact h.elim (fun ⟨e, he, hd⟩ => hκ.doubles e he hd) hdecl
    · rcases hκs.helperDoubles x hx with hx | hx
      · exact (hκ.helperDoubles x hx).imp_right fun hd hs => hκs.types (hd hs)
      · exact .inr hx
    · refine List.forall_mem_cons.2 ⟨fun e he id hid => ?_, hκs.provided⟩
      rcases hκ.provided e he id hid with hg | ⟨x, hx, hn⟩
      · refine .inl (LoweringContext.given_mono (fun hp => ?_) hg)
        rw [hpermuted, List.any_cons, hp, Bool.true_or, Bool.or_true]
      · exact .inr ⟨x, hκs.helpers hx, hn⟩
    · rcases hκs.called x hx with hx | ⟨κ', hκ', hc⟩
      · exact (hκ.called x hx).imp_right fun hc => ⟨κ, List.mem_cons_self .., hc⟩
      · exact .inr ⟨κ', List.mem_cons_of_mem κ hκ', hc⟩

end GpuHistogram
