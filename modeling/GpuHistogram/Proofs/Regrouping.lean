/-
Regrouping. `Expr.Alike` relates expressions that differ in types and origins, and in the order in which infix operators
that bind equally are computed: `a - (b - c)` is alike to `(a - b) - c`.

`Expr.parts k` takes an expression apart into what an operator of strength `k` around it sees: operands and the infix
operators between them, down to operands that bind less tightly or are no infix operators. Any operator that binds least
among them can be made the outermost one (`exists_alike_binary`), so expressions with alike parts are alike
(`alike_of_parts`).
-/
import GpuHistogram.Code.Basic
import Mathlib.Data.List.Forall2
import Mathlib.Data.Nat.Notation
import Mathlib.Order.Basic
import Mathlib.Order.Nat
import Mathlib.Tactic.Common

namespace GpuHistogram.Expr

/-- expressions that differ in types and origins, and in how operators of one strength are grouped -/
inductive Alike : Expr → Expr → Prop
  | refl (e : Expr) : Alike e e
  | symm {e e' : Expr} (h : Alike e e') : Alike e' e
  | trans {e e' e'' : Expr} (h : Alike e e') (h' : Alike e' e'') : Alike e e''
  | var {n : Name} {ty ty' : Ty} {o o' : Origin} : Alike (.var n ty o) (.var n ty' o')
  | unary {op : Unary} {e e' : Expr} {ty ty' : Ty} {o o' : Origin} (h : Alike e e') :
    Alike (.unary op e ty o) (.unary op e' ty' o')
  | binary {op : Binary} {l l' r r' : Expr} {ty ty' : Ty} {o o' : Origin} (hl : Alike l l') (hr : Alike r r') :
    Alike (.binary op l r ty o) (.binary op l' r' ty' o')
  | select {c c' t t' e e' : Expr} {ty ty' : Ty} {o o' : Origin} (hc : Alike c c') (ht : Alike t t') (he : Alike e e') :
    Alike (.select c t e ty o) (.select c' t' e' ty' o')
  | access {t t' i i' : Expr} {ty ty' : Ty} {o o' : Origin} (ht : Alike t t') (hi : Alike i i') :
    Alike (.access t i ty o) (.access t' i' ty' o')
  | convert {e e' : Expr} {ty : Ty} (h : Alike e e') : Alike (.convert e ty) (.convert e' ty)
  | bitCast {e e' : Expr} {ty : Ty} (h : Alike e e') : Alike (.bitCast e ty) (.bitCast e' ty)
  | regroup {op op' : Binary} (hop : op.isInfix = true) (hop' : op'.isInfix = true) (h : op.strength = op'.strength)
    {a b c : Expr} {ty ty' : Ty} {o o' : Origin} :
    Alike (.binary op a (.binary op' b c ty o) ty' o') (.binary op' (.binary op a b ty o) c ty' o')

/-- the operands and infix operators that an operator of the given strength sees -/
def parts (k : ℕ) : Expr → Expr × List (Binary × Expr)
  | .binary op l r ty o =>
    if op.isInfix = true ∧ k ≤ op.strength then
      let (a, as) := l.parts op.strength
      let (b, bs) := r.parts op.strength
      (a, as ++ (op, b) :: bs)
    else (.binary op l r ty o, [])
  | e => (e, [])

variable {e e' l r : Expr} {op : Binary} {ty : Ty} {o : Origin} {j k : ℕ}

theorem parts_binary (hop : op.isInfix = true) (hk : k ≤ op.strength) : (binary op l r ty o).parts k =
    ((l.parts op.strength).1, (l.parts op.strength).2 ++ (op, (r.parts op.strength).1) :: (r.parts op.strength).2) := by
  rw [parts, if_pos ⟨hop, hk⟩]

/-- an expression is one part, or it is an infix operator between the parts of its operands -/
theorem parts_cases (k : ℕ) (e : Expr) : e.parts k = (e, []) ∨ ∃ op l r ty o, e = binary op l r ty o ∧
    op.isInfix = true ∧ k ≤ op.strength := by
  cases e with
  | binary op l r ty o =>
    by_cases h : op.isInfix = true ∧ k ≤ op.strength
    · exact .inr ⟨op, l, r, ty, o, rfl, h⟩
    · exact .inl (by rw [parts, if_neg h])
  | _ => exact .inl rfl

theorem parts_of_nil (h : (e.parts k).2 = []) : e.parts k = (e, []) := by
  rcases parts_cases k e with he | ⟨op, l, r, ty, o, rfl, hop, hk⟩
  · exact he
  · rw [parts_binary hop hk] at h
    simp at h

theorem le_of_mem_parts {x : Binary × Expr} (h : x ∈ (e.parts k).2) : x.1.isInfix = true ∧ k ≤ x.1.strength := by
  induction e generalizing k with
  | binary op l r ty o ihl ihr =>
    rcases parts_cases k (binary op l r ty o) with he | ⟨_, _, _, _, _, he, hop, hk⟩
    · rw [he] at h
      exact absurd h List.not_mem_nil
    · cases he
      rw [parts_binary hop hk, List.mem_append, List.mem_cons] at h
      rcases h with h | rfl | h
      · exact (ihl h).imp_right (Nat.le_trans hk)
      · exact ⟨hop, hk⟩
      · exact (ihr h).imp_right (Nat.le_trans hk)
  | _ => exact absurd h List.not_mem_nil

/-- an operator that binds least among those between the parts can be made the outermost one -/
theorem exists_alike_binary {as bs : List (Binary × Expr)} {b : Expr} (h : (e.parts k).2 = as ++ (op, b) :: bs)
    (hmin : ∀ x ∈ (e.parts k).2, op.strength ≤ x.1.strength) (ty : Ty) (o : Origin) : ∃ l r,
      Alike e (binary op l r ty o) ∧ l.parts op.strength = ((e.parts k).1, as) ∧ r.parts op.strength = (b, bs) := by
  induction e generalizing k as b bs with
  | binary op' l r ty' o' ihl ihr =>
    rcases parts_cases k (binary op' l r ty' o') with he | ⟨_, _, _, _, _, he, hop', hk⟩
    · simp [he] at h
    · cases he
      have hmem : (op, b) ∈ ((binary op' l r ty' o').parts k).2 := h ▸ by simp
      have hop := (le_of_mem_parts hmem).1
      rw [parts_binary hop' hk] at h hmin ⊢
      -- the operator of the node binds as tightly as the one that is looked for
      have heq : op'.strength = op.strength := by
        have hle : op.strength ≤ op'.strength := hmin (op', (r.parts op'.strength).1) (by simp)
        rw [parts_binary hop' hk, List.mem_append, List.mem_cons] at hmem
        rcases hmem with hm | hm | hm
        · exact le_antisymm (le_of_mem_parts hm).2 hle
        · exact congrArg (fun x => x.1.strength) hm.symm
        · exact le_antisymm (le_of_mem_parts hm).2 hle
      rw [heq] at h hmin ⊢
      have hl : ∀ x ∈ (l.parts op.strength).2, op.strength ≤ x.1.strength := fun x hx => (le_of_mem_parts hx).2
      have hr : ∀ x ∈ (r.parts op.strength).2, op.strength ≤ x.1.strength := fun x hx => (le_of_mem_parts hx).2
      rcases List.append_eq_append_iff.1 h with ⟨ms, has, hbs⟩ | ⟨ms, has, hbs⟩
      · cases ms with
        | nil =>
          obtain ⟨hx, rfl⟩ := List.cons.inj (hbs : _ = [] ++ _)
          obtain ⟨rfl, rfl⟩ := Prod.mk.inj hx
          rw [List.append_nil] at has
          subst has
          exact ⟨l, r, .binary (.refl l) (.refl r), rfl, rfl⟩
        | cons m ms =>
          -- it stands in the right operand
          obtain ⟨rfl, hrest⟩ := List.cons.inj hbs
          obtain ⟨p, q, halike, hp, hq⟩ := ihr hrest hr
          refine ⟨binary op' l p ty o, q, ?_, ?_, hq⟩
          · exact (Alike.binary (.refl l) halike).trans (.regroup hop' hop heq)
          · rw [parts_binary hop' heq.ge, heq, hp, has]
      · cases ms with
        | nil =>
          obtain ⟨hx, rfl⟩ := List.cons.inj (hbs : _ = [] ++ _)
          obtain ⟨rfl, rfl⟩ := Prod.mk.inj hx
          rw [List.append_nil] at has
          subst has
          exact ⟨l, r, .binary (.refl l) (.refl r), rfl, rfl⟩
        | cons m ms =>
          -- it stands in the left operand
          obtain ⟨rfl, hrest⟩ := List.cons.inj hbs
          obtain ⟨p, q, halike, hp, hq⟩ := ihl has hl
          refine ⟨p, binary op' q r ty o, ?_, hp, ?_⟩
          · exact (Alike.binary halike (.refl r)).trans (Alike.regroup hop hop' heq.symm).symm
          · rw [parts_binary hop' heq.ge, heq, hq, hrest]
            rfl
  | _ => simp [parts] at h

/-- parts with the same operators, and alike operands -/
structure PartsAlike (p q : Expr × List (Binary × Expr)) : Prop where
  first : Alike p.1 q.1
  rest : List.Forall₂ (fun x y => x.1 = y.1 ∧ Alike x.2 y.2) p.2 q.2

theorem exists_of_forall₂_append_cons {α β : Type} {R : α → β → Prop} {x : α} {as bs : List α} {zs : List β}
    (h : List.Forall₂ R (as ++ x :: bs) zs) : ∃ as' y bs', zs = as' ++ y :: bs' ∧ List.Forall₂ R as as' ∧ R x y ∧
      List.Forall₂ R bs bs' := by
  induction as generalizing zs with
  | nil =>
    obtain ⟨y, bs', hy, hbs, rfl⟩ := List.forall₂_cons_left_iff.1 h
    exact ⟨[], y, bs', rfl, .nil, hy, hbs⟩
  | cons a as ih =>
    obtain ⟨a', zs, ha, hzs, rfl⟩ := List.forall₂_cons_left_iff.1 h
    obtain ⟨as', y, bs', rfl, has, hy, hbs⟩ := ih hzs
    exact ⟨a' :: as', y, bs', rfl, .cons ha has, hy, hbs⟩

theorem PartsAlike.operators {p q : Expr × List (Binary × Expr)} (h : PartsAlike p q) :
    p.2.map (·.1) = q.2.map (·.1) := by
  rw [← List.forall₂_eq_eq_eq, List.forall₂_map_left_iff, List.forall₂_map_right_iff]
  exact h.rest.imp fun _ _ hx => hx.1

/-- **Expressions with alike parts are alike.** -/
theorem alike_of_parts (h : PartsAlike (e.parts k) (e'.parts k)) : Alike e e' := by
  generalize hn : (e.parts k).2.length = n
  induction n using Nat.strongRecOn generalizing e e' k with
  | _ n ih =>
    rcases parts_cases k e with he | ⟨op, l, r, ty, o, rfl, hop, hk⟩
    · rw [he] at h
      have he' : e'.parts k = (e', []) := parts_of_nil (List.forall₂_nil_left_iff.1 h.rest)
      rw [he'] at h
      exact h.first
    · have hoperators := h.operators
      rw [parts_binary hop hk] at h hn hoperators
      rw [List.length_append, List.length_cons] at hn
      obtain ⟨hfirst, hrest⟩ := h
      obtain ⟨as, ⟨op', b⟩, bs, hsplit, has, ⟨hop', hb⟩, hbs⟩ := exists_of_forall₂_append_cons hrest
      obtain rfl : op = op' := hop'
      -- the other expression is alike to one with the same operator outermost, so the operands can be compared
      have hmin : ∀ x ∈ (e'.parts k).2, op.strength ≤ x.1.strength := by
        intro x hx
        have hx : x.1 ∈ (e'.parts k).2.map (·.1) := List.mem_map_of_mem hx
        rw [← hoperators, List.map_append, List.map_cons, List.mem_append, List.mem_cons, List.mem_map, List.mem_map] at hx
        rcases hx with ⟨y, hy, hyx⟩ | hx | ⟨y, hy, hyx⟩
        · exact hyx ▸ (le_of_mem_parts hy).2
        · exact hx ▸ le_rfl
        · exact hyx ▸ (le_of_mem_parts hy).2
      obtain ⟨l', r', halike, hl', hr'⟩ := exists_alike_binary hsplit hmin ty o
      have hl : Alike l l' := ih _ (by omega) (k := op.strength) (hl' ▸ ⟨hfirst, has⟩) rfl
      have hr : Alike r r' := ih _ (by omega) (k := op.strength) (hr' ▸ ⟨hb, hbs⟩) rfl
      exact (Alike.binary hl hr).trans halike.symm

end GpuHistogram.Expr
