/-
Generating code and running it. `Works f L c E k s Q` says that the generator `E`, drawing fresh names from `k` on, writes
statements whose form `f` runs to its end from `s`. Generated host code sets fresh variables only, so the variables there
were before keep their values (`Frame`), and with them all sizes computed so far (`Quantity`).
-/
import GpuHistogram.Histogram.Emit
import GpuHistogram.Proofs.Runs
import GpuHistogram.Proofs.Scopes

namespace GpuHistogram

namespace Name

/-- the name is plain or was drawn before the symbol `k` -/
def Before (k : ℕ) (n : Name) : Prop := ∀ j, n.symbol = some j → j < k

/-- the name was drawn between two symbols -/
def Within (k k' : ℕ) (n : Name) : Prop := ∃ j, n.symbol = some j ∧ k ≤ j ∧ j < k'

theorem Before.mono {k k' : ℕ} {n : Name} (h : n.Before k) (hk : k ≤ k') : n.Before k' :=
  fun j hj => (h j hj).trans_le hk

theorem Within.before {k k' : ℕ} {n : Name} (h : n.Within k k') : n.Before k' := by
  obtain ⟨i, hi, -, hlt⟩ := h
  intro j hj
  rw [hi, Option.some.injEq] at hj
  omega

theorem Within.not_before {k k' : ℕ} {n : Name} (h : n.Within k k') : ¬ n.Before k := by
  obtain ⟨j, hj, hle, -⟩ := h
  exact fun hb => absurd (hb j hj) (by omega)

theorem Within.mono {j k k' j' : ℕ} {n : Name} (h : n.Within k k') (hj : j ≤ k) (hk : k' ≤ j') : n.Within j j' := by
  obtain ⟨i, hi, h1, h2⟩ := h
  exact ⟨i, hi, by omega, by omega⟩

theorem Before.ne {k k' : ℕ} {n m : Name} (h : n.Before k) (hm : m.Within k k') : n ≠ m :=
  fun he => hm.not_before (he ▸ h)

theorem within_mk {k k' j : ℕ} (t : String) (h1 : k ≤ j) (h2 : j < k') : (⟨t, some j⟩ : Name).Within k k' :=
  ⟨j, rfl, h1, h2⟩

end Name

/-- the names drawn for a list of texts -/
def freshNames : List String → ℕ → List Name
  | [], _ => []
  | t :: l, k => ⟨t, some k⟩ :: freshNames l (k + 1)

theorem length_freshNames (l : List String) (k : ℕ) : (freshNames l k).length = l.length := by
  induction l generalizing k with
  | nil => rfl
  | cons t l ih => simp [freshNames, ih]

theorem freshNames_append (l l' : List String) (k : ℕ) : freshNames (l ++ l') k = freshNames l k ++ freshNames l' (k + l.length) := by
  induction l generalizing k with
  | nil => rfl
  | cons t l ih =>
    rw [List.cons_append, freshNames, freshNames, ih, List.length_cons, List.cons_append, Nat.add_right_comm, Nat.add_assoc]

theorem within_freshNames {l : List String} {k : ℕ} {n : Name} (h : n ∈ freshNames l k) :
    n.Within k (k + l.length) := by
  induction l generalizing k with
  | nil => cases h
  | cons t l ih =>
    rcases List.mem_cons.1 h with rfl | h
    · exact Name.within_mk t (Nat.le_refl k) (by simp)
    · exact (ih h).mono (Nat.le_succ k) (by simp only [List.length_cons]; omega)

theorem nodup_freshNames (l : List String) (k : ℕ) : (freshNames l k).Nodup := by
  induction l generalizing k with
  | nil => exact List.nodup_nil
  | cons t l ih =>
    refine List.nodup_cons.2 ⟨fun h => ?_, ih _⟩
    obtain ⟨j, hj, h1, -⟩ := within_freshNames h
    cases hj
    omega

theorem mapM_fresh {α : Type} (g : α → String) (l : List α) (k : ℕ) :
    (l.mapM fun a => fresh (g a)) k = (freshNames (l.map g) k, k + l.length) := by
  induction l generalizing k with
  | nil => rfl
  | cons a l ih =>
    rw [List.mapM_cons]
    change (let r := (l.mapM fun a => fresh (g a)) (k + 1); ((⟨g a, some k⟩ : Name) :: r.1, r.2)) = _
    rw [ih]
    simp only [List.map_cons, freshNames, List.length_cons, Prod.mk.injEq, true_and]
    omega

namespace Machine

variable {f : Form} {L : LaunchSpec → List Stmt → Exec Unit} {c : Context} {s t u : State} {k k' : ℕ} {α β : Type}

/-- the variables that there were before have the values they had -/
def Frame (k : ℕ) (s t : State) : Prop := ∀ n : Name, n.Before k → t.vars.get? n = s.vars.get? n

theorem Frame.refl (k : ℕ) (s : State) : Frame k s s := fun _ _ => rfl

theorem Frame.trans (h : Frame k s t) (h' : Frame k' t u) (hk : k ≤ k') : Frame k s u :=
  fun n hn => (h' n (hn.mono hk)).trans (h n hn)

theorem Frame.mono (h : Frame k' s t) (hk : k ≤ k') : Frame k s t :=
  fun n hn => h n (hn.mono hk)

theorem Frame.set {n : Name} (hn : n.Within k k') (v : Value) : Frame k s (s.set n v) :=
  fun m hm => by rw [State.get?_set, if_neg (hm.ne hn).symm]

/-- the generator writes code that runs to its end -/
def Works (f : Form) (L : LaunchSpec → List Stmt → Exec Unit) (c : Context) (E : Emit α) (k : ℕ) (s : State)
    (Q : α → ℕ → State → Prop) : Prop :=
  ∃ a l k' t, (∀ l₀, E l₀ k = some ((a, l₀ ++ l), k')) ∧ k ≤ k' ∧ execAll L c (f.block l) s = .ok () t ∧ Frame k s t ∧
    Q a k' t

namespace Works

variable {Q : α → ℕ → State → Prop} {R : β → ℕ → State → Prop} {E : Emit α} {F : α → Emit β}

theorem mono {Q' : α → ℕ → State → Prop} (h : Works f L c E k s Q)
    (hQ : ∀ a k' t, k ≤ k' → Frame k s t → Q a k' t → Q' a k' t) : Works f L c E k s Q' := by
  obtain ⟨a, l, k', t, hE, hk, ht, hf, hq⟩ := h
  exact ⟨a, l, k', t, hE, hk, ht, hf, hQ a k' t hk hf hq⟩

theorem pure {a : α} (h : Q a k s) : Works f L c (Pure.pure a) k s Q :=
  ⟨a, [], k, s, fun l₀ => by rw [List.append_nil]; rfl, Nat.le_refl k, by rw [f.block_nil, execAll_nil], .refl k s, h⟩

theorem bind (h : Works f L c E k s Q)
    (hF : ∀ a k' t, k ≤ k' → Frame k s t → Q a k' t → Works f L c (F a) k' t R) : Works f L c (E >>= F) k s R := by
  obtain ⟨a, l, k', t, hE, hk, ht, hf, hq⟩ := h
  obtain ⟨b, l', k'', u, hF', hk', hu, hf', hr⟩ := hF a k' t hk hf hq
  refine ⟨b, l ++ l', k'', u, fun l₀ => ?_, hk.trans hk', ?_, hf.trans hf' hk, hr⟩
  · change ((E l₀) >>= fun r => F r.1 r.2) k = _
    change (E l₀ k).bind (fun r => F r.1.1 r.1.2 r.2) = _
    rw [hE l₀, Option.bind_some, hF' (l₀ ++ l), List.append_assoc]
  · rw [f.block_append]
    exact execAll_append_eq_ok.2 ⟨t, ht, hu⟩

/-- generating without writing -/
theorem lift {g : Gen α} {a : α} {k' : ℕ} (hg : g k = some (a, k')) (hk : k ≤ k') (h : Q a k' s) :
    Works f L c (g : Emit α) k s Q := by
  refine ⟨a, [], k', s, fun l₀ => ?_, hk, by rw [f.block_nil, execAll_nil], .refl k s, h⟩
  change (g k).bind (fun r => some ((r.1, l₀), r.2)) = _
  rw [hg, List.append_nil]
  rfl

/-- writing statements -/
theorem stmts {l : List Stmt} {Q : Unit → ℕ → State → Prop} (h : Runs f L c l s fun t => Frame k s t ∧ Q () k t) :
    Works f L c (Emit.stmts l) k s Q := by
  obtain ⟨t, ht, hf, hq⟩ := h
  exact ⟨(), l, k, t, fun l₀ => rfl, Nat.le_refl k, ht, hf, hq⟩

theorem stmt {x : Stmt} {Q : Unit → ℕ → State → Prop} (h : Runs f L c [x] s fun t => Frame k s t ∧ Q () k t) :
    Works f L c (Emit.stmt x) k s Q :=
  stmts h

/-- writing a statement that is generated first -/
theorem emit {g : Gen Stmt} {x : Stmt} {k' : ℕ} {F : Emit β} (hg : g k = some (x, k')) (hk : k ≤ k')
    (h : Runs f L c [x] s fun t => Frame k s t ∧ Works f L c F k' t R) :
    Works f L c ((g : Emit Stmt) >>= fun x => Emit.stmt x >>= fun _ => F) k s R := by
  obtain ⟨t, ht, hf, b, l, k'', u, hF, hk'', hu, hf', hr⟩ := h
  refine ⟨b, [x] ++ l, k'', u, fun l₀ => ?_, hk.trans hk'', ?_, hf.trans hf' hk, hr⟩
  · change ((g k).bind fun r => some ((r.1, l₀), r.2)).bind (fun r => F (r.1.2 ++ [r.1.1]) r.2) = _
    rw [hg, Option.bind_some, Option.bind_some, hF (l₀ ++ [x]), List.append_assoc]
  · rw [f.block_append]
    exact execAll_append_eq_ok.2 ⟨t, ht, hu⟩

/-- what a generator does for each member of a list; what it establishes has to outlast what it does for later members -/
theorem mapM {G : α → Emit β} (P : α → β → ℕ → State → Prop) (l : List α)
    (hP : ∀ {a b k' k'' t u}, P a b k' t → k' ≤ k'' → Frame k' t u → P a b k'' u)
    (hG : ∀ a ∈ l, ∀ k' t, k ≤ k' → Frame k s t → t.memory = s.memory → t.launched = s.launched →
      Works f L c (G a) k' t fun b k'' u => P a b k'' u ∧ u.memory = t.memory ∧ u.launched = t.launched) :
    Works f L c (l.mapM G) k s fun bs k' t =>
      (bs.length = l.length ∧ ∀ x ∈ l.zip bs, P x.1 x.2 k' t) ∧ t.memory = s.memory ∧ t.launched = s.launched := by
  induction l generalizing k s with
  | nil =>
    rw [List.mapM_nil]
    exact pure ⟨⟨rfl, fun x hx => absurd hx List.not_mem_nil⟩, rfl, rfl⟩
  | cons a l ih =>
    rw [List.mapM_cons]
    refine bind (hG a (List.mem_cons_self ..) k s (Nat.le_refl k) (.refl k s) rfl rfl) ?_
    rintro b k₁ t hk₁ hf₁ ⟨hb, hm₁, hl₁⟩
    refine bind (ih fun x hx k' u hk' hf' hm' hl' => hG x (List.mem_cons_of_mem a hx) k' u (hk₁.trans hk')
      (hf₁.trans hf' hk₁) (hm'.trans hm₁) (hl'.trans hl₁)) ?_
    rintro bs k₂ u hk₂ hf₂ ⟨⟨hlen, hbs⟩, hm₂, hl₂⟩
    refine pure ⟨⟨by simp [hlen], fun x hx => ?_⟩, hm₂.trans hm₁, hl₂.trans hl₁⟩
    rcases List.mem_cons.1 hx with rfl | hx
    · exact hP hb hk₂ hf₂
    · exact hbs x hx

end Works

/-! ## Sizes -/

/-- the size, a number, that an expression of the host gives everywhere: it reads variables only that were there before
`k` and that are none of `X` -/
structure Quantity (k : ℕ) (X : List Name) (s : State) (e : Expr) (a : ℕ) : Prop where
  computes : ∀ f c, Computes f c s e a
  scope : e.Over (fun n => n.Before k ∧ n ∉ X ∧ (s.vars.get? n).isSome = true) fun _ => False

namespace Quantity

variable {X : List Name} {e l r : Expr} {a b : ℕ}

theorem scalars (h : Quantity k X s e a) : ∀ n ∈ e.scalars, n.Before k ∧ n ∉ X :=
  fun n hn => ⟨(h.scope.reads.1 n hn).1, (h.scope.reads.1 n hn).2.1⟩

theorem arrays (h : Quantity k X s e a) : e.arrays = [] :=
  List.eq_nil_iff_forall_not_mem.2 fun n hn => h.scope.reads.2 n hn

theorem fits (h : Quantity k X s e a) : Word64.fits (a : Int) = true := (h.computes .plain ⟨{}, fun _ => none, 0, none⟩).fits

theorem keep (h : Quantity k X s e a) (hk : k ≤ k') (ht : ∀ n ∈ e.scalars, t.vars.get? n = s.vars.get? n) :
    Quantity k' X t e a where
  computes := fun f c =>
    ⟨(h.computes f c).ty, by
      rw [← (h.computes f c).word.value]
      exact eval_congr (fun n hn => ht n (f.reads_expr e _ hn))
        (fun n hn => absurd (f.reads_expr e _ hn) (by simp [h.arrays])) (.inr rfl),
      h.fits, (h.computes f c).word.exact⟩
  scope := h.scope.strengthen fun n hn hv => ⟨hv.1.mono hk, hv.2.1, by rw [ht n hn]; exact hv.2.2⟩

theorem frame (h : Quantity k X s e a) (hk : k ≤ k') (hf : Frame k s t) : Quantity k' X t e a :=
  h.keep hk fun n hn => hf n (h.scalars n hn).1

/-- more variables that are not read, as they are younger -/
theorem widen {X' : List Name} (h : Quantity k X s e a) (hX : ∀ n ∈ X', n ∈ X ∨ ¬ n.Before k) : Quantity k X' s e a :=
  ⟨h.computes, h.scope.mono (fun n hn => ⟨hn.1, fun hm => (hX n hm).elim hn.2.1 fun hb => hb hn.1, hn.2.2⟩) fun _ h => h⟩

theorem literal (h : Word64.fits (a : Int) = true) : Quantity k X s (.i64 a) a :=
  ⟨fun _ _ => .literal h, trivial⟩

theorem zero : Quantity k X s 0 0 := literal (by decide)

theorem one : Quantity k X s 1 1 := literal (by decide)

theorem ofName {n : Name} (hn : n.Before k) (hX : n ∉ X) (h : s.vars.get? n = some (.word a))
    (hf : Word64.fits (a : Int) = true) : Quantity k X s (.ofName n) a :=
  ⟨fun _ _ => .ofName h hf, rfl, hn, hX, by rw [h]; rfl⟩

theorem op2 {op : Binary} {v : ℕ} (hl : Quantity k X s l a) (hr : Quantity k X s r b)
    (h : ∀ f c, Computes f c s (.op2 op l r) v) : Quantity k X s (.op2 op l r) v :=
  ⟨h, hl.scope, hr.scope⟩

theorem add (hl : Quantity k X s l a) (hr : Quantity k X s r b) (h : Word64.fits (a + b : ℕ) = true) :
    Quantity k X s (l + r) (a + b) :=
  op2 hl hr fun f c => (hl.computes f c).addNat (hr.computes f c) h

theorem mul (hl : Quantity k X s l a) (hr : Quantity k X s r b) (h : Word64.fits (a * b : ℕ) = true) :
    Quantity k X s (l * r) (a * b) :=
  op2 hl hr fun f c => (hl.computes f c).mulNat (hr.computes f c) h

theorem div (hl : Quantity k X s l a) (hr : Quantity k X s r b) (hb : 0 < b) : Quantity k X s (l / r) (a / b) :=
  op2 hl hr fun f c => (hl.computes f c).div (hr.computes f c) hb

theorem mod (hl : Quantity k X s l a) (hr : Quantity k X s r b) (hb : 0 < b) : Quantity k X s (l % r) (a % b) :=
  op2 hl hr fun f c => (hl.computes f c).mod (hr.computes f c) hb

theorem max (hl : Quantity k X s l a) (hr : Quantity k X s r b) : Quantity k X s (.max l r) (Max.max a b) :=
  op2 hl hr fun f c => by
    have h := (hl.computes f c).max (hr.computes f c)
    rwa [← Nat.cast_max] at h

theorem ceilDiv (hl : Quantity k X s l a) (hr : Quantity k X s r b) (hb : 0 < b)
    (h : Word64.fits (a + b : ℕ) = true) : Quantity k X s (.ceilDiv l r) ((a + b - 1) / b) :=
  ⟨fun f c => (hl.computes f c).ceilDiv (hr.computes f c) hb h, ⟨⟨hl.scope, hr.scope⟩, trivial⟩, hr.scope⟩

end Quantity

/-- a size that is bound is the same number afterwards -/
theorem Works.bindSize {X : List Name} {e : Expr} {a : ℕ} (label : String) (hX : ∀ n ∈ X, n.Before k)
    (h : ∀ f, Computes f c s e a) : Works f L c (Emit.bindSize label e) k s fun e' k' t =>
      Quantity k' X t e' a ∧ t.memory = s.memory ∧ t.launched = s.launched := by
  unfold Emit.bindSize
  split
  · rename_i v hv
    have hva : v = a := by
      unfold Expr.constant? at hv
      split at hv
      · rename_i w ty o hw
        cases hv
        exact (h .folded).word.exact _ _ _ hw
      · cases hv
    exact Works.pure ⟨hva ▸ .literal (h f).fits, rfl, rfl⟩
  · have hn : (⟨label, some k⟩ : Name).Within k (k + 1) := Name.within_mk label (Nat.le_refl k) (Nat.lt_succ_self k)
    have hcast : e.castIfNeeded .i64 = e := if_pos (h f).ty
    obtain ⟨t, ht, rfl⟩ : Runs f L c [.bind ⟨label, some k⟩ e] s fun t => t = s.set ⟨label, some k⟩ (.word a) :=
      Runs.bindWord (h f) (Runs.nil rfl)
    refine ⟨.ofName ⟨label, some k⟩, [.bind ⟨label, some k⟩ e], k + 1, _, fun l₀ => ?_, Nat.le_succ k, ht,
      Frame.set hn _, .ofName hn.before (fun hm => hn.not_before (hX _ hm)) ?_ (h f).fits, rfl, rfl⟩
    · rw [hcast]
      rfl
    · rw [State.get?_set, if_pos rfl]

end Machine

end GpuHistogram
