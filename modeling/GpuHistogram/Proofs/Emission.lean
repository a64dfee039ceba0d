/-
What generators write, whether or not the code runs to its end. `Writes E k P` says that whenever the generator `E` gets
through, drawing fresh names from `k` on, what it returns and the statements that it adds are related by `P`; the rule for
each way of putting generators together is the inversion of that step.

`plan_writes` is the first use: the host code that computes the sizes launches nothing, and each size is a literal or a
variable of its own.
-/
import GpuHistogram.Proofs.Planning

namespace GpuHistogram

/-! ## Launched kernels -/

@[simp] theorem blockKernels_nil : blockKernels [] = [] := by
  rw [blockKernels]

@[simp] theorem blockKernels_cons (x : Stmt) (l : List Stmt) : blockKernels (x :: l) = x.kernels ++ blockKernels l := by
  rw [blockKernels]

@[simp] theorem blockKernels_append (l l' : List Stmt) : blockKernels (l ++ l') = blockKernels l ++ blockKernels l' := by
  induction l with
  | nil => simp
  | cons x l ih => simp [ih]

/-! ## Inverting generators -/

variable {α β : Type} {k k' : ℕ}

/-- a list of generators that cannot get stuck, as a list of generators that can -/
theorem coe_mapM (g : α → Fresh β) (l : List α) :
    ((l.mapM g : Fresh (List β)) : Gen (List β)) = l.mapM fun a => (g a : Gen β) := by
  induction l with
  | nil => rfl
  | cons a l ih =>
    rw [List.mapM_cons, List.mapM_cons, ← ih]
    rfl

/-- what a generator returns and the statements that it adds are related -/
def Writes (E : Emit α) (k : ℕ) (P : α → List Stmt → ℕ → Prop) : Prop :=
  ∀ l₀ a l₁ k', E l₀ k = some ((a, l₁), k') → ∃ l, l₁ = l₀ ++ l ∧ P a l k'

namespace Writes

variable {E : Emit α} {F : α → Emit β} {P : α → List Stmt → ℕ → Prop} {Q : β → List Stmt → ℕ → Prop}

theorem mono {P' : α → List Stmt → ℕ → Prop} (h : Writes E k P) (hP : ∀ a l k', P a l k' → P' a l k') : Writes E k P' :=
  fun l₀ a l₁ k' hE => (h l₀ a l₁ k' hE).imp fun _ hl => ⟨hl.1, hP _ _ _ hl.2⟩

theorem pure {a : α} (h : P a [] k) : Writes (Pure.pure a) k P := by
  intro l₀ b l₁ k' hE
  cases hE
  exact ⟨[], (List.append_nil _).symm, h⟩

theorem bind (h : Writes E k P) (hF : ∀ a l k', P a l k' → Writes (F a) k' fun b l' => Q b (l ++ l')) :
    Writes (E >>= F) k Q := by
  intro l₀ b l₂ k₂ hE
  change (E l₀ k).bind (fun r => F r.1.1 r.1.2 r.2) = _ at hE
  obtain ⟨⟨⟨a, l₁⟩, k₁⟩, h₁, h₂⟩ := Option.bind_eq_some_iff.1 hE
  obtain ⟨l, rfl, hp⟩ := h l₀ a l₁ k₁ h₁
  obtain ⟨l', rfl, hq⟩ := hF a l k₁ hp _ _ _ _ h₂
  exact ⟨l ++ l', List.append_assoc .., hq⟩

/-- generating without writing -/
theorem lift {g : Gen α} (h : ∀ a k', g k = some (a, k') → P a [] k') : Writes (g : Emit α) k P := by
  intro l₀ a l₁ k' hE
  change (g k).bind (fun r => some ((r.1, l₀), r.2)) = _ at hE
  obtain ⟨⟨b, k₁⟩, h₁, h₂⟩ := Option.bind_eq_some_iff.1 hE
  cases h₂
  exact ⟨[], (List.append_nil _).symm, h _ _ h₁⟩

/-- writing statements -/
theorem stmts {l : List Stmt} {P : Unit → List Stmt → ℕ → Prop} (h : P () l k) : Writes (Emit.stmts l) k P := by
  intro l₀ a l₁ k' hE
  cases hE
  exact ⟨l, rfl, h⟩

theorem stmt {x : Stmt} {P : Unit → List Stmt → ℕ → Prop} (h : P () [x] k) : Writes (Emit.stmt x) k P :=
  stmts h

/-- the statements of a generator, as a list of their own -/
theorem collect {E : Emit Unit} {P : Unit → List Stmt → ℕ → Prop} {Q : List Stmt → List Stmt → ℕ → Prop}
    (h : Writes E k P) (hQ : ∀ l k', P () l k' → Q l [] k') : Writes (Emit.collect E : Gen (List Stmt)) k Q := by
  refine lift fun l k' hE => ?_
  change (E [] k).bind (fun r => some (r.1.2, r.2)) = _ at hE
  obtain ⟨⟨⟨_, l₁⟩, k₁⟩, h₁, h₂⟩ := Option.bind_eq_some_iff.1 hE
  cases h₂
  obtain ⟨l, rfl, hp⟩ := h [] () _ _ h₁
  exact hQ _ _ hp

end Writes

/-! ## Sizes -/

/-- a size in host code: a literal if it is known, and otherwise a variable that is bound to it -/
def BindsSize (label : String) (e : Expr) (k : ℕ) (e' : Expr) (l : List Stmt) (k' : ℕ) : Prop :=
  (∃ v, e.constant? = some v ∧ e' = .i64 v ∧ l = [] ∧ k' = k) ∨
    e.constant? = none ∧ e' = .ofName ⟨label, some k⟩ ∧ l = [.bind ⟨label, some k⟩ (e.castIfNeeded .i64)] ∧ k' = k + 1

theorem Writes.bindSize (label : String) (e : Expr) (k : ℕ) : Writes (Emit.bindSize label e) k (BindsSize label e k) := by
  unfold Emit.bindSize
  split
  · rename_i v hv
    exact pure (.inl ⟨v, hv, rfl, rfl, rfl⟩)
  · rename_i hv
    refine bind (P := fun n l k' => n = ⟨label, some k⟩ ∧ l = [] ∧ k' = k + 1) (lift fun n k' hE => ?_) ?_
    · cases hE
      exact ⟨rfl, rfl, rfl⟩
    · rintro _ _ _ ⟨rfl, rfl, rfl⟩
      exact bind (stmt (P := fun _ l k' => l = _ ∧ k' = _) ⟨rfl, rfl⟩) fun _ l k' hl => pure (.inr ⟨hv, rfl, by
        rw [hl.1]
        rfl, hl.2⟩)

/-- the statement launches nothing and sets no variable drawn before `k` -/
structure Stmt.Quiet (k : ℕ) (x : Stmt) : Prop where
  kernels : x.kernels = []
  sets : ∀ n ∈ x.uses .sets, ¬ n.Before k

/-- code that launches nothing and sets no variable drawn before `k` -/
def Quiet (k : ℕ) (l : List Stmt) : Prop := ∀ x ∈ l, x.Quiet k

namespace Quiet

variable {l l' : List Stmt}

theorem nil (k : ℕ) : Quiet k [] := fun _ hx => absurd hx List.not_mem_nil

theorem cons {x : Stmt} (hx : x.Quiet k) (h : Quiet k l) : Quiet k (x :: l) := List.forall_mem_cons.2 ⟨hx, h⟩

theorem append (h : Quiet k l) (h' : Quiet k l') : Quiet k (l ++ l') := List.forall_mem_append.2 ⟨h, h'⟩

theorem flatMap {g : α → List Stmt} {as : List α} (h : ∀ a ∈ as, Quiet k (g a)) : Quiet k (as.flatMap g) := by
  intro x hx
  obtain ⟨a, ha, hx⟩ := List.mem_flatMap.1 hx
  exact h a ha x hx

theorem kernels (h : Quiet k l) : blockKernels l = [] := by
  induction l with
  | nil => exact blockKernels_nil
  | cons x l ih =>
    rw [blockKernels_cons, (h x (List.mem_cons_self ..)).kernels, ih fun y hy => h y (List.mem_cons_of_mem x hy)]
    rfl

theorem sets (h : Quiet k l) {n : Name} (hn : n ∈ blockSets l) : ¬ n.Before k := by
  obtain ⟨x, hx, hn⟩ := mem_blockUses.1 hn
  exact (h x hx).sets n hn

end Quiet

theorem Stmt.Quiet.bind {n : Name} (hn : ¬ n.Before k) (e : Expr) : (Stmt.bind n e).Quiet k := by
  refine ⟨by simp [Stmt.bind, Stmt.kernels], fun m hm => ?_⟩
  rw [Stmt.bind, Stmt.uses, Use.among, List.mem_singleton] at hm
  exact hm ▸ hn

/-- the code that a generator writes is quiet -/
def WritesQuiet (k₀ : ℕ) (E : Emit α) (k : ℕ) (P : α → ℕ → Prop) : Prop :=
  Writes E k fun a l k' => k ≤ k' ∧ Quiet k₀ l ∧ P a k'

namespace WritesQuiet

variable {k₀ : ℕ} {E : Emit α} {F : α → Emit β} {P : α → ℕ → Prop} {Q : β → ℕ → Prop}

theorem mono {P' : α → ℕ → Prop} (h : WritesQuiet k₀ E k P) (hP : ∀ a k', P a k' → P' a k') : WritesQuiet k₀ E k P' :=
  Writes.mono h fun _ _ _ ⟨hk, hl, hp⟩ => ⟨hk, hl, hP _ _ hp⟩

theorem pure {a : α} (h : P a k) : WritesQuiet k₀ (Pure.pure a) k P :=
  Writes.pure ⟨Nat.le_refl k, .nil k₀, h⟩

theorem lift {g : Gen α} (h : ∀ a k', g k = some (a, k') → k ≤ k' ∧ P a k') : WritesQuiet k₀ (g : Emit α) k P :=
  Writes.lift fun a k' hg => ⟨(h a k' hg).1, .nil k₀, (h a k' hg).2⟩

theorem stmt {x : Stmt} {P : Unit → ℕ → Prop} (hx : x.Quiet k₀) (h : P () k) : WritesQuiet k₀ (Emit.stmt x) k P :=
  Writes.stmt ⟨Nat.le_refl k, .cons hx (.nil k₀), h⟩

theorem bind (h : WritesQuiet k₀ E k P) (hF : ∀ a k', k ≤ k' → P a k' → WritesQuiet k₀ (F a) k' Q) :
    WritesQuiet k₀ (E >>= F) k Q :=
  Writes.bind h fun a _ k' ⟨hk, hl, hp⟩ =>
    Writes.mono (hF a k' hk hp) fun _ _ _ ⟨hk', hl', hq⟩ => ⟨hk.trans hk', hl.append hl', hq⟩

/-- the members of a list one after the other, with one result for each -/
theorem mapM {R : α → β → Prop} {G : α → Emit β} (l : List α)
    (hG : ∀ a k', k ≤ k' → WritesQuiet k₀ (G a) k' fun b _ => R a b) :
    WritesQuiet k₀ (l.mapM G) k fun bs _ => List.Forall₂ R l bs := by
  induction l generalizing k with
  | nil =>
    rw [List.mapM_nil]
    exact pure .nil
  | cons a l ih =>
    rw [List.mapM_cons]
    refine bind (hG a k (Nat.le_refl k)) fun b k₁ hk₁ hb => ?_
    refine bind (ih fun x k' hk' => hG x k' (hk₁.trans hk')) fun bs k₂ hk₂ hbs => ?_
    exact pure (.cons hb hbs)

theorem bindSize (label : String) (e : Expr) (hk : k₀ ≤ k) : WritesQuiet k₀ (Emit.bindSize label e) k fun _ _ => True := by
  refine (Writes.bindSize label e k).mono ?_
  rintro e' l k' (⟨v, hv, rfl, rfl, rfl⟩ | ⟨hv, rfl, rfl, rfl⟩)
  · exact ⟨Nat.le_refl _, .nil _, trivial⟩
  · have hn : (⟨label, some k⟩ : Name).Within k (k + 1) := Name.within_mk label (Nat.le_refl k) (Nat.lt_succ_self k)
    exact ⟨Nat.le_succ k, .cons (.bind (fun hb => hn.not_before (hb.mono hk)) _) (.nil _), trivial⟩

end WritesQuiet

/-! ## Code that binds sizes -/

/-- the code only binds 64-bit variables, none of them drawn before `k` -/
def BindsOnly (k : ℕ) (l : List Stmt) : Prop :=
  ∀ x ∈ l, ∃ (n : Name) (e : Expr), ¬ n.Before k ∧ x = .define .i64 n e .unknown

namespace BindsOnly

variable {l l' : List Stmt}

theorem nil (k : ℕ) : BindsOnly k [] := fun _ hx => absurd hx List.not_mem_nil

theorem append (h : BindsOnly k l) (h' : BindsOnly k l') : BindsOnly k (l ++ l') := List.forall_mem_append.2 ⟨h, h'⟩

theorem quiet (h : BindsOnly k l) : Quiet k l := by
  intro x hx
  obtain ⟨n, e, hn, rfl⟩ := h x hx
  refine ⟨by simp [Stmt.kernels], fun m hm => ?_⟩
  rw [Stmt.uses, Use.among, List.mem_singleton] at hm
  exact hm ▸ hn

end BindsOnly

theorem Expr.ty_castIfNeeded (e : Expr) (s : Scalar) : (e.castIfNeeded s).ty = .scalar s := by
  unfold Expr.castIfNeeded
  split_ifs with h
  · exact h
  · rfl

theorem BindsSize.bindsOnly {label : String} {e e' : Expr} {l : List Stmt} {k₀ : ℕ} (h : BindsSize label e k e' l k')
    (hk : k₀ ≤ k) : k ≤ k' ∧ BindsOnly k₀ l := by
  rcases h with ⟨v, -, -, rfl, rfl⟩ | ⟨-, -, rfl, rfl⟩
  · exact ⟨Nat.le_refl k', .nil k₀⟩
  · have hn : (⟨label, some k⟩ : Name).Within k (k + 1) := Name.within_mk label (Nat.le_refl k) (Nat.lt_succ_self k)
    refine ⟨Nat.le_succ k, fun x hx => ⟨_, e.castIfNeeded .i64, fun hb => hn.not_before (hb.mono hk), ?_⟩⟩
    rw [List.mem_singleton.1 hx, Stmt.bind, e.ty_castIfNeeded]
    rfl

/-- the expression is a literal for which `P` holds, or a variable among `V` that was drawn before `k` -/
def Expr.Settled (V : List Name) (k : ℕ) (P : Int → Prop) (e : Expr) : Prop :=
  (∃ v, e = .i64 v ∧ P v) ∨ ∃ n ∈ V, n.Before k ∧ e = .ofName n

theorem Expr.Settled.mono {V V' : List Name} {P : Int → Prop} {e : Expr} (h : e.Settled V k P) (hV : V ⊆ V') (hk : k ≤ k') :
    e.Settled V' k' P :=
  h.imp_right fun ⟨n, hn, hb, he⟩ => ⟨n, hV hn, hb.mono hk, he⟩

theorem Expr.Settled.imp {V : List Name} {P Q : Int → Prop} {e : Expr} (h : e.Settled V k P) (hP : ∀ v, P v → Q v) :
    e.Settled V k Q :=
  h.imp_left fun ⟨v, he, hv⟩ => ⟨v, he, hP v hv⟩

/-- a generator that binds sizes: `P` holds of what it returns and of the names that are bound, with those bound before -/
def WritesSizes (k₀ : ℕ) (E : Emit α) (k : ℕ) (V : List Name) (P : α → ℕ → List Name → Prop) : Prop :=
  Writes E k fun a l k' => k ≤ k' ∧ BindsOnly k₀ l ∧ P a k' (V ++ blockSets l)

namespace WritesSizes

variable {k₀ : ℕ} {V : List Name} {E : Emit α} {F : α → Emit β} {P : α → ℕ → List Name → Prop} {Q : β → ℕ → List Name → Prop}

theorem mono {P' : α → ℕ → List Name → Prop} (h : WritesSizes k₀ E k V P) (hP : ∀ a k' V', P a k' V' → P' a k' V') :
    WritesSizes k₀ E k V P' :=
  Writes.mono h fun _ _ _ ⟨hk, hl, hp⟩ => ⟨hk, hl, hP _ _ _ hp⟩

theorem pure {a : α} (h : P a k V) : WritesSizes k₀ (Pure.pure a) k V P :=
  Writes.pure ⟨Nat.le_refl k, .nil k₀, by simpa using h⟩

theorem lift {g : Gen α} (h : ∀ a k', g k = some (a, k') → k ≤ k' ∧ P a k' V) : WritesSizes k₀ (g : Emit α) k V P :=
  Writes.lift fun a k' hg => ⟨(h a k' hg).1, .nil k₀, by simpa using (h a k' hg).2⟩

theorem bind (h : WritesSizes k₀ E k V P)
    (hF : ∀ a k' V', k ≤ k' → V ⊆ V' → P a k' V' → WritesSizes k₀ (F a) k' V' Q) : WritesSizes k₀ (E >>= F) k V Q :=
  Writes.bind h fun a l k' ⟨hk, hl, hp⟩ =>
    Writes.mono (hF a k' _ hk (List.subset_append_left ..) hp) fun b l' k'' ⟨hk', hl', hq⟩ => by
      refine ⟨hk.trans hk', hl.append hl', ?_⟩
      rwa [blockSets, blockUses_append, ← List.append_assoc]

/-- the members of a list one after the other -/
theorem mapM {G : α → Emit β} (hQ : ∀ {b k k' V V'}, Q b k V → k ≤ k' → V ⊆ V' → Q b k' V') (l : List α)
    (hG : ∀ a ∈ l, ∀ k' V', k ≤ k' → WritesSizes k₀ (G a) k' V' Q) :
    WritesSizes k₀ (l.mapM G) k V fun bs k' V' => ∀ b ∈ bs, Q b k' V' := by
  induction l generalizing k V with
  | nil =>
    rw [List.mapM_nil]
    exact pure fun b hb => absurd hb List.not_mem_nil
  | cons a l ih =>
    rw [List.mapM_cons]
    refine bind (hG a (List.mem_cons_self ..) k V (Nat.le_refl k)) fun b k₁ V₁ hk₁ hV₁ hb => ?_
    refine bind (ih fun x hx k' V' hk' => hG x (List.mem_cons_of_mem a hx) k' V' (hk₁.trans hk')) fun bs k₂ V₂ hk₂ hV₂ hbs => ?_
    refine pure fun x hx => ?_
    rcases List.mem_cons.1 hx with rfl | hx
    · exact hQ hb hk₂ hV₂
    · exact hbs x hx

/-- a size is a literal if its value is known, and otherwise a variable that is bound to it -/
theorem bindSize (label : String) (e : Expr) (hk : k₀ ≤ k) :
    WritesSizes k₀ (Emit.bindSize label e) k V fun e' k' V' =>
      (e'.Settled V' k' fun v => e.constant? = some v) ∧ ∀ v, e.constant? = some v → e' = .i64 v := by
  refine (Writes.bindSize label e k).mono fun e' l k' h => ?_
  obtain ⟨hk', hl⟩ := h.bindsOnly hk
  refine ⟨hk', hl, ?_⟩
  rcases h with ⟨v, hv, rfl, -, -⟩ | ⟨hv, rfl, rfl, rfl⟩
  · exact ⟨.inl ⟨v, rfl, hv⟩, fun w hw => by rw [Option.some.inj (hv.symm.trans hw)]⟩
  · refine ⟨.inr ⟨⟨label, some k⟩, ?_, (Name.within_mk label (Nat.le_refl k) (Nat.lt_succ_self k)).before, rfl⟩,
      fun w hw => nomatch hv.symm.trans hw⟩
    simp [Stmt.bind, Stmt.uses, Use.among]

end WritesSizes

/-! ## Plans -/

/-- what the sizes in a plan are: literals that the histogram and the options say, or variables among `V` that were drawn
before `k` -/
structure Plan.Settled (p : Plan) (h : Histogram) (o : Options) (k : ℕ) (V : List Name) : Prop where
  hist : p.hist = h
  operator : ∀ q ∈ p.parts, q.op ∈ h.operators
  groupSize : p.groupSize.Settled V k fun g => o.groupSize = some g
  groupSize_fixed : ∀ g, o.groupSize = some g → p.groupSize = .i64 g
  width : ∀ q ∈ p.parts, q.width.Settled V k fun v => ∃ op ∈ h.operators, op.width.constant? = some v
  bucketSize : ∀ q ∈ p.parts, q.bucketSize.Settled V k fun v => ∃ op ∈ h.operators, op.bucketSize.constant? = some v
  subs : ∀ q ∈ p.parts, q.subs.dests = q.op.dests ∧ q.subs.size = q.width * q.bucketSize

/-- **Planning.** The code that computes the sizes binds 64-bit variables and does nothing else. -/
theorem plan_writes {h : Histogram} (hv : h.validate = .ok ()) (o : Options) (k₀ : ℕ) :
    WritesSizes k₀ (h.plan o) k₀ [] fun p k V => p.Settled h o k V := by
  have hfixed {g : Int} (hg : o.groupSize = some g) :
      (Histogram.fixedOrOpen o.groupSize h.groupSizeId).constant? = some g := by
    rw [hg]
    rfl
  have hgiven {g : Int} (hg : (Histogram.fixedOrOpen o.groupSize h.groupSizeId).constant? = some g) :
      o.groupSize = some g := by
    cases ho : o.groupSize with
    | none =>
      rw [ho] at hg
      cases hg
    | some g' =>
      rw [ho] at hg
      exact hg
  unfold Histogram.plan
  refine .bind (.bindSize "group_size" _ (Nat.le_refl _)) fun e₁ k₁ V₁ hk₁ _ ⟨he₁, hlit₁⟩ => ?_
  refine .bind (.bindSize "num_groups" _ hk₁) fun e₂ k₂ V₂ hk₂ hV₂ _ => ?_
  refine .bind (.bindSize "total_threads" _ (hk₁.trans hk₂)) fun e₃ k₃ V₃ hk₃ hV₃ _ => ?_
  have hk₀₃ := hk₁.trans (hk₂.trans hk₃)
  refine .bind (.mapM (Q := fun _ _ _ => True) (fun _ _ _ => trivial) _ fun x _ k V hk =>
    .bind (.bindSize "segment_dim" _ (hk₀₃.trans hk)) fun _ _ _ _ _ _ => .pure trivial) fun dims k₄ V₄ hk₄ hV₄ _ => ?_
  have hk₀₄ := hk₀₃.trans hk₄
  refine .bind (.bindSize "segments" _ hk₀₄) fun e₅ k₅ V₅ hk₅ hV₅ _ => ?_
  have hk₀₅ := hk₀₄.trans hk₅
  obtain ⟨x, hx⟩ : ∃ x, h.elementDim? = some x := by
    unfold Histogram.elementDim?
    exact Option.isSome_iff_exists.1 (by simpa using (Histogram.validate_ok hv).1)
  rw [hx]
  refine .bind (.bindSize "segment_size" _ hk₀₅) fun e₆ k₆ V₆ hk₆ hV₆ _ => ?_
  have hk₀₆ := hk₀₅.trans hk₆
  refine .bind (.mapM (Q := fun (e : Expr) k V => e.Settled V k fun v => ∃ op ∈ h.operators, op.width.constant? = some v)
    (fun hP hk hV => hP.mono hV hk) _ fun op hop k V hk =>
      (WritesSizes.bindSize "width" _ (hk₀₆.trans hk)).mono fun _ _ _ hw => hw.1.imp fun _ hv => ⟨op, hop, hv⟩)
    fun widths k₇ V₇ hk₇ hV₇ hwidths => ?_
  have hk₀₇ := hk₀₆.trans hk₇
  refine .bind (.mapM (Q := fun (e : Expr) k V => e.Settled V k fun v => ∃ op ∈ h.operators, op.bucketSize.constant? = some v)
    (fun hP hk hV => hP.mono hV hk) _ fun op hop k V hk =>
      (WritesSizes.bindSize "vector_size" _ (hk₀₇.trans hk)).mono fun _ _ _ hw =>
        hw.1.imp fun _ hv => ⟨op, hop, hv⟩)
    fun buckets k₈ V₈ hk₈ hV₈ hbuckets => ?_
  obtain ⟨parts, k₉, hrun, hk₉, hmap, hparts, -, -⟩ :=
    makeParts_spec e₅ (h.operators.zip (h.contributions.zip (widths.zip buckets))) k₈
  refine .bind (P := fun ps k _ => parts = ps ∧ k₉ = k) (fun l₀ a l₁ k' hE => ?_) ?_
  · cases (hrun l₀).symm.trans hE
    exact ⟨[], (List.append_nil _).symm, hk₉, .nil k₀, rfl, rfl⟩
  rintro _ _ V₉ - hV₉ ⟨rfl, rfl⟩
  have hpart {q : Part} (hq : q ∈ parts) : q.op ∈ h.operators ∧ q.width ∈ widths ∧ q.bucketSize ∈ buckets := by
    have hz : (q.op, q.contribution, q.width, q.bucketSize) ∈
        h.operators.zip (h.contributions.zip (widths.zip buckets)) := hmap ▸ List.mem_map.2 ⟨q, hq, rfl⟩
    exact ⟨(List.of_mem_zip hz).1, List.of_mem_zip (List.of_mem_zip (List.of_mem_zip hz).2).2⟩
  have hV₁₉ : V₁ ⊆ V₉ := fun _ hx => hV₉ (hV₈ (hV₇ (hV₆ (hV₅ (hV₄ (hV₃ (hV₂ hx)))))))
  have hk₁₉ : k₁ ≤ k₉ := hk₂.trans (hk₃.trans (hk₄.trans (hk₅.trans (hk₆.trans (hk₇.trans (hk₈.trans hk₉))))))
  exact .pure
    { hist := rfl
      operator := fun q hq => (hpart hq).1
      groupSize := (he₁.imp fun _ hg => hgiven hg).mono hV₁₉ hk₁₉
      groupSize_fixed := fun g hg => hlit₁ g (hfixed hg)
      width := fun q hq => (hwidths _ (hpart hq).2.1).mono (fun _ hx => hV₉ (hV₈ hx)) (hk₈.trans hk₉)
      bucketSize := fun q hq => (hbuckets _ (hpart hq).2.2).mono hV₉ hk₉
      subs := fun q hq => ⟨(hparts q hq).1, (hparts q hq).2.2.2.1⟩ }

end GpuHistogram
