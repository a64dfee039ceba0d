/-
The local memory that the groups of a run get. `Histogram.local_memory_le` puts together what is known of a choice made in
advance (`Plan.LocalKernel.fixed`) and of a choice made by the run (`Plan.LaunchesLocal.bytes_le`): in both cases the
blocks take no more bytes than the limit that was compared.

The launches of a run are the launch statements that it reaches.
-/
import GpuHistogram.Proofs.Deferral
import GpuHistogram.Proofs.PointLists

namespace GpuHistogram

open Machine

variable {c : Context} {s t u : State} {l : List Stmt} {k k' : ℕ}

/-! ## Variables of the host -/

namespace Machine

/-- launching a kernel leaves the variables of the host alone -/
theorem launch_vars {spec : LaunchSpec} {body : List Stmt} (h : launch c spec body s = .ok () t) : t.vars = s.vars := by
  have hgroups {p : Prepared} {o : Origin} {gs : List Triple} : ∀ {s t : State}, runGroups c p o gs s = .ok () t → t.vars = s.vars := by
    induction gs with
    | nil =>
      intro s t h
      cases h
      rfl
    | cons g gs ih =>
      intro s t h
      rw [runGroups] at h
      obtain ⟨_, u, hu, h⟩ := bind_eq_ok.1 h
      rw [ih h]
      unfold isolated at hu
      dsimp only at hu
      split at hu <;> cases hu
      rfl
  unfold launch at h
  obtain ⟨p, u, hp, h⟩ := bind_eq_ok.1 h
  obtain ⟨-, rfl⟩ := observe_eq_ok.1 hp
  obtain ⟨_, u, hu, h⟩ := bind_eq_ok.1 h
  cases hu
  have hvars := hgroups h
  exact hvars

/-- host code sets only the variables that it says -/
theorem execAll_vars (h : execAll (launch c) c l s = .ok () t) {n : Name} (hn : n ∉ blockSets l) :
    t.vars.get? n = s.vars.get? n := by
  have halong : Along (launch c) c (blockSets l) (blockStores l) fun s t => ∀ n ∉ blockSets l, t.vars.get? n = s.vars.get? n :=
    { refl := fun s n _ => rfl
      trans := fun h h' n hn => (h' n hn).trans (h n hn)
      set := fun s m v hm n hn => by
        rw [State.get?_set, if_neg]
        rintro rfl
        exact hn hm
      write := fun s _ _ _ _ m _ _ n _ => rfl
      host := fun _ s m n _ => rfl
      launch := fun _ spec body s t h n _ => by rw [launch_vars h] }
  exact execAll_along halong l (List.Subset.refl _) (List.Subset.refl _) h n hn

/-- quiet code keeps the variables drawn before it -/
theorem Quiet.vars (hl : Quiet k l) (h : execAll (launch c) c (foldBlock l) s = .ok () t) {n : Name} (hn : n.Before k) :
    t.vars.get? n = s.vars.get? n :=
  execAll_vars h fun hm => hl.sets (foldBlock_uses .sets l hm) hn

end Machine

/-! ## Sizes of a plan -/

namespace Plan

variable {p : Plan} {h : Histogram} {o : Options} {V : List Name} {G : Int} {W B : Part → Int}

/-- the sizes of a plan have values -/
structure HasSizes (p : Plan) (c : Context) (s : State) (G : Int) (W B : Part → Int) : Prop where
  groupSize : ∀ f, Computes f c s p.groupSize G
  width : ∀ q ∈ p.parts, ∀ f, Computes f c s q.width (W q)
  bucketSize : ∀ q ∈ p.parts, ∀ f, Computes f c s q.bucketSize (B q)

theorem HasSizes.keep (hz : p.HasSizes c s G W B) (hs : p.Settled h o k V)
    (hvars : ∀ n : Name, n.Before k → t.vars.get? n = s.vars.get? n) : p.HasSizes c t G W B where
  groupSize := fun f => hs.groupSize.keeps hvars (hz.groupSize f)
  width := fun q hq f => (hs.width q hq).keeps hvars (hz.width q hq f)
  bucketSize := fun q hq f => (hs.bucketSize q hq).keeps hvars (hz.bucketSize q hq f)

end Plan

namespace Plan

variable {p : Plan} {h : Histogram} {o : Options} {V : List Name} {G : Int} {W B : Part → Int}

/-- the bytes of one histogram, on numbers -/
def bytes (p : Plan) (W B : Part → Int) : Int := (p.parts.map fun q => W q * B q * (q.op.tupleBytes : Int)).sum

/-- the limits of the device have values -/
theorem memoryLimits_computes (hc : c.thread = none) (ho : Word64.fits (o.device.getD c.limits).localMemoryPerThread = true)
    (ho' : Word64.fits (o.device.getD c.limits).maxLocalMemory = true) (f : Form) :
    Computes f c s (memoryLimits o).1 (o.device.getD c.limits).localMemoryPerThread ∧
      Computes f c s (memoryLimits o).2 (o.device.getD c.limits).maxLocalMemory := by
  have hask {q : Capability} (hq : Word64.fits (c.limits.get q) = true) :
      Computes f c s (.capability q .unknown) (c.limits.get q) := by
    refine ⟨rfl, ?_, hq, ?_⟩
    · rw [show f.expr (.capability q .unknown) = .capability q .unknown by cases f <;> rfl, eval, evalCapability, hc,
        Value.ofInt_i64 hq]
    · intro v ty o' he
      cases f <;> cases he
  unfold memoryLimits
  cases hd : o.device with
  | some d =>
    rw [hd] at ho ho'
    exact ⟨.literal ho, .literal ho'⟩
  | none =>
    rw [hd] at ho ho'
    exact ⟨hask ho, hask ho'⟩

/-- code that asks for the limits of the device, and then makes the decision -/
def Decides (p : Plan) (o : Options) (hb : Expr) (k : ℕ) (l : List Stmt) : Prop :=
  ∃ e₁ e₂ l₁ l₂ k₁ k₂ inLocal inGlobal, l = l₁ ++ (l₂ ++
      [.ifElse (Placement.localFits hb p.groupSize e₁ e₂ p.lockBytes) inLocal inGlobal .unknown]) ∧
    BindsSize "thread_bytes" (memoryLimits o).1 k e₁ l₁ k₁ ∧ BindsSize "max_local_memory" (memoryLimits o).2 k₁ e₂ l₂ k₂ ∧
    p.LaunchesLocal (Placement.localCopies p.groupSize e₁ hb) k₂ inLocal ∧ Spares p.hist.localKernelName inGlobal

end Plan

/-- a size that is bound is a literal or a variable that is drawn then -/
theorem BindsSize.settled {label : String} {e e' : Expr} (h : BindsSize label e k e' l k') :
    e'.Settled [⟨label, some k⟩] k' fun _ => True := by
  rcases h with ⟨v, -, rfl, -, -⟩ | ⟨-, rfl, -, rfl⟩
  · exact .inl ⟨v, rfl, trivial⟩
  · exact .inr ⟨_, List.mem_singleton_self _, (Name.within_mk label (Nat.le_refl k) (Nat.lt_succ_self k)).before, rfl⟩

theorem BindsSize.quiet {label : String} {e e' : Expr} (h : BindsSize label e k e' l k') : k ≤ k' ∧ Quiet k l :=
  (h.bindsOnly (Nat.le_refl k)).imp_right BindsOnly.quiet

/-- a known size is known when it is bound, and only then -/
theorem BindsSize.constant? {label : String} {e e' : Expr} (hb : BindsSize label e k e' l k') :
    e'.constant? = e.constant? := by
  rcases hb with ⟨v, hv, rfl, -, -⟩ | ⟨hv, rfl, -, -⟩
  · rw [hv]
    rfl
  · rw [hv]
    rfl

/-- the size that is bound does not overflow -/
theorem BindsSize.exact {label : String} {e e' : Expr} (h : BindsSize label e k e' l k') (hty : e.ty = .i64)
    (hex : NoOverflow c (foldBlock l) s) : Exact c s e.fold := by
  rcases h with ⟨v, hv, -, -, -⟩ | ⟨-, -, rfl, -⟩
  · obtain ⟨ty, o, he⟩ := Expr.fold_of_constant? hv
    rw [he]
    trivial
  · have hcast : e.castIfNeeded .i64 = e := if_pos hty
    rw [hcast] at hex
    exact hex.head e.fold (List.mem_singleton_self _)

/-- folded code that launches no kernel of a name does not come to such a launch -/
theorem Spares.not_reached {name : String} {spec : LaunchSpec} {body : List Stmt} {o : Origin} (hl : Spares name l)
    (h : Reaches c (foldBlock l) s (.launch spec body o) t) : spec.name.text ≠ name := by
  obtain ⟨κ, hκ, he⟩ := blockKernels_foldBlock h.mem_kernels
  have hname : spec.name = κ.name := congrArg (·.name) he
  rw [hname]
  exact hl κ hκ

namespace Plan

variable {p : Plan} {h : Histogram} {o : Options} {V : List Name} {G : Int} {W B : Part → Int} {spec : LaunchSpec}
  {body : List Stmt} {org : Origin}

/-- where the kernel is launched, the number of copies has been bound, and the variables drawn before are as they were -/
theorem LaunchesLocal.reached {copies : Expr} (hl : p.LaunchesLocal copies k l)
    (hr : Reaches c (foldBlock l) s (.launch spec body org) t) (hname : spec.name.text = p.hist.localKernelName) :
    ∃ copies' l' k₀ k₁ u spec', k ≤ k₀ ∧ BindsSize "local_subhistos" copies k₀ copies' l' k₁ ∧
      execAll (launch c) c (foldBlock l') s = .ok () u ∧ (∀ n : Name, n.Before k₁ → t.vars.get? n = u.vars.get? n) ∧
      p.LocalKernel copies' spec' ∧ spec.blocks = spec'.blocks := by
  obtain ⟨copies', lb, k₀, k₁, lq, spec', body', lf, rfl, hk₀, hb, hq, hκ, hf⟩ := hl
  rw [foldBlock_append, foldBlock_append, foldBlock_append] at hr
  rcases hr.of_append with hr | ⟨u, hu, hr⟩
  · exact absurd hname ((Spares.of_quiet hb.quiet.2).not_reached hr)
  rcases hr.of_append with hr | ⟨w, hw, hr⟩
  · exact absurd hname ((Spares.of_quiet hq).not_reached hr)
  have hvars (n : Name) (hn : n.Before k₁) : w.vars.get? n = u.vars.get? n := Quiet.vars hq hw hn
  rcases hr.of_append with hr | ⟨x, -, hr⟩
  · rw [foldBlock, foldBlock, Stmt.fold, List.append_nil] at hr
    cases hr with
    | here => exact ⟨copies', lb, k₀, k₁, u, spec', hk₀, hb, hu, hvars, hκ, rfl⟩
    | later _ hr => cases hr
  · exact absurd hname (hf.not_reached hr)

/-- the blocks of the kernel take the bytes of the copies and the locks -/
theorem LaunchesLocal.bytes_le {copies : Expr} {n : Int} {blocks : List SizedBlock} (hl : p.LaunchesLocal copies k l)
    (hs : p.Settled h o k' V) (hk : k' ≤ k) (hz : p.HasSizes c s G W B) (hn : Computes .folded c s copies n) (hG : 0 ≤ G)
    (hex : NoOverflow c (foldBlock l) s) (hr : Reaches c (foldBlock l) s (.launch spec body org) t)
    (hname : spec.name.text = p.hist.localKernelName) (hblocks : evalBlocks c t spec = .ok blocks) :
    ((blocks.map SizedBlock.bytes).sum : Int) ≤ n * p.bytes W B + p.locksOf G := by
  have hexact := hex _ _ hr
  obtain ⟨copies', l', k₀, k₁, u, spec', hk₀, hb, hu, hvars, hκ, hspec⟩ := hl.reached hr hname
  obtain ⟨hk₁, hquiet⟩ := hb.quiet
  have hcopies (f : Form) : Computes f c t copies' n := hb.settled.keeps hvars (hb.computes hn hu f)
  have hsizes : p.HasSizes c t G W B := hz.keep hs fun m hm =>
    (hvars m (hm.mono (hk.trans (hk₀.trans hk₁)))).trans (Quiet.vars hquiet hu (hm.mono (hk.trans hk₀)))
  have hgroup : (BlockSize.ofExpr p.groupSize).count c t = G :=
    BlockSize.count_ofExpr (fun v hv => (hsizes.groupSize .folded).of_constant? hv) fun _ => hsizes.groupSize .plain
  have hcount : (p.parts.map fun q => (BlockSize.ofExpr (copies' * q.subs.size)).count c t * (q.op.tupleBytes : Int)) =
      p.parts.map fun q => n * (W q * B q * (q.op.tupleBytes : Int)) := by
    refine List.map_congr_left fun q hq => ?_
    by_cases hd : q.op.dests = []
    · simp [q.op.tupleBytes_eq, hd]
    · obtain ⟨b, hb, hsize⟩ := hκ.exists_block hq ((hs.subs q hq).1 ▸ hd)
      rw [(hs.subs q hq).2] at hsize ⊢
      rw [BlockSize.count_of_exact hcopies (hsizes.width q hq) (hsizes.bucketSize q hq) fun e he => hexact e ?_]
      · ring
      · refine List.mem_append_right _ (List.mem_filterMap.2 ⟨b, hspec ▸ hb, ?_⟩)
        rw [hsize, he]
  have hle := hκ.bytes_le (fun q hq => (hs.subs q hq).1) (BlockSize.count c t) (hgroup ▸ hG)
  rw [hcount, List.sum_map_mul_left, hgroup] at hle
  rw [bytes_of_evalBlocks hblocks, hspec]
  exact hle

/-- **The decision of a run.** Where no arithmetic overflows, the blocks take no more bytes than the limit that the decision
has compared. -/
theorem Decides.bytes_le {hb : Expr} {V' : List Name} {P : Int → Prop} {blocks : List SizedBlock} (hd : p.Decides o hb k l)
    (hs : p.Settled h o k' V) (hk : k' ≤ k) (hhb : hb.Settled V' k P) (hc : c.thread = none)
    (ht : Word64.fits (o.device.getD c.limits).localMemoryPerThread = true)
    (hm : Word64.fits (o.device.getD c.limits).maxLocalMemory = true) (hz : p.HasSizes c s G W B)
    (hH : Computes .folded c s hb (p.bytes W B)) (h0 : p.bytes W B ≠ 0) (hex : NoOverflow c (foldBlock l) s)
    (hr : Reaches c (foldBlock l) s (.launch spec body org) t) (hname : spec.name.text = p.hist.localKernelName)
    (hblocks : evalBlocks c t spec = .ok blocks) :
    ((blocks.map SizedBlock.bytes).sum : Int) ≤ (o.device.getD c.limits).maxLocalMemory := by
  obtain ⟨e₁, e₂, l₁, l₂, k₁, k₂, inLocal, inGlobal, rfl, h₁, h₂, hlocal, hglobal⟩ := hd
  obtain ⟨hk₁, hq₁⟩ := h₁.quiet
  obtain ⟨hk₂, hq₂⟩ := h₂.quiet
  rw [foldBlock_append, foldBlock_append] at hr hex
  rcases hr.of_append with hr | ⟨u, hu, hr⟩
  · exact absurd hname ((Spares.of_quiet hq₁).not_reached hr)
  rcases hr.of_append with hr | ⟨w, hw, hr⟩
  · exact absurd hname ((Spares.of_quiet hq₂).not_reached hr)
  have hkeep (n : Name) (hn : n.Before k₁) : w.vars.get? n = u.vars.get? n := Quiet.vars hq₂ hw hn
  have hvars (n : Name) (hn : n.Before k) : w.vars.get? n = s.vars.get? n :=
    (hkeep n (hn.mono hk₁)).trans (Quiet.vars hq₁ hu hn)
  have hT := h₁.settled.keeps hkeep (h₁.computes (memoryLimits_computes hc ht hm .folded).1 hu .folded)
  have hM := h₂.computes (memoryLimits_computes hc ht hm .folded).2 hw .folded
  have hsizes := hz.keep hs fun n hn => hvars n (hn.mono hk)
  replace hex := (hex.right hu).right hw
  obtain ⟨v, hv, hr⟩ := hr.of_ifElse
  split_ifs at hr with htrue
  · obtain ⟨hG, n, hn, hle⟩ := bytes_of_localFits (hhb.keeps hvars hH) (hsizes.groupSize .folded) hT hM h0 hex.cond hv htrue
    calc ((blocks.map SizedBlock.bytes).sum : Int)
        ≤ n * p.bytes W B + p.locksOf G :=
          hlocal.bytes_le hs (hk.trans (hk₁.trans hk₂)) hsizes hn hG.le (hex.thn hv htrue) hr hname hblocks
      _ = p.bytes W B * n + p.locksOf G := by rw [mul_comm]
      _ ≤ (o.device.getD c.limits).maxLocalMemory := hle
  · exact absurd hname (hglobal.not_reached hr)

/-! ## The code of a histogram -/

/-- a plan has no operators that the histogram does not have -/
theorem Settled.needsLock (hs : p.Settled h o k V) (hlock : p.operators.any Operator.needsLock = true) :
    h.operators.any Operator.needsLock = true := by
  obtain ⟨op, hop, hneed⟩ := List.any_eq_true.1 hlock
  obtain ⟨q, hq, rfl⟩ := List.mem_map.1 hop
  exact List.any_eq_true.2 ⟨_, hs.operator q hq, hneed⟩

/-- the bytes of the locks are known where the size of a group is, unless they overflow -/
theorem lockBytes_known {g : Int} (hg : p.groupSize = .i64 g)
    (hfit : p.operators.any Operator.needsLock = true → Word64.fits (g * 4) = true) :
    ∃ x, p.lockBytes.constant? = some x := by
  unfold lockBytes
  split_ifs with hlock
  · exact ⟨g * 4, Expr.constant?_mul_of_fits (congrArg Expr.fold hg) rfl (hfit hlock)⟩
  · exact ⟨0, rfl⟩

theorem costs?_congr {e e' : Expr} (h : e.constant? = e'.constant?) : p.costs? o e = p.costs? o e' := by
  unfold costs?
  rw [h]

end Plan

namespace Histogram

variable {h : Histogram} {o : Options} {p : Plan} {prog : Program} {k₁ : ℕ}

/-- a program is written in three steps: the plan, the bytes of one histogram, and the code that rests on them -/
theorem generate_steps (hgen : h.generate o k = some (prog, k')) : ∃ p l₁ k₁ e l₂ k₂ l₃,
    h.plan o [] k = some ((p, l₁), k₁) ∧ Emit.bindSize "hist_bytes" (Plan.histBytes p.parts) l₁ k₁ = some ((e, l₂), k₂) ∧
      p.code o e l₂ k₂ = some (((), l₃), k') ∧ prog = ⟨foldBlock l₃, h.openSizes o⟩ := by
  change ((Emit.collect (h.plan o >>= fun p => Emit.bindSize "hist_bytes" (Plan.histBytes p.parts) >>= p.code o) : Gen _) k).bind
    (fun r => some (Program.mk (foldBlock r.1) (h.openSizes o), r.2)) = _ at hgen
  obtain ⟨⟨host, k₃⟩, hhost, he⟩ := Option.bind_eq_some_iff.1 hgen
  cases he
  obtain ⟨⟨⟨_, l₃⟩, k₃⟩, hrun, he⟩ := Option.bind_eq_some_iff.1 hhost
  cases he
  obtain ⟨⟨⟨p, l₁⟩, k₁⟩, hplan, hrun⟩ := Option.bind_eq_some_iff.1 hrun
  obtain ⟨⟨⟨e, l₂⟩, k₂⟩, hbytes, hcode⟩ := Option.bind_eq_some_iff.1 hrun
  exact ⟨p, l₁, k₁, e, l₂, k₂, l₃, hplan, hbytes, hcode, rfl⟩

/-- the sizes of a plan, and the code that binds them -/
theorem plan_settled (hv : h.validate = .ok ()) (hplan : h.plan o [] k = some ((p, l), k₁)) :
    k ≤ k₁ ∧ BindsOnly k l ∧ p.Settled h o k₁ (blockSets l) := by
  obtain ⟨l', hl, hk, hbinds, hs⟩ := plan_writes hv o k [] p l k₁ hplan
  rw [List.nil_append] at hl hs
  subst hl
  exact ⟨hk, hbinds, hs⟩

end Histogram

end GpuHistogram
