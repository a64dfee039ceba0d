/-
What an update does when no other thread interferes. Each method stores at an address of the target arrays whatever the
combiner gives for the tuple there and the given values, and changes nothing else but its own variables
(`casLoop_stores`, `lockedUpdate_stores`, `primitiveUpdate_stores`). A lock that is free before is free afterwards.
-/
import GpuHistogram.Histogram.Update
import GpuHistogram.Proofs.Tuples

namespace GpuHistogram

theorem Tuple.cells_single {sc : Scalar} (x : Tuple [sc]) : x.cells = [x.cell 0] := x.cells_of_single rfl

namespace Machine

variable {f : Form} {L : LaunchSpec → List Stmt → Exec Unit} {c : Context} {s t : State} {Q : State → Prop}

/-! ## Truth values and bits -/

theorem Evals.truth (b : Bool) : Evals f c s (.truth b) (.bool b) := by
  cases f <;> rfl

theorem Evals.notVar {n : Name} {v : Value} (h : s.vars.get? n = some v) :
    Evals f c s (.not (.typed n .bool)) (.bool (!v.truth)) := by
  have hv : eval c s (.unary .not (.typed n .bool) .bool .unknown) = .ok (.bool (!v.truth)) := by
    rw [eval, Expr.typed, eval, h]
    rfl
  cases f <;> exact hv

theorem Evals.sameBits {e : Expr} {v : Value} {sc : Scalar} (h : Evals f c s e v) (hb : v.scalar.bytes = sc.bytes) :
    Evals f c s (e.sameBits sc) (.ofBits v.toBits sc) := by
  have hv (e : Expr) (he : eval c s e = .ok v) : eval c s (.bitCast e (.scalar sc)) = .ok (.ofBits v.toBits sc) := by
    rw [eval, he]
    change castBits v sc e.origin = _
    rw [castBits, if_pos hb]
  cases f <;> exact hv _ h

theorem Evals.eqVar {n : Name} {e : Expr} {x y : Int} {sc sc' : Scalar} (h : s.vars.get? n = some (.int x sc))
    (he : Evals f c s e (.int y sc')) : Evals f c s ((Expr.scalarVar n sc).eq e) (.bool (decide (x = y))) := by
  have hv (e : Expr) (he : eval c s e = .ok (.int y sc')) :
      eval c s (.binary .eq (.scalarVar n sc) e .bool .unknown) = .ok (.bool (decide (x = y))) := by
    rw [eval_binary rfl, Expr.scalarVar, Expr.typed, eval, h, he]
    rfl
  cases f with
  | plain => exact hv _ he
  | folded => exact hv _ he

theorem Evals.literal (v : Int) (sc : Scalar) : Evals f c s (.literal v sc) (.ofInt v sc) := by
  cases f <;> rfl

end Machine

open Machine

variable {f : Form} {L : LaunchSpec → List Stmt → Exec Unit} {c : Context} {s : State} {Q : State → Prop}

/-! ## Comparing and swapping -/

/-- the variables of the loop -/
def CasNames.all (ns : CasNames) : List Name := [ns.idx, ns.y, ns.assumed, ns.old, ns.x, ns.done]

section CompareSwap

variable {ns : CasNames} {sc : Scalar} {sp : Space} {F : Combiner} {n : Name} {addr value : Expr} {a : ℕ}
  {x y z : Tuple [sc]}

/-- an attempt succeeds if the word in memory is the one assumed -/
theorem casAttempt_stores (hF : F.Shaped [sc]) (hns : ns.all.Nodup) (hown : ∀ m ∈ ns.all, m ∉ F.locals)
    (hx : Value.ofBits (x.cell 0).toBits sc = x.cell 0) (hz : Value.ofBits (z.cell 0).toBits sc = z.cell 0)
    (hrow : s.memory.Row [n] [sc] a x) (hfit : Word64.fits (a : Int) = true)
    (hidx : s.vars.get? ns.idx = some (.word a)) (hy : s.vars.get? ns.y = some (y.cell 0))
    (hassumed : s.vars.get? ns.assumed = some (.ofBits (x.cell 0).toBits sc.bitPattern))
    (hres : ∀ t, Keeps ns.all [] s t → F.Gives f L c ns.all t (x.cells ++ y.cells) z.cells)
    (hq : ∀ t, Keeps (F.locals ++ ns.all) [n] s t → t.vars.get? ns.done = some (.bool true) →
      Memory.Stored [n] [sc] a z s.memory t.memory → Q t) :
    Runs f L c (casAttempt ns sc sp F n) s Q := by
  have hcas := hns
  simp only [CasNames.all, List.nodup_cons, List.mem_cons, List.not_mem_nil, or_false, not_or] at hcas
  have hmem (m : Name) (hm : m ∈ ns.all) : m ∈ F.locals ++ ns.all := List.mem_append_right _ hm
  have hparam (m : Name) (hm : m ∈ ns.all) : m ∉ F.names := fun h => hown m hm (List.mem_append_left _ h)
  obtain ⟨hxin, holdin, hdonein⟩ : ns.x ∈ ns.all ∧ ns.old ∈ ns.all ∧ ns.done ∈ ns.all := by simp [CasNames.all]
  set w := x.cell 0
  set r := z.cell 0
  have hw : w.Fits sc := x.fits_cell rfl
  have hr : r.Fits sc := z.fits_cell rfl
  obtain ⟨i, hi, -⟩ := (Value.fits_ofBits w.toBits sc.bitPattern).of_isInteger (Scalar.isInteger_bitPattern sc)
  unfold casAttempt
  have hassume : Evals f c s ((Expr.scalarVar ns.assumed sc.bitPattern).sameBits sc) w := by
    have hbits : (Value.ofBits w.toBits sc.bitPattern).scalar.bytes = sc.bytes := by
      rw [Value.scalar_ofBits, Scalar.bytes_bitPattern]
    have h : Evals f c s ((Expr.scalarVar ns.assumed sc.bitPattern).sameBits sc) _ :=
      (Evals.scalarVar hassumed).sameBits hbits
    rwa [Value.ofBits_bitPattern, hx] at h
  refine Runs.bind rfl hassume hw (Runs.cons ?_)
  have hk₁ : Keeps ns.all [] s (s.set ns.x w) := .set hxin w
  refine F.apply_gives hF (x := x) (y := y) (z := z) rfl rfl (List.nodup_singleton _) (List.cons_subset.2 ⟨hxin, List.nil_subset _⟩)
    ?_ ?_ (hres _ hk₁) ?_
  · intro i e sc' he hsc
    rcases i with _ | _ | i <;> cases he <;> cases hsc <;> rfl
  · intro t ht i e v he hv
    rw [x.cells_single, y.cells_single] at hv
    rcases i with _ | _ | i <;> cases he <;> cases hv
    · exact .scalarVar (by rw [ht.vars _ (hparam _ hxin), State.get?_set, if_pos rfl])
    · refine .scalarVar ?_
      rw [ht.vars _ (hparam _ (by simp [CasNames.all])), State.get?_set, if_neg (by grind), hy]
  intro t ht hrt
  have hkt : Keeps (F.locals ++ ns.all) [] s t :=
    (hk₁.mono (List.subset_append_right _ _) (List.Subset.refl _)).trans
      (ht.mono (List.append_subset.2 ⟨List.subset_append_left _ _, List.cons_subset.2 ⟨hmem _ hxin, List.nil_subset _⟩⟩)
        (List.Subset.refl _))
  have hsame (m : Name) (hm : m ∈ ns.all) (hne : ns.x ≠ m) : t.vars.get? m = s.vars.get? m := by
    rw [ht.vars m (by simp [hown m hm, hne.symm]), State.get?_set, if_neg hne]
  have htidx : t.vars.get? ns.idx = some (.word a) := (hsame _ (by simp [CasNames.all]) (by grind)).trans hidx
  have htassumed : t.vars.get? ns.assumed = some (.ofBits w.toBits sc.bitPattern) :=
    (hsame _ (by simp [CasNames.all]) (by grind)).trans hassumed
  have htx : t.vars.get? ns.x = some r := hrt 0 _ _ rfl (by rw [z.cells_single]; rfl)
  obtain ⟨len, g, hg, ha, hga⟩ := hrow.column 0 n sc rfl rfl
  have hcol : t.memory.Column n sc len g := hg.keeps ht.memory fun _ h => absurd h List.not_mem_nil
  have hread : t.memory.read n a = .ok w := by rw [hcol.read_run ha, hga]
  have hbits : r.scalar.bytes = sc.bitPattern.bytes := by
    rw [hr.scalar_eq, Scalar.bytes_bitPattern]
  obtain ⟨m, hm, -⟩ := hcol.write ha r
  rw [hga] at hm
  have hnew : Value.ofBits (Value.ofBits r.toBits sc.bitPattern).toBits sc = r := by rw [Value.ofBits_bitPattern, hz]
  refine Runs.compareSwap (v := .ofBits r.toBits sc.bitPattern) (Computes.ofName htidx hfit).evals
    (Value.toInt64_word hfit) (.scalarVar htassumed) ((Evals.scalarVar htx).sameBits hbits) hread
    (Value.bitPattern_ofBits _ _).symm (hnew.symm ▸ hm) ?_
  set u := ({ t with memory := m } : State).set ns.old (.ofBits w.toBits sc.bitPattern)
  have hkw : Memory.Keeps [n] t.memory m := .write hm (List.mem_singleton_self n)
  have hku : Keeps (F.locals ++ ns.all) [n] t u :=
    Keeps.trans (t := { t with memory := m }) ⟨fun _ _ => rfl, hkw, rfl⟩ (.set (hmem _ holdin) _)
  have huold : u.vars.get? ns.old = some (.int i sc.bitPattern) := by
    rw [State.get?_set, if_pos rfl, hi]
  have huassumed : u.vars.get? ns.assumed = some (.int i sc.bitPattern) := by
    rw [State.get?_set, if_neg (by grind), ← hi]
    exact htassumed
  refine Runs.ifElse (Evals.eqVar huold (.scalarVar huassumed)) ?_
  simp only [decide_true, Value.truth, if_true]
  refine Runs.storeVar (Evals.truth true) (Runs.nil ?_)
  have hkt' : Keeps (F.locals ++ ns.all) [n] s t := hkt.mono (List.Subset.refl _) (List.nil_subset _)
  refine hq _ ((hkt'.trans hku).trans (.set (hmem _ hdonein) _)) (by rw [State.get?_set, if_pos rfl]; rfl) ?_
  exact (Memory.Stored.write hm hcol ha).keeps hkt.memory (.refl [] _)
    (fun _ _ _ h => absurd h List.not_mem_nil) fun _ _ _ h => absurd h List.not_mem_nil

/-- **Comparing and swapping.** The loop stores what the combiner gives for the word at the address in its first round. -/
theorem casLoop_stores (hF : F.Shaped [sc]) (hns : ns.all.Nodup) (hown : ∀ m ∈ ns.all, m ∉ F.locals)
    (hx : Value.ofBits (x.cell 0).toBits sc = x.cell 0) (hz : Value.ofBits (z.cell 0).toBits sc = z.cell 0)
    (hlim : 0 < c.rounds) (hrow : s.memory.Row [n] [sc] a x) (hty : value.ty = .scalar sc)
    (haddr : Computes f c s addr a) (hval : ∀ t, Keeps ns.all [] s t → Evals f c t value (y.cell 0))
    (hres : ∀ t, Keeps ns.all [] s t → F.Gives f L c ns.all t (x.cells ++ y.cells) z.cells)
    (hq : ∀ t, Keeps (F.locals ++ ns.all) [n] s t → Memory.Stored [n] [sc] a z s.memory t.memory → Q t) :
    Runs f L c (casLoop ns sc sp F n addr value) s Q := by
  have hcas := hns
  simp only [CasNames.all, List.nodup_cons, List.mem_cons, List.not_mem_nil, or_false, not_or] at hcas
  have hset (t : State) (m : Name) (v : Value) (hm : m ∈ ns.all) : Keeps ns.all [] t (t.set m v) := .set hm v
  have hw : (x.cell 0).Fits sc := x.fits_cell rfl
  unfold casLoop
  refine Runs.bindWord haddr ?_
  set s₁ := s.set ns.idx (.word a)
  have h₁ : Keeps ns.all [] s s₁ := hset _ _ _ (by simp [CasNames.all])
  refine Runs.bind hty (hval s₁ h₁) (y.fits_cell rfl) ?_
  set s₂ := s₁.set ns.y (y.cell 0)
  have h₂ : Keeps ns.all [] s s₂ := h₁.trans (hset _ _ _ (by simp [CasNames.all]))
  have hidx : s₂.vars.get? ns.idx = some (.word a) := by
    rw [State.get?_set, if_neg (by grind), State.get?_set, if_pos rfl]
  obtain ⟨len, g, hg, ha, hga⟩ := hrow.column 0 n sc rfl rfl
  have hread : Evals f c s₂ (.element n sc sp (.ofName ns.idx)) (x.cell 0) :=
    hga ▸ .element (k := a) (.ofName hidx haddr.fits) hg ha
  refine Runs.bind rfl (hread.sameBits (by rw [hw.scalar_eq, Scalar.bytes_bitPattern])) (Value.fits_ofBits _ _) ?_
  set s₃ := s₂.set ns.assumed (.ofBits (x.cell 0).toBits sc.bitPattern)
  refine Runs.bind rfl (Evals.truth false) rfl ?_
  set s₄ := s₃.set ns.done (.bool false)
  have h₄ : Keeps ns.all [] s s₄ :=
    (h₂.trans (hset _ _ _ (by simp [CasNames.all]))).trans (hset _ _ _ (by simp [CasNames.all]))
  have hdone : s₄.vars.get? ns.done = some (.bool false) := by rw [State.get?_set, if_pos rfl]
  refine Runs.once (w := .bool false) hlim (Evals.notVar hdone) rfl ?_ rfl
  refine casAttempt_stores hF hns hown hx hz hrow haddr.fits ?_ ?_ ?_ (fun t ht => hres t (h₄.trans ht))
    fun t ht hd hst => ⟨Evals.notVar hd, hq t ?_ hst⟩
  · rw [State.get?_set, if_neg (by grind), State.get?_set, if_neg (by grind), hidx]
  · rw [State.get?_set, if_neg (by grind), State.get?_set, if_neg (by grind), State.get?_set, if_pos rfl]
  · rw [State.get?_set, if_neg (by grind), State.get?_set, if_pos rfl]
  · exact (h₄.mono (List.subset_append_right _ _) (List.nil_subset _)).trans ht

end CompareSwap

/-! ## Updating under a lock -/

/-- the variables of the update -/
def LockNames.all (ns : LockNames) : List Name := [ns.idx, ns.lock, ns.prev, ns.done] ++ (ns.ys ++ ns.xs)

section Locked

variable {ns : LockNames} {tb : LockTable} {sp : Space} {op : Operator} {targets : List Name} {addr : Expr}
  {values : List Expr} {a k locks : ℕ} {x y z : Tuple op.scalars} {g : ℕ → Value}

/-- under the lock the tuple is combined, and then the lock is given back -/
theorem criticalSection_stores (hF : op.combiner.Shaped op.scalars) (hns : ns.all.Nodup)
    (hown : ∀ m ∈ ns.all, m ∉ op.combiner.locals)
    (hxs : ns.xs.length = op.scalars.length) (hys : ns.ys.length = op.scalars.length)
    (hrow : s.memory.Row targets op.scalars a x) (hfit : Word64.fits (a : Int) = true)
    (hlocks : s.memory.Column tb.name .i32 locks g) (hk : k < locks) (hkfit : Word64.fits (k : Int) = true)
    (hap : s.memory.Apart targets tb.name)
    (hidx : s.vars.get? ns.idx = some (.word a)) (hlock : s.vars.get? ns.lock = some (.word k))
    (hy : Holds s ns.ys y.cells)
    (hres : ∀ t, Keeps ns.all [] s t → op.combiner.Gives f L c ns.all t (x.cells ++ y.cells) z.cells)
    (hq : ∀ t, Keeps (op.combiner.locals ++ ns.all) (tb.name :: targets) s t →
      t.vars.get? ns.done = some (.bool true) → Memory.Stored targets op.scalars a z s.memory t.memory →
      t.memory.Column tb.name .i32 locks (Function.update g k (.int 0 .i32)) → Q t) :
    Runs f L c (criticalSection ns tb sp op targets) s Q := by
  have hK := hrow.length_eq
  have hxin : ns.xs ⊆ ns.all := by
    intro m hm
    simp [LockNames.all, hm]
  have hyin : ns.ys ⊆ ns.all := by
    intro m hm
    simp [LockNames.all, hm]
  have hxnd : ns.xs.Nodup := (hns.of_append_right).of_append_right
  have hparam {m : Name} (hm : m ∈ ns.all) : m ∉ op.combiner.names := fun h => hown m hm (List.mem_append_left _ h)
  have hyx {m : Name} (hm : m ∈ ns.ys) : m ∉ ns.xs :=
    fun h => List.disjoint_of_nodup_append hns.of_append_right hm h
  have hother {m : Name} (hm : m ∈ [ns.idx, ns.lock, ns.prev, ns.done]) : m ∉ ns.xs :=
    fun h => List.disjoint_of_nodup_append hns hm (List.mem_append_right _ h)
  have hotherin {m : Name} (hm : m ∈ [ns.idx, ns.lock, ns.prev, ns.done]) : m ∈ ns.all := List.mem_append_left _ hm
  have hplaces : (ns.xs.zip (targets.zip op.scalars)).map (fun p => p.1) = ns.xs := by
    rw [map_zip_fst (fun m : Name => m) (by rw [List.length_zip, hxs, hK, Nat.min_self]), List.map_id']
  have htargets : (ns.xs.zip (targets.zip op.scalars)).map (fun p => p.2.1) = targets := by
    rw [map_zip_snd (fun m : Name × Scalar => m.1) (by rw [List.length_zip, hxs, hK, Nat.min_self]),
      map_zip_fst (fun m : Name => m) hK.le, List.map_id']
  have hscalars : (ns.xs.zip (targets.zip op.scalars)).map (fun p => p.2.2) = op.scalars := by
    rw [map_zip_snd (fun m : Name × Scalar => m.2) (by rw [List.length_zip, hxs, hK, Nat.min_self]),
      map_zip_snd (fun m : Scalar => m) hK.ge, List.map_id']
  have hvars : op.combiner.locals ++ ns.xs ⊆ op.combiner.locals ++ ns.all :=
    List.append_subset.2 ⟨List.subset_append_left _ _, List.Subset.trans hxin (List.subset_append_right _ _)⟩
  unfold criticalSection
  refine Runs.append (Runs.append (Runs.append ?_))
  -- the tuple is read
  refine Runs.readRow (ns.xs.zip (targets.zip op.scalars)) (fun p => p.1) (fun p => p.2.1) (fun p => p.2.2)
    hscalars (by rwa [hplaces]) (fun t ht => ?_) (by rwa [htargets]) ?_
  · rw [hplaces] at ht
    exact .ofName ((ht.vars _ (hother (by simp))).trans hidx) hfit
  intro t₁ ht₁ hx₁
  rw [hplaces] at ht₁ hx₁
  have hk₁ : Keeps ns.all [] s t₁ := ht₁.mono hxin (List.Subset.refl _)
  -- it is combined with the values
  refine op.combiner.apply_gives hF (x := x) (y := y) (z := z) hxs ?_ hxnd hxin ?_ ?_ (hres t₁ hk₁) ?_
  · simp [hxs, hys]
  · intro i e sc he hsc
    rw [List.getElem?_map, Option.map_eq_some_iff] at he
    obtain ⟨p, hp, rfl⟩ := he
    rw [List.getElem?_zip_eq_some] at hp
    rw [hp.2, Option.some.injEq] at hsc
    exact congrArg Ty.scalar hsc
  · intro t ht i e v he hv
    rw [List.getElem?_map, Option.map_eq_some_iff] at he
    obtain ⟨p, hp, rfl⟩ := he
    rw [List.getElem?_zip_eq_some] at hp
    refine .scalarVar ?_
    have hxy : Holds t (ns.xs ++ ns.ys) (x.cells ++ y.cells) := by
      intro j n w hn hw
      rw [List.getElem?_append] at hn hw
      rw [x.length_eq, ← hxs] at hw
      split_ifs at hn hw
      · exact (hx₁.keeps ht fun m hm => hparam (hxin hm)) j n w hn hw
      · exact ((hy.keeps ht₁ fun m hm => hyx hm).keeps ht fun m hm => hparam (hyin hm)) _ n w hn hw
    exact hxy i _ v hp.1 hv
  intro t₂ ht₂ hx₂
  have hk₂ : Keeps (op.combiner.locals ++ ns.all) [] s t₂ :=
    (hk₁.mono (List.subset_append_right _ _) (List.Subset.refl _)).trans (ht₂.mono hvars (List.Subset.refl _))
  have hsame {m : Name} (hm : m ∈ [ns.idx, ns.lock, ns.prev, ns.done]) : t₂.vars.get? m = s.vars.get? m := by
    rw [ht₂.vars m (by simp [hown m (hotherin hm), hother hm]), ht₁.vars m (hother hm)]
  have hnone {m : Memory} (n : Name) : m.Apart [] n := fun _ h => absurd h List.not_mem_nil
  have hrow₂ : t₂.memory.Row targets op.scalars a x := hrow.keeps hk₂.memory fun n _ => hnone n
  -- the result is written
  refine Runs.writeRow (ns.xs.zip (targets.zip op.scalars)) (fun p => p.2.1) (fun p => p.2.2)
    (fun p => .scalarVar p.1 p.2.2) z hscalars (fun t ht => ?_) (fun t ht i e v he hv => ?_) (by rwa [htargets]) ?_
  · exact .ofName ((ht.vars _ (by simp)).trans ((hsame (by simp)).trans hidx)) hfit
  · rw [List.getElem?_map, Option.map_eq_some_iff] at he
    obtain ⟨p, hp, rfl⟩ := he
    rw [List.getElem?_zip_eq_some] at hp
    exact .scalarVar ((ht.vars _ (by simp)).trans (hx₂ i _ v hp.1 hv))
  intro t₃ ht₃ hst₃
  rw [htargets] at ht₃ hst₃
  have hk₃ : Keeps (op.combiner.locals ++ ns.all) (tb.name :: targets) s t₃ :=
    (hk₂.mono (List.Subset.refl _) (List.nil_subset _)).trans
      (ht₃.mono (List.nil_subset _) (List.subset_cons_self _ _))
  -- and the lock is given back
  have hlocks₃ : t₃.memory.Column tb.name .i32 locks g :=
    (hlocks.keeps hk₂.memory (hnone _)).keeps ht₃.memory (hap.keeps hk₂.memory)
  have hlock₃ : t₃.vars.get? ns.lock = some (.word k) := (ht₃.vars _ (by simp)).trans ((hsame (by simp)).trans hlock)
  obtain ⟨m, hm, hfree⟩ := hlocks₃.write hk (.int 0 .i32)
  have hkm : Memory.Keeps [tb.name] t₃.memory m := .write hm (List.mem_singleton_self _)
  refine Runs.fence (Runs.atomic (Computes.ofName hlock₃ hkfit).evals (Value.toInt64_word hkfit)
    (Evals.literal unlocked .i32) (hlocks₃.read_run hk) rfl hm ?_)
  have hk₄ : Keeps (op.combiner.locals ++ ns.all) (tb.name :: targets) s { t₃ with memory := m } :=
    hk₃.trans ⟨fun _ _ => rfl, hkm.mono (by simp), rfl⟩
  refine Runs.storeVar (Evals.truth true) (Runs.nil ?_)
  refine hq _ (hk₄.trans (.set (List.mem_append_right _ (hotherin (by simp))) _)) (by rw [State.get?_set, if_pos rfl]; rfl)
    (hst₃.keeps hk₂.memory hkm (fun n _ => hnone n) fun n hn w hw p hp hp' => ?_) hfree
  rw [List.mem_singleton.1 hw, hk₃.memory.names] at hp'
  rw [hk₃.memory.names] at hp
  exact hap n hn p hp' hp

/-- an attempt succeeds if all locks are free -/
theorem lockAttempt_stores (hF : op.combiner.Shaped op.scalars) (hns : ns.all.Nodup)
    (hown : ∀ m ∈ ns.all, m ∉ op.combiner.locals)
    (hxs : ns.xs.length = op.scalars.length) (hys : ns.ys.length = op.scalars.length)
    (hrow : s.memory.Row targets op.scalars a x) (hfit : Word64.fits (a : Int) = true)
    (hlocks : s.memory.Column tb.name .i32 locks fun _ => .int 0 .i32) (hk : k < locks)
    (hkfit : Word64.fits (k : Int) = true) (hap : s.memory.Apart targets tb.name)
    (hidx : s.vars.get? ns.idx = some (.word a)) (hlock : s.vars.get? ns.lock = some (.word k))
    (hy : Holds s ns.ys y.cells)
    (hres : ∀ t, Keeps ns.all [tb.name] s t → op.combiner.Gives f L c ns.all t (x.cells ++ y.cells) z.cells)
    (hq : ∀ t, Keeps (op.combiner.locals ++ ns.all) (tb.name :: targets) s t →
      t.vars.get? ns.done = some (.bool true) → Memory.Stored targets op.scalars a z s.memory t.memory →
      t.memory.Column tb.name .i32 locks (fun _ => .int 0 .i32) → Q t) :
    Runs f L c (lockAttempt ns tb sp op targets) s Q := by
  have hprev {m : Name} (hm : m ∈ ns.idx :: ns.lock :: ns.ys) : m ≠ ns.prev := by
    have h := hns
    simp only [LockNames.all, List.cons_append, List.nil_append, List.nodup_cons, List.mem_cons, List.mem_append,
      not_or] at h hm
    rcases hm with rfl | rfl | hm
    · exact h.1.2.1
    · exact h.2.1.1
    · rintro rfl
      exact h.2.2.1.2.1 hm
  obtain ⟨m, hm, htaken⟩ := hlocks.write hk (.int 1 .i32)
  have hkm : Memory.Keeps [tb.name] s.memory m := .write hm (List.mem_singleton_self _)
  unfold lockAttempt
  refine Runs.compareSwap (Computes.ofName hlock hkfit).evals (Value.toInt64_word hkfit) (Evals.literal unlocked _)
    (Evals.literal locked _) (hlocks.read_run hk) rfl hm ?_
  set t := ({ s with memory := m } : State).set ns.prev (.int 0 .u32)
  have hkt : Keeps ns.all [tb.name] s t :=
    Keeps.trans (t := { s with memory := m }) ⟨fun _ _ => rfl, hkm, rfl⟩ (.set (by simp [LockNames.all]) _)
  have hkt' : Keeps (op.combiner.locals ++ ns.all) (tb.name :: targets) s t :=
    hkt.mono (List.subset_append_right _ _) (by simp)
  have hsame {m : Name} (hm : m ∈ ns.idx :: ns.lock :: ns.ys) : t.vars.get? m = s.vars.get? m := by
    rw [State.get?_set, if_neg (hprev hm).symm]
  have hprevval : t.vars.get? ns.prev = some (.int 0 .u32) := by rw [State.get?_set, if_pos rfl]
  have hapm {n : Name} (hn : n ∈ targets) : s.memory.Apart [tb.name] n := by
    intro w hw p hp hp'
    rw [List.mem_singleton.1 hw] at hp'
    exact hap n hn p hp' hp
  refine Runs.ifThen (Evals.eqVar hprevval (Evals.literal unlocked _)) (fun _ => ?_) (fun h => by cases h)
  refine criticalSection_stores hF hns hown hxs hys (hrow.keeps hkm fun n hn => hapm hn) hfit htaken hk hkfit
    (hap.keeps hkm) ((hsame (by simp)).trans hidx) ((hsame (by simp)).trans hlock)
    (fun i n v hn hv => (hsame (by simp [List.mem_of_getElem? hn])).trans (hy i n v hn hv))
    (fun u hu => hres u (hkt.trans (hu.mono (List.Subset.refl _) (List.nil_subset _)))) fun u hu hd hst hfree =>
      hq u (hkt'.trans hu) hd (hst.keeps hkm (.refl [] _) (fun n hn => hapm hn) fun _ _ _ h => absurd h List.not_mem_nil) ?_
  refine hfree.congr fun j _ => ?_
  by_cases hjk : j = k
  · simp [hjk]
  · simp [hjk]

/-- **Updating under a lock.** If all locks are free, the first attempt takes the lock of the address, stores what the
combiner gives for the tuple there and the values, and leaves all locks free. -/
theorem lockedUpdate_stores (hF : op.combiner.Shaped op.scalars) (hns : ns.all.Nodup)
    (hown : ∀ m ∈ ns.all, m ∉ op.combiner.locals)
    (hxs : ns.xs.length = op.scalars.length) (hys : ns.ys.length = op.scalars.length)
    (hvalues : values.length = op.scalars.length) (hlim : 0 < c.rounds)
    (hrow : s.memory.Row targets op.scalars a x)
    (hlocks : s.memory.Column tb.name .i32 locks fun _ => .int 0 .i32) (hpos : 0 < locks)
    (hap : s.memory.Apart targets tb.name)
    (hty : ∀ (i : ℕ) e sc, values[i]? = some e → op.scalars[i]? = some sc → e.ty = .scalar sc)
    (haddr : Computes f c s addr a) (hval : ∀ t, Keeps ns.all [] s t → AllEval f c t values y.cells)
    (hcount : ∀ t, Keeps ns.all [] s t → Computes f c t tb.count locks)
    (hres : ∀ t, Keeps ns.all [tb.name] s t → op.combiner.Gives f L c ns.all t (x.cells ++ y.cells) z.cells)
    (hq : ∀ t, Keeps (op.combiner.locals ++ ns.all) (tb.name :: targets) s t →
      Memory.Stored targets op.scalars a z s.memory t.memory →
      t.memory.Column tb.name .i32 locks (fun _ => .int 0 .i32) → Q t) :
    Runs f L c (lockedUpdate ns tb sp op targets addr values) s Q := by
  have hnames := hns
  simp only [LockNames.all, List.cons_append, List.nil_append, List.nodup_cons, List.mem_cons, List.mem_append,
    not_or] at hnames
  obtain ⟨⟨hil, -, hid, hiy, -⟩, ⟨-, hld, hly, -⟩, -, ⟨hdy, -⟩, hnd'⟩ := hnames
  have hyin : ns.ys ⊆ ns.all := fun m hm => by simp [LockNames.all, hm]
  have hset (t : State) {m : Name} (v : Value) (hm : m ∈ [ns.idx, ns.lock, ns.prev, ns.done]) :
      Keeps ns.all [] t (t.set m v) := .set (List.mem_append_left _ hm) v
  have hys' : (ns.ys.zip values).map (fun p => p.1) = ns.ys := by
    rw [map_zip_fst (fun m : Name => m) (by rw [hys, hvalues]), List.map_id']
  unfold lockedUpdate
  refine Runs.append (Runs.append (Runs.bindWord haddr (Runs.nil ?_)))
  set s₁ := s.set ns.idx (.word a)
  have h₁ : Keeps ns.all [] s s₁ := hset _ _ (by simp)
  refine Runs.binds (fun p : Name × Expr => p.1) (fun p => p.2) (ns.ys.zip values) y.cells
    (by rw [List.length_zip, hys, hvalues, y.length_eq, Nat.min_self]) (by rw [hys']; exact hnd'.of_append_left) ?_ ?_ ?_
  · intro i p v hp hv
    rw [List.getElem?_zip_eq_some] at hp
    have hi : i < op.scalars.length := by
      rw [← y.length_eq]
      exact (List.getElem?_eq_some_iff.1 hv).1
    have hsc := List.getElem?_eq_getElem hi
    exact ⟨_, hty i _ _ hp.2 hsc, y.fits i _ v hsc hv⟩
  · intro t ht i p v hp hv
    rw [hys'] at ht
    rw [List.getElem?_zip_eq_some] at hp
    exact hval t (h₁.trans (ht.mono hyin (List.Subset.refl _))) i _ v hp.2 hv
  intro s₂ hk₂ hread
  rw [hys'] at hk₂
  have h₂ : Keeps ns.all [] s s₂ := h₁.trans (hk₂.mono hyin (List.Subset.refl _))
  have hy₂ : Holds s₂ ns.ys y.cells := by
    intro i n v hn hv
    have hi : i < values.length := by
      rw [hvalues, ← hys]
      exact (List.getElem?_eq_some_iff.1 hn).1
    exact hread i (n, values[i]) v (List.getElem?_zip_eq_some.2 ⟨hn, List.getElem?_eq_getElem hi⟩) hv
  have hidx₂ : s₂.vars.get? ns.idx = some (.word a) := by
    rw [hk₂.vars _ hiy, State.get?_set, if_pos rfl]
  have hhash : Computes f c s₂ (tb.hash (.ofName ns.idx)) (a % locks : ℕ) :=
    (Computes.ofName hidx₂ haddr.fits).mod (hcount s₂ h₂) hpos
  refine Runs.bindWord hhash (Runs.bind rfl (Evals.truth false) rfl ?_)
  set s₃ := (s₂.set ns.lock (.word (a % locks : ℕ))).set ns.done (.bool false)
  have h₃ : Keeps ns.all [] s s₃ := (h₂.trans (hset _ _ (by simp))).trans (hset _ _ (by simp))
  have hnone {m : Memory} (n : Name) : m.Apart [] n := fun _ h => absurd h List.not_mem_nil
  have hdone : s₃.vars.get? ns.done = some (.bool false) := by rw [State.get?_set, if_pos rfl]
  refine Runs.once (w := .bool false) hlim (Evals.notVar hdone) rfl ?_ rfl
  refine lockAttempt_stores (y := y) hF hns hown hxs hys (hrow.keeps h₃.memory fun n _ => hnone n) haddr.fits
    (hlocks.keeps h₃.memory (hnone _)) (Nat.mod_lt a hpos) hhash.fits (hap.keeps h₃.memory) ?_ ?_ ?_
    (fun t ht => hres t ((h₃.mono (List.Subset.refl _) (List.nil_subset _)).trans ht)) fun t ht hd hst hfree =>
      ⟨Evals.notVar hd, hq t ?_ (hst.keeps h₃.memory (.refl [] _) (fun n _ => hnone n) fun n _ => hnone n) hfree⟩
  · rw [State.get?_set, if_neg (Ne.symm hid), State.get?_set, if_neg (Ne.symm hil), hidx₂]
  · rw [State.get?_set, if_neg (Ne.symm hld), State.get?_set, if_pos rfl]
  · intro i n v hn hv
    have hmem := List.mem_of_getElem? hn
    have hld' : ns.done ≠ n := fun h => hdy (h ▸ hmem)
    have hll' : ns.lock ≠ n := fun h => hly (h ▸ hmem)
    rw [State.get?_set, if_neg hld', State.get?_set, if_neg hll']
    exact hy₂ i n v hn hv
  · exact (h₃.mono (List.subset_append_right _ _) (List.nil_subset _)).trans ht

end Locked

/-! ## Machine operations -/

/-- **Updating by a machine operation.** -/
theorem primitiveUpdate_stores {sc : Scalar} {sp : Space} {op : Atomic} {n : Name} {addr value : Expr} {a : ℕ}
    {x y z : Tuple [sc]} (hop : op.eval (x.cell 0) (y.cell 0) sc = .ok (z.cell 0)) (hrow : s.memory.Row [n] [sc] a x)
    (hty : value.ty = .scalar sc) (haddr : Computes f c s addr a) (hval : Evals f c s value (y.cell 0))
    (hq : ∀ t, Keeps [] [n] s t → Memory.Stored [n] [sc] a z s.memory t.memory → Q t) :
    Runs f L c (primitiveUpdate op sp sc n addr value) s Q := by
  obtain ⟨len, g, hg, ha, hga⟩ := hrow.column 0 n sc rfl rfl
  have hx : (x.cell 0).Fits sc := x.fits_cell rfl
  obtain ⟨m, hm, -⟩ := hg.write ha (z.cell 0)
  unfold primitiveUpdate
  rw [Expr.castIfNeeded_of_ty hty]
  refine Runs.atomic haddr.evals (Value.toInt64_word haddr.fits) hval (hg.read_run ha)
    (by rw [hga, hx.convert_eq]; exact hop) hm (Runs.nil ?_)
  exact hq _ ⟨fun _ _ => rfl, .write hm (List.mem_singleton_self n), rfl⟩ (.write hm hg ha)

end GpuHistogram
