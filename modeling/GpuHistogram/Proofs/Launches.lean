/-
Launching a kernel over a grid of one axis. The threads of all groups run one after the other, so what the grid does is
an induction over the threads: `phase_runs` for the threads of a group between two barriers, `groups_run` for the groups.

`Runs.launch`: a kernel without barriers keeps an invariant that is indexed by the number of the thread. What one thread
does may be shown for all variables of the host, although it has only those it captures.
-/
import GpuHistogram.Proofs.Agreement
import GpuHistogram.Proofs.Scopes

namespace GpuHistogram

open Machine

/-! ## Barriers -/

namespace Machine

variable {V A : Name → Prop}

theorem anyBarrier_append (l l' : List Stmt) : anyBarrier (l ++ l') = (anyBarrier l || anyBarrier l') := by
  induction l with
  | nil => rfl
  | cons s l ih => rw [List.cons_append, anyBarrier, anyBarrier, ih, Bool.or_assoc]

mutual

/-- folding brings in no barrier -/
theorem anyBarrier_fold : ∀ {s : Stmt}, hasBarrier s = false → anyBarrier s.fold = false
  | .define .., _ => by simp [Stmt.fold, Stmt.mapExprs, anyBarrier, hasBarrier]
  | .assign .., _ => by simp [Stmt.fold, Stmt.mapExprs, anyBarrier, hasBarrier]
  | .forLoop .., h => by
    simp [Stmt.fold, anyBarrier, hasBarrier, anyBarrier_foldBlock h]
  | .ifElse cond thn els o, h => by
    simp only [hasBarrier, Bool.or_eq_false_iff] at h
    have ht := anyBarrier_foldBlock h.1
    have he := anyBarrier_foldBlock h.2
    simp only [Stmt.fold]
    split
    · exact ht
    · exact he
    · simp [anyBarrier, hasBarrier, ht, he]
  | .whileLoop .., h => by
    simp [Stmt.fold, anyBarrier, hasBarrier, anyBarrier_foldBlock h]
  | .scope .., h => by
    simp [Stmt.fold, anyBarrier, hasBarrier, anyBarrier_foldBlock h]
  | .barrier .., h => (nomatch h)
  | .fence .., _ => by simp [Stmt.fold, Stmt.mapExprs, anyBarrier, hasBarrier]
  | .atomic .., _ => by simp [Stmt.fold, Stmt.mapExprs, anyBarrier, hasBarrier]
  | .compareSwap .., _ => by simp [Stmt.fold, Stmt.mapExprs, anyBarrier, hasBarrier]
  | .alloc .., _ => by simp [Stmt.fold, Stmt.mapExprs, anyBarrier, hasBarrier]
  | .free .., _ => by simp [Stmt.fold, Stmt.mapExprs, anyBarrier, hasBarrier]
  | .copy .., _ => by simp [Stmt.fold, Stmt.mapExprs, anyBarrier, hasBarrier]
  | .fill .., _ => by simp [Stmt.fold, Stmt.mapExprs, anyBarrier, hasBarrier]
  | .rebind .., _ => by simp [Stmt.fold, Stmt.mapExprs, anyBarrier, hasBarrier]
  | .table .., _ => by simp [Stmt.fold, Stmt.mapExprs, anyBarrier, hasBarrier]
  | .launch .., _ => by simp [Stmt.fold, anyBarrier, hasBarrier]

theorem anyBarrier_foldBlock : ∀ {l : List Stmt}, anyBarrier l = false → anyBarrier (foldBlock l) = false
  | [], _ => by simp [foldBlock, anyBarrier]
  | s :: l, h => by
    simp only [anyBarrier, Bool.or_eq_false_iff] at h
    rw [foldBlock, anyBarrier_append, anyBarrier_fold h.1, anyBarrier_foldBlock h.2]
    rfl

end

mutual

theorem hasBarrier_of_over : ∀ {s : Stmt} {V : Name → Prop}, s.Over V A → hasBarrier s = false
  | .define .., _, _ => rfl
  | .assign .., _, _ => rfl
  | .forLoop .., _, h => by
    simp only [Stmt.Over] at h
    exact anyBarrier_of_over h.2.2.2
  | .ifElse .., _, h => by
    simp only [Stmt.Over] at h
    rw [hasBarrier, anyBarrier_of_over h.2.1, anyBarrier_of_over h.2.2]
    rfl
  | .whileLoop .., _, h => by
    simp only [Stmt.Over] at h
    exact anyBarrier_of_over h.2
  | .scope .., _, h => by
    simp only [Stmt.Over] at h
    exact anyBarrier_of_over h
  | .barrier .., _, h => by simp only [Stmt.Over] at h
  | .fence .., _, _ => rfl
  | .atomic .., _, _ => rfl
  | .compareSwap .., _, _ => rfl
  | .alloc .., _, _ => rfl
  | .free .., _, _ => rfl
  | .copy .., _, _ => rfl
  | .fill .., _, _ => rfl
  | .rebind .., _, _ => rfl
  | .table .., _, _ => rfl
  | .launch .., _, _ => rfl

theorem anyBarrier_of_over : ∀ {l : List Stmt} {V : Name → Prop}, blockOver V A l → anyBarrier l = false
  | [], _, _ => rfl
  | s :: l, _, h => by
    rw [blockOver_cons] at h
    rw [anyBarrier, hasBarrier_of_over h.1, anyBarrier_of_over h.2]
    rfl

end

/-- such code has no barriers, in either form -/
theorem anyBarrier_block (f : Form) {l : List Stmt} (h : blockOver V A l) : anyBarrier (f.block l) = false := by
  cases f
  · exact anyBarrier_of_over h
  · exact anyBarrier_foldBlock (anyBarrier_of_over h)

theorem isBarrier_of_anyBarrier {l : List Stmt} (h : anyBarrier l = false) {s : Stmt} (hs : s ∈ l) :
    isBarrier s = false ∧ hasBarrier s = false := by
  induction l with
  | nil => cases hs
  | cons x l ih =>
    simp only [anyBarrier, Bool.or_eq_false_iff] at h
    rcases List.mem_cons.1 hs with rfl | hs
    · refine ⟨?_, h.1⟩
      cases s <;> simp_all [isBarrier, hasBarrier]
    · exact ih h.2 hs

/-- code up to its first barrier is one phase -/
theorem phases_append {l rest : List Stmt} (h : anyBarrier l = false) {b : BarrierScope} {o : Origin} :
    phases (l ++ .barrier b o :: rest) = l :: phases rest := by
  induction l with
  | nil => rfl
  | cons x l ih =>
    have hx := (isBarrier_of_anyBarrier h (List.mem_cons_self ..)).1
    simp only [anyBarrier, Bool.or_eq_false_iff] at h
    rw [List.cons_append, phases, hx, ih h.2]
    rfl

theorem phases_eq {l : List Stmt} (h : anyBarrier l = false) : phases l = [l] := by
  induction l with
  | nil => rfl
  | cons x l ih =>
    have hx := (isBarrier_of_anyBarrier h (List.mem_cons_self ..)).1
    simp only [anyBarrier, Bool.or_eq_false_iff] at h
    rw [phases, hx, ih h.2]
    rfl

theorem phases_ne_nil (l : List Stmt) : phases l ≠ [] := by
  induction l with
  | nil => simp [phases]
  | cons x l ih =>
    rw [phases]
    split_ifs
    · simp
    · cases h : phases l <;> simp

/-- a phase is made of statements of the body -/
theorem mem_phases {l p : List Stmt} (hp : p ∈ phases l) {x : Stmt} (hx : x ∈ p) : x ∈ l := by
  induction l generalizing p with
  | nil =>
    simp only [phases, List.mem_singleton] at hp
    exact hp ▸ hx
  | cons y l ih =>
    obtain ⟨q, qs, hl⟩ := List.exists_cons_of_ne_nil (phases_ne_nil l)
    rw [phases, hl] at hp
    split_ifs at hp
    · rcases List.mem_cons.1 hp with rfl | hp
      · cases hx
      · exact List.mem_cons_of_mem _ (ih (hl ▸ hp) hx)
    · rcases List.mem_cons.1 hp with rfl | hp
      · rcases List.mem_cons.1 hx with rfl | hx
        · exact List.mem_cons_self ..
        · exact List.mem_cons_of_mem _ (ih (hl ▸ List.mem_cons_self ..) hx)
      · exact List.mem_cons_of_mem _ (ih (hl ▸ List.mem_cons_of_mem _ hp) hx)

/-! ## The grid -/

/-- the context of a thread in a grid of `n` groups of `g` threads -/
def Context.inGrid (c : Context) (n g i j : ℕ) : Context :=
  { c with thread := some ⟨⟨j, 0, 0⟩, ⟨i, 0, 0⟩, ⟨g, 1, 1⟩, ⟨n, 1, 1⟩⟩ }

@[simp] theorem Context.rounds_inGrid (c : Context) (n g i j : ℕ) : (c.inGrid n g i j).rounds = c.rounds := rfl

theorem Triple.indices_line (n : ℕ) : (⟨n, 1, 1⟩ : Triple).indices = (List.range n).map fun i : ℕ => ⟨i, 0, 0⟩ := by
  simp [indices, upTo, Function.comp_def]

variable {f : Form} {c : Context} {s t : State}

/-- what a thread asks about its place -/
theorem Computes.place {n g i j a : ℕ} {p : Place}
    (hp : ThreadPlace.get ⟨⟨j, 0, 0⟩, ⟨i, 0, 0⟩, ⟨g, 1, 1⟩, ⟨n, 1, 1⟩⟩ .x p = a) (ha : Word64.fits (a : Int) = true) :
    Computes f (c.inGrid n g i j) s (.atPlace p .x) a := by
  have hexpr : f.expr (.atPlace p .x) = .atPlace p .x := by
    cases f <;> rfl
  refine ⟨rfl, ?_, ha, fun v ty o h => ?_⟩
  · rw [hexpr]
    change Except.ok (Value.ofInt (ThreadPlace.get _ _ _) .i64) = _
    rw [hp, Value.ofInt_i64 ha]
  · rw [hexpr] at h
    cases h

theorem Computes.globalId {n g i j : ℕ} (h : Word64.fits (i * g + j : ℕ) = true) :
    Computes f (c.inGrid n g i j) s (.atPlace .globalId .x) (i * g + j : ℕ) :=
  .place (by simp [ThreadPlace.get, Triple.get]) h

/-! ## The threads of a group -/

/-- **A phase.** The threads run one after the other and keep an invariant that is indexed by the number of the thread;
`P` is what holds for the variables of a thread before, `P'` after the phase. -/
theorem phase_runs (place : Triple → Context) {l : List Stmt} {N : List Name} (I : ℕ → Memory → Prop)
    (P P' : ℕ → Bindings Value → Prop) (hN : blockUses (.reads .scalar) l ⊆ N)
    (hplace : ∀ i, (place ⟨(i : ℕ), 0, 0⟩).thread.isSome = true) {launched : Array String} (threads : List Thread) (j : ℕ)
    (hthreads : ∀ (i : ℕ) th, threads[i]? = some th → th.id = ⟨(j + i : ℕ), 0, 0⟩ ∧
      ∃ w, P (j + i) w ∧ ∀ n ∈ N, w.get? n = th.vars.get? n)
    (hstep : ∀ i w m, j ≤ i → i < j + threads.length → P i w → I i m →
      Runs f noLaunch (place ⟨i, 0, 0⟩) l ⟨w, m, launched⟩ fun t => P' i t.vars ∧ I (i + 1) t.memory)
    {s : State} (hl : s.launched = launched) (hs : I j s.memory) :
    ∃ threads' t, runPhase place (f.block l) threads s = .ok threads' t ∧ t.launched = launched ∧
      I (j + threads.length) t.memory ∧ threads'.length = threads.length ∧
      ∀ (i : ℕ) th, threads'[i]? = some th → th.id = ⟨(j + i : ℕ), 0, 0⟩ ∧
        ∃ w, P' (j + i) w ∧ ∀ n ∈ N, w.get? n = th.vars.get? n := by
  induction threads generalizing j s with
  | nil => exact ⟨[], s, rfl, hl, hs, rfl, fun i th h => nomatch h⟩
  | cons th threads ih =>
    obtain ⟨hid, w, hw, hagree⟩ := hthreads 0 th rfl
    rw [Nat.add_zero] at hid hw
    have hrun := (hstep j w s.memory (Nat.le_refl j) (by simp) hw hs).keeps (hplace j)
    obtain ⟨t, ht, ⟨hP', hI⟩, hk⟩ := hrun
    have hag : Agree N ⟨w, s.memory, launched⟩ { s with vars := th.vars } := ⟨hagree, rfl, hl.symm⟩
    obtain ⟨u, hu, hau⟩ := execAll_congr (hplace j) _ (List.Subset.trans (f.uses_block _ l) hN) hag ht
    obtain ⟨threads', v, hv, hvl, hvI, hlen, hvthreads⟩ := ih (j + 1) (s := u) (fun i th' hth' => by
        have h := hthreads (i + 1) th' hth'
        rwa [show j + (i + 1) = j + 1 + i by omega] at h)
      (fun i w m hi hlt => hstep i w m (by omega) (by simp only [List.length_cons]; omega))
      (hau.launched.symm.trans hk.launched) (hau.memory ▸ hI)
    refine ⟨⟨th.id, u.vars⟩ :: threads', v, ?_, hvl, ?_, by simp [hlen], fun i th' hth' => ?_⟩
    · rw [runPhase]
      refine bind_eq_ok.2 ⟨u.vars, u, ?_, bind_eq_ok.2 ⟨threads', v, hv, rfl⟩⟩
      unfold runThread
      refine bind_eq_ok.2 ⟨(), { s with vars := th.vars }, rfl, bind_eq_ok.2 ⟨(), u, ?_, rfl⟩⟩
      rw [hid]
      exact hu
    · rwa [List.length_cons, Nat.add_comm threads.length, ← Nat.add_assoc]
    · cases i with
      | zero =>
        cases hth'
        exact ⟨hid, t.vars, hP', hau.vars⟩
      | succ i =>
        have h := hvthreads i th' hth'
        rwa [show j + 1 + i = j + (i + 1) by omega] at h

/-! ## The groups of a grid -/

theorem restore_self (m : Memory) : restore m m.buffers.size m.names = m := by
  simp [restore]

/-- **The groups.** They run one after the other and keep an invariant that is indexed by the number of the group; what a
group leaves of memory is what it does not have for itself. -/
theorem groups_run {p : Prepared} {o : Origin} (I : ℕ → Memory → Prop) {vars : Bindings Value} {names : Bindings Nat}
    {size : ℕ} {launched : Array String} (k j : ℕ)
    (hstep : ∀ i m, j ≤ i → i < j + k → I i m → m.names = names → m.buffers.size = size →
      ∃ t, runGroup c p o ⟨i, 0, 0⟩ ⟨vars, m, launched⟩ = .ok () t ∧ t.launched = launched ∧
        size ≤ t.memory.buffers.size ∧ I (i + 1) (restore t.memory size names))
    {m : Memory} (hm : I j m) (hn : m.names = names) (hsize : m.buffers.size = size) :
    ∃ m', runGroups c p o ((List.range' j k).map fun i : ℕ => ⟨i, 0, 0⟩) ⟨vars, m, launched⟩ =
        .ok () ⟨vars, m', launched⟩ ∧ I (j + k) m' ∧ m'.names = names ∧ m'.buffers.size = size := by
  induction k generalizing j m with
  | zero => exact ⟨m, rfl, hm, hn, hsize⟩
  | succ k ih =>
    obtain ⟨t, ht, htl, hts, htI⟩ := hstep j m (Nat.le_refl j) (by omega) hm hn hsize
    have hiso : isolated (runGroup c p o ⟨j, 0, 0⟩) ⟨vars, m, launched⟩ =
        .ok () ⟨vars, restore t.memory size names, launched⟩ := by
      unfold isolated
      simp only [ht, hn, hsize, htl]
    obtain ⟨m', hm', hI', hn', hs'⟩ := ih (j + 1) (fun i m hi hlt => hstep i m (by omega) (by omega)) htI rfl
      (by simp [restore, hts])
    refine ⟨m', ?_, by rwa [Nat.add_assoc, Nat.add_comm 1 k] at hI', hn', hs'⟩
    rw [List.range'_succ, List.map_cons, runGroups]
    exact bind_eq_ok.2 ⟨(), _, hiso, hm'⟩

/-! ## Launches -/

/-- variables that are those of `captured` for some names and those of the host otherwise -/
def overlay (captured host : Bindings Value) : List Name → Bindings Value
  | [] => host
  | n :: l =>
    match captured.get? n with
    | some v => (overlay captured host l).set n v
    | none => (overlay captured host l).erase n

theorem get?_overlay (captured host : Bindings Value) (l : List Name) (n : Name) :
    (overlay captured host l).get? n = if n ∈ l then captured.get? n else host.get? n := by
  induction l with
  | nil => rfl
  | cons m l ih =>
    rw [overlay]
    have h (x : Option Value) : (if n ∈ m :: l then captured.get? n else host.get? n) =
        if m = n then captured.get? n else if n ∈ l then captured.get? n else host.get? n := by
      by_cases hmn : m = n
      · simp [hmn]
      · simp [hmn, eq_comm (a := n)]
    rw [h none, ← ih]
    cases hm : captured.get? m with
    | some v =>
      rw [Bindings.get?_set]
      split_ifs with hmn
      · rw [← hmn, hm]
      · rfl
    | none =>
      rw [Bindings.get?_erase]
      split_ifs with hmn
      · rw [← hmn, hm]
      · rfl

theorem evalInt_run {e : Expr} {a : ℕ} (h : Computes f c s e a) : evalInt c s (f.expr e) = .ok (a : Int) := by
  have hv : eval c s (f.expr e) = .ok (.word a) := h.evals
  unfold evalInt
  rw [hv]
  change Except.ok (Value.word a).toInt64 = _
  rw [Value.toInt64_word h.fits]

/-- the shape of a grid of one axis -/
theorem shape_run {spec : LaunchSpec} {groups groupSize : Expr} {n g : ℕ} (hspec : spec.groups = [f.expr groups])
    (hsize : spec.groupSize = [f.expr groupSize]) (hn : Computes f c s groups n) (hg : Computes f c s groupSize g)
    (hmax : (g : Int) ≤ c.limits.maxGroupSize) : shape c s spec = .ok ⟨⟨n, 1, 1⟩, ⟨g, 1, 1⟩⟩ := by
  have haxes : evalAxes c s [f.expr groups] [f.expr groupSize] = pure ([(n : Int)], [(g : Int)]) := by
    simp only [evalAxes, evalInt_run hn, evalInt_run hg]
    rfl
  have hwrap : Word64.wrap (Triple.product ⟨g, 1, 1⟩) = g := by
    have hg' : Triple.product ⟨g, 1, 1⟩ = (g : Int) := by simp [Triple.product]
    rw [hg', Word64.wrap_of_fits hg.fits]
  have hpos : ((Triple.toList ⟨n, 1, 1⟩ ++ Triple.toList ⟨g, 1, 1⟩).any (· < 0)) = false := by
    simp [Triple.toList]
  have hn' : Triple.ofList [(n : Int)] = ⟨n, 1, 1⟩ := rfl
  have hg' : Triple.ofList [(g : Int)] = ⟨g, 1, 1⟩ := rfl
  unfold shape LaunchSpec.dims
  rw [hspec, hsize, haxes]
  simp only [List.length_cons, List.length_nil, Nat.zero_add, Nat.one_ne_zero, Nat.reduceLT, ne_eq, not_true_eq_false,
    or_self, if_false]
  rw [pure_bind]
  dsimp only
  rw [hn', hg', hpos, hwrap, if_neg (by simp), if_neg (by omega)]
  rfl

/-- the phases of code without barriers -/
theorem topLevelPhases_run {spec : LaunchSpec} {l : List Stmt} (h : anyBarrier l = false) :
    topLevelPhases spec l = .ok [l] := by
  unfold topLevelPhases
  rw [if_neg, phases_eq h]
  simp only [Bool.not_eq_true, List.any_eq_false]
  intro x hx
  rw [(isBarrier_of_anyBarrier h hx).2]
  simp

/-- a kernel that has no local memory -/
theorem prepare_run {spec : LaunchSpec} {l : List Stmt} {n g : ℕ} {captured : Bindings Value} {ps : List (List Stmt)}
    {blocks : List SizedBlock} (hshape : shape c s spec = .ok ⟨⟨n, 1, 1⟩, ⟨g, 1, 1⟩⟩)
    (hphases : topLevelPhases spec l = .ok ps) (hcapture : capture s spec spec.captures = .ok captured)
    (hblocks : evalBlocks c s spec = .ok blocks) :
    prepare c s spec l = .ok ⟨⟨⟨n, 1, 1⟩, ⟨g, 1, 1⟩⟩, ps, captured, blocks⟩ := by
  unfold prepare
  rw [hshape, hphases, hcapture, hblocks]
  rfl

/-- a launch that is prepared runs its groups -/
theorem launch_run {spec : LaunchSpec} {l : List Stmt} {p : Prepared} {n g : ℕ} {m : Memory}
    (hp : prepare c s spec l = .ok p) (hshape : p.shape = ⟨⟨n, 1, 1⟩, ⟨g, 1, 1⟩⟩)
    (hgroups : runGroups c p spec.origin ((List.range' 0 n).map fun i : ℕ => ⟨i, 0, 0⟩)
      ⟨s.vars, s.memory, s.launched.push spec.name.text⟩ = .ok () ⟨s.vars, m, s.launched.push spec.name.text⟩) :
    launch c spec l s = .ok () ⟨s.vars, m, s.launched.push spec.name.text⟩ := by
  unfold launch
  refine bind_eq_ok.2 ⟨p, s, observe_eq_ok.2 ⟨hp, rfl⟩, ?_⟩
  refine bind_eq_ok.2 ⟨(), ⟨s.vars, s.memory, s.launched.push spec.name.text⟩, rfl, ?_⟩
  rw [hshape, Triple.indices_line, List.range_eq_range']
  exact hgroups

/-- the variables that a kernel captures are there, and a thread with these sees what its code reads as the host does -/
theorem captures_run {V A : Name → Prop} {spec : LaunchSpec} {body : List Stmt} {blocks : List LocalBlock}
    (hspec : spec.captures = freeVariables body blocks)
    (hover : blockOver (fun x => x ∈ blocks.map (·.name) ∨ V x) (fun x => x ∈ blocks.map (·.name) ∨ A x) body)
    (hV : ∀ x, V x → (s.vars.get? x).isSome = true ∧ ¬ A x) (hA : ∀ x, A x → s.memory.contains x = true) :
    ∃ captured w : Bindings Value, capture s spec spec.captures = .ok captured ∧
      (∀ x, x ∉ blocks.map (·.name) → x ∉ blockBinders body → w.get? x = s.vars.get? x) ∧
      ∀ x ∈ blockUses (.reads .scalar) body, w.get? x = captured.get? x := by
  obtain ⟨htypes, hreads⟩ := freeVariables_spec hover
  obtain ⟨captured, hcap, hvals⟩ := capture_run (s := s) (l := freeVariables body blocks) fun x hx => by
    have h := htypes x hx
    split_ifs at h ⊢
    · exact hA _ h
    · exact (hV _ h).1
  refine ⟨captured, overlay captured s.vars (blocks.map (·.name) ++ blockBinders body), by rw [hspec, hcap], ?_, ?_⟩
  · intro x hx hx'
    rw [get?_overlay, if_neg]
    exact fun hm => (List.mem_append.1 hm).elim hx hx'
  · intro x hx
    rw [get?_overlay]
    split_ifs with hm
    · rfl
    · simp only [List.mem_append, not_or] at hm
      obtain ⟨hVx, ty, hty⟩ := hreads x hx hm.1 hm.2
      refine (hvals x ty hty ?_).symm
      have h := htypes _ hty
      dsimp only at h
      by_contra hp
      rw [if_pos (by simpa using hp)] at h
      exact (hV x hVx).2 h

/-! ## Runs of programs -/

/-- a run that has succeeded -/
theorem run_eq_ok {m m' : GpuHistogram.Machine} {p : Program} :
    m.run p = (.ok (), m') ↔ ∃ s, runHost (m.context p) p.body m.state = .ok () s ∧ m' = { m with state := s } := by
  unfold GpuHistogram.Machine.run EStateM.run
  dsimp only
  cases runHost (m.context p) p.body m.state with
  | ok _ s =>
    constructor
    · intro h
      cases h
      exact ⟨s, rfl, rfl⟩
    · rintro ⟨_, hs, rfl⟩
      cases hs
      rfl
  | error f s =>
    constructor
    · intro h
      cases h
    · rintro ⟨_, hs, -⟩
      cases hs

end Machine

end GpuHistogram
