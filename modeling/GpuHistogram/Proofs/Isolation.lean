/-
What a launch leaves of the state of the host, whether it succeeds or fails, and what every group of it finds.

`Leaves R x`: the computation takes a state to one that is related to it, also where it fails. Both relations used here
are preorders, so they hold along a sequence if they hold of each part:
- `Touches W`: only elements of the arrays `W` are stored to, and no launch is recorded; code of a thread touches the arrays
  it stores to (`execAll_touches`), whatever host statements it tries;
- `Spares W`: the same, and the variables are what they were; a group that runs in isolation spares what it only shadows
  (`isolated_spares`), since its local memory lies behind the buffers of the host (`extends_blocks`).

Results:
- `launch_spares`: variables, array names, lengths and element types are those of before, and no buffer is added; the
  elements are those of before but for the arrays that the code stores to under names that are no block's;
- `group_starts`: whatever the groups before have done, a group finds each of its blocks zero, and each of its threads
  begins with the captured variables of the host;
- `launch_isolated`: both together;
- `alias_defeats_shadow`: an array of the host that a block shadows changes all the same if the code stores to it under
  another name.
-/
import GpuHistogram.Proofs.ArrayChanges
import GpuHistogram.Proofs.Groups
import GpuHistogram.Proofs.LaunchLimits
import Mathlib.Order.Defs.Unbundled

namespace GpuHistogram

namespace Machine

variable {α β : Type} {c : Context} {s t : State} {W : List Name}

/-! ## Runs that succeed or fail -/

/-- the computation ends in a state that is related to the one it starts in, with a result or a fault -/
def Leaves (R : State → State → Prop) (x : Exec α) : Prop :=
  ∀ s, Outcome (fun _ => True) (R s) (x s)

namespace Leaves

variable {R : State → State → Prop} {x : Exec α}

theorem ok (h : Leaves R x) {a : α} (hx : x s = .ok a t) : R s t := by
  have hs := h s
  rw [hx] at hs
  exact hs.1

theorem error (h : Leaves R x) {f : Fault} (hx : x s = .error f t) : R s t := by
  have hs := h s
  rw [hx] at hs
  exact hs

variable [IsPreorder State R]

theorem pure (a : α) : Leaves R (Pure.pure a) :=
  fun s => ⟨refl s, trivial⟩

theorem fail (cause : Cause) (o : Origin) : Leaves R (Machine.fail cause o : Exec α) :=
  fun s => refl s

theorem observe (f : State → Except Fault α) : Leaves R (Machine.observe f) := by
  intro s
  unfold Machine.observe
  cases f s with
  | ok a => exact ⟨refl s, trivial⟩
  | error g => exact refl s

theorem bind {f : α → Exec β} (h : Leaves R x) (hf : ∀ a, Leaves R (f a)) : Leaves R (x >>= f) := by
  intro s
  cases hx : x s with
  | error g u =>
    rw [bind_fails hx]
    exact h.error hx
  | ok a u =>
    rw [bind_run hx]
    cases hy : f a u with
    | error g w => exact IsTrans.trans _ _ _ (h.ok hx) ((hf a).error hy)
    | ok b w => exact ⟨IsTrans.trans _ _ _ (h.ok hx) ((hf a).ok hy), trivial⟩

theorem observe_bind {f : State → Except Fault α} {g : α → Exec β} (h : ∀ s a, f s = .ok a → Leaves R (g a)) :
    Leaves R (Machine.observe f >>= g) := by
  intro s
  cases hf : f s with
  | ok a =>
    rw [bind_run (observe_eq_ok.2 ⟨hf, rfl⟩)]
    exact h s a hf s
  | error e =>
    have hx : Machine.observe f s = .error e s := by
      unfold Machine.observe
      rw [hf]
    rw [bind_fails hx]
    exact refl s

omit [IsPreorder State R] in
theorem ite {y : Exec α} {p : Prop} [Decidable p] (h : Leaves R x) (h' : Leaves R y) : Leaves R (if p then x else y) := by
  split_ifs
  · exact h
  · exact h'

theorem value (e : Expr) : Leaves R (Machine.value c e) := observe _

theorem number (e : Expr) : Leaves R (Machine.number c e) := (value e).bind fun _ => .pure _

theorem holds (e : Expr) : Leaves R (Machine.holds c e) := (value e).bind fun _ => .pure _

theorem iterate {cond : Exec Bool} {round : Exec Unit} (hc : Leaves R cond) (hr : Leaves R round) (limit : Int)
    (o : Origin) (left : ℕ) : Leaves R (Machine.iterate cond round limit o left) := by
  induction left with
  | zero => exact hc.bind fun _ => .ite (.fail _ _) (.pure ())
  | succ left ih => exact hc.bind fun _ => .ite (hr.bind fun _ => ih) (.pure ())

end Leaves

/-! ## What a thread changes -/

/-- only elements of the arrays `W` have changed; variables may have, but no launch is recorded -/
structure Touches (W : List Name) (s t : State) : Prop where
  memory : Memory.Keeps W s.memory t.memory
  launched : t.launched = s.launched

instance touches_preorder (W : List Name) : IsPreorder State (Touches W) where
  refl _ := ⟨.refl _ _, rfl⟩
  trans _ _ _ h h' := ⟨h.memory.trans h'.memory, h'.launched.trans h.launched⟩

theorem setVar_touches (n : Name) (v : Value) : Leaves (Touches W) (setVar n v) :=
  fun _ => ⟨⟨.refl _ _, rfl⟩, trivial⟩

theorem write_touches {n : Name} (hn : n ∈ W) (k : Int) (v : Value) (o : Origin) :
    Leaves (Touches W) (onMemory o (Memory.write n k v)) := by
  intro s
  cases hm : Memory.write n k v s.memory with
  | ok old m =>
    rw [onMemory_run hm]
    exact ⟨⟨.write hm hn, rfl⟩, trivial⟩
  | error f m =>
    obtain rfl := Memory.run_change_error hm
    rw [onMemory_fails hm]
    exact refl s

section Threads

variable {L : LaunchSpec → List Stmt → Exec Unit}

theorem execDefine_touches (ty : Ty) (n : Name) (e : Expr) (o : Origin) : Leaves (Touches W) (execDefine c ty n e o) := by
  cases ty with
  | scalar sc => exact (Leaves.value e).bind fun v => setVar_touches n _
  | pointer sc sp => exact .fail _ _

theorem execAssign_touches {dst e : Expr} {o : Origin} (hW : dst.arrays ⊆ W) :
    Leaves (Touches W) (execAssign c dst e o) := by
  refine (Leaves.value e).bind fun v => ?_
  cases dst with
  | var n ty o' => exact setVar_touches n _
  | access target idx ty o' =>
    refine .observe_bind fun _ n hn => (Leaves.number idx).bind fun k => ?_
    have hmem : n ∈ W := by
      apply hW
      cases target <;> cases hn
      simp [Expr.reads]
    exact (write_touches hmem k v o).bind fun _ => .pure ()
  | _ => exact .fail _ _

theorem execAtomic_touches {op : Atomic} {sc : Scalar} {n : Name} {i e : Expr} {old : Option Name} {o : Origin}
    (hn : n ∈ W) : Leaves (Touches W) (execAtomic c op sc n i e old o) := by
  refine (Leaves.number i).bind fun k => (Leaves.value e).bind fun v => (Leaves.observe _).bind fun x => ?_
  refine (Leaves.observe _).bind fun r => (write_touches hn k r o).bind fun _ => ?_
  cases old with
  | none => exact .pure ()
  | some y => exact setVar_touches y _

theorem execCompareSwap_touches {old : Name} {sc : Scalar} {n : Name} {i cmp new : Expr} {o : Origin} (hn : n ∈ W) :
    Leaves (Touches W) (execCompareSwap c old sc n i cmp new o) := by
  refine (Leaves.number i).bind fun k => (Leaves.value cmp).bind fun v => (Leaves.value new).bind fun w => ?_
  refine (Leaves.observe _).bind fun x => .ite ?_ (setVar_touches old _)
  exact (write_touches hn k _ o).bind fun _ => setVar_touches old _

/-- what only the host may do fails on a thread -/
theorem hostOnly_touches (hc : c.thread.isSome = true) (x : Exec Unit) (o : Origin) :
    Leaves (Touches W) (if c.thread.isSome then fail .hostStatementInKernel o else x) := by
  rw [if_pos hc]
  exact .fail _ _

mutual

/-- a statement of a thread touches the arrays that it stores to -/
theorem exec_touches (hc : c.thread.isSome = true) :
    ∀ {x : Stmt}, x.uses .stores ⊆ W → Leaves (Touches W) (exec L c x)
  | .define ty n e o, _ => by
    simp only [exec]
    exact execDefine_touches ty n e o
  | .assign dst e o, h => by
    simp only [exec]
    exact execAssign_touches h
  | .forLoop ty n init cond incr body o, h => by
    simp only [Stmt.uses, Use.among, List.nil_append] at h
    simp only [exec]
    refine (Leaves.value init).bind fun v => (setVar_touches n _).bind fun _ => .iterate (.holds cond) ?_ _ _ _
    exact (execAll_touches hc h).bind fun _ => (Leaves.value incr).bind fun w => setVar_touches n _
  | .ifElse cond thn els o, h => by
    simp only [Stmt.uses, Use.among, List.append_subset, List.nil_append] at h
    simp only [exec]
    exact (Leaves.holds cond).bind fun _ => .ite (execAll_touches hc h.1) (execAll_touches hc h.2)
  | .whileLoop cond body o, h => by
    simp only [Stmt.uses, Use.among, List.nil_append] at h
    simp only [exec]
    exact .iterate (.holds cond) (execAll_touches hc h) _ _ _
  | .scope body o, h => by
    simp only [Stmt.uses] at h
    simp only [exec]
    exact execAll_touches hc h
  | .barrier b o, _ => by
    simp only [exec]
    exact .fail _ _
  | .fence m o, _ => by
    simp only [exec]
    exact .pure ()
  | .atomic op m sc n i e old o, h => by
    simp only [exec]
    exact execAtomic_touches (h (by simp [Stmt.uses, Use.among]))
  | .compareSwap old m sc n i cmp new o, h => by
    simp only [exec]
    exact execCompareSwap_touches (h (by simp [Stmt.uses, Use.among]))
  | .alloc .., _ => by
    simp only [exec]
    exact hostOnly_touches hc _ _
  | .free .., _ => by
    simp only [exec]
    exact hostOnly_touches hc _ _
  | .copy .., _ => by
    simp only [exec]
    exact hostOnly_touches hc _ _
  | .fill .., _ => by
    simp only [exec]
    exact hostOnly_touches hc _ _
  | .rebind .., _ => by
    simp only [exec]
    exact hostOnly_touches hc _ _
  | .table .., _ => by
    simp only [exec]
    exact hostOnly_touches hc _ _
  | .launch .., _ => by
    simp only [exec]
    exact hostOnly_touches hc _ _

/-- **Code of a thread.** It touches the arrays that it stores to, whether it succeeds or fails. -/
theorem execAll_touches (hc : c.thread.isSome = true) :
    ∀ {l : List Stmt}, blockStores l ⊆ W → Leaves (Touches W) (execAll L c l)
  | [], _ => by
    rw [execAll]
    exact .pure ()
  | x :: l, h => by
    simp only [blockStores, blockUses_cons, List.append_subset] at h
    rw [execAll_cons]
    exact (exec_touches hc h.1).bind fun _ => execAll_touches hc h.2

end

end Threads

theorem runThread_touches (hc : c.thread.isSome = true) {phase : List Stmt} (hp : blockStores phase ⊆ W)
    (vars : Bindings Value) : Leaves (Touches W) (runThread c phase vars) := by
  have hset : Leaves (Touches W) (modify fun s => { s with vars := vars } : Exec Unit) :=
    fun _ => ⟨⟨.refl _ _, rfl⟩, trivial⟩
  have hget : Leaves (Touches W) (do return (← get).vars : Exec (Bindings Value)) :=
    fun s => ⟨refl (r := Touches W) s, trivial⟩
  exact hset.bind fun _ => (execAll_touches hc hp).bind fun _ => hget

theorem runPhase_touches {place : Triple → Context} (hplace : ∀ id, (place id).thread.isSome = true) {phase : List Stmt}
    (hp : blockStores phase ⊆ W) (threads : List Thread) : Leaves (Touches W) (runPhase place phase threads) := by
  induction threads with
  | nil => exact .pure []
  | cons th threads ih =>
    exact (runThread_touches (hplace th.id) hp th.vars).bind fun _ => ih.bind fun _ => .pure _

theorem runPhases_touches (place : Triple → Context) (hplace : ∀ id, (place id).thread.isSome = true)
    {phases : List (List Stmt)} (hp : ∀ l ∈ phases, blockStores l ⊆ W) (threads : List Thread) :
    Leaves (Touches W) (runPhases place threads phases) := by
  induction phases generalizing threads with
  | nil => exact .pure ()
  | cons l phases ih =>
    rw [List.forall_mem_cons] at hp
    exact (runPhase_touches hplace hp.1 threads).bind fun ths => ih hp.2 ths

/-! ## What a group leaves -/

/-- only elements of the arrays `W` have changed, and no variable -/
structure Spares (W : List Name) (s t : State) : Prop extends Touches W s t where
  vars : t.vars = s.vars

instance spares_preorder (W : List Name) : IsPreorder State (Spares W) where
  refl s := ⟨refl (r := Touches W) s, rfl⟩
  trans _ _ _ h h' := ⟨IsTrans.trans _ _ _ h.toTouches h'.toTouches, h'.vars.trans h.vars⟩

/-- new arrays under some of the names `ns`, and then changes to these and the arrays `W` -/
def Shadows (ns W : List Name) (s t : State) : Prop :=
  ∃ ns' m, ns' ⊆ ns ∧ Memory.Extends ns' s.memory m ∧ Memory.Keeps (ns' ++ W) m t.memory ∧ t.launched = s.launched

/-- a run in isolation gives back the variables, the names and the buffers of before -/
theorem isolated_spares {ns : List Name} {run : Exec Unit} (h : Leaves (Shadows ns W) run) :
    Leaves (Spares W) (isolated run) := by
  have back {s t : State} (hst : Shadows ns W s t) :
      Spares W s { t with vars := s.vars, memory := restore t.memory s.memory.buffers.size s.memory.names } := by
    obtain ⟨ns', m, -, he, hk, hl⟩ := hst
    exact ⟨⟨restore_keeps he hk, hl⟩, rfl⟩
  intro s
  unfold isolated
  cases hx : run s with
  | ok a t => exact ⟨back (h.ok hx), trivial⟩
  | error f t => exact back (h.error hx)

/-- a group changes its own local memory and the other arrays that its threads store to -/
theorem runGroup_shadows {p : Prepared} (hp : ∀ l ∈ p.phases, blockStores l ⊆ p.blocks.map (·.name) ++ W) (o : Origin)
    (g : Triple) : Leaves (Shadows (p.blocks.map (·.name)) W) (runGroup c p o g) := by
  intro s
  cases hb : allocateBlocks o p.blocks s with
  | error f u =>
    unfold runGroup
    rw [bind_fails hb]
    obtain ⟨bs, hpre, rfl⟩ := allocateBlocks_eq_error hb
    obtain ⟨ns, hns, he⟩ := extends_blocks s.memory bs
    refine ⟨ns, _, fun n hn => ?_, he, .refl _ _, rfl⟩
    exact (hpre.map (·.name)).subset ((hns n).1 hn)
  | ok a u =>
    unfold runGroup
    rw [bind_run hb]
    obtain rfl := allocateBlocks_eq_ok hb
    obtain ⟨ns, hns, he⟩ := extends_blocks s.memory p.blocks
    have hstores : ∀ l ∈ p.phases, blockStores l ⊆ ns ++ W := by
      intro l hl n hn
      rcases List.mem_append.1 (hp l hl hn) with hmem | hmem
      · exact List.mem_append_left _ ((hns n).2 hmem)
      · exact List.mem_append_right _ hmem
    have shadow {t : State} (ht : Touches (ns ++ W) { s with memory := withBlocks s.memory p.blocks } t) :
        Shadows (p.blocks.map (·.name)) W s t :=
      ⟨ns, _, fun n hn => (hns n).1 hn, he, ht.memory, ht.launched⟩
    have hrun := runPhases_touches (fun id => { c with thread := some ⟨id, g, p.shape.groupSize, p.shape.groups⟩ })
      (fun _ => rfl) hstores (p.shape.groupSize.indices.map fun id => ⟨id, p.captured⟩)
    cases hx : runPhases (fun id => { c with thread := some ⟨id, g, p.shape.groupSize, p.shape.groups⟩ })
        (p.shape.groupSize.indices.map fun id => ⟨id, p.captured⟩) p.phases
        { s with memory := withBlocks s.memory p.blocks } with
    | ok a t => exact ⟨shadow (hrun.ok hx), trivial⟩
    | error f t => exact shadow (hrun.error hx)

theorem runGroups_spares {p : Prepared} (hp : ∀ l ∈ p.phases, blockStores l ⊆ p.blocks.map (·.name) ++ W) (o : Origin)
    (gs : List Triple) : Leaves (Spares W) (runGroups c p o gs) := by
  induction gs with
  | nil => exact .pure ()
  | cons g gs ih => exact (isolated_spares (runGroup_shadows hp o g)).bind fun _ => ih

/-! ## The launch -/

variable {spec : LaunchSpec} {body : List Stmt}

/-- a block of local memory with the size that it has where the kernel is launched -/
structure SizedBlock.From (c : Context) (s : State) (b : LocalBlock) (x : SizedBlock) : Prop where
  name : x.name = b.name
  elem : x.elem = b.elem
  size : match b.size with
    | .fixed n => (x.count : Int) = n
    | .computed e => evalInt c s e = .ok (x.count : Int)

theorem evalBlocks_eq_ok {bs : List SizedBlock} (h : evalBlocks c s spec = .ok bs) :
    List.Forall₂ (SizedBlock.From c s) spec.blocks bs := by
  unfold evalBlocks at h
  generalize spec.blocks = blocks at h
  induction blocks generalizing bs with
  | nil =>
    cases h
    exact .nil
  | cons b blocks ih =>
    rw [List.mapM_cons] at h
    obtain ⟨x, hx, h⟩ := except_bind_eq_ok.1 h
    obtain ⟨xs, hxs, h⟩ := except_bind_eq_ok.1 h
    obtain rfl := except_pure_eq_ok.1 h
    refine .cons ?_ (ih hxs)
    have sized {n : Int} (hn : (if n < 0 then throw ⟨.negativeBlock b.name n, spec.origin⟩
        else return ⟨b.name, b.elem, n.toNat⟩ : Except Fault SizedBlock) = .ok x) :
        x.name = b.name ∧ x.elem = b.elem ∧ (x.count : Int) = n := by
      by_cases hneg : n < 0
      · rw [if_pos hneg] at hn
        cases hn
      · rw [if_neg hneg] at hn
        obtain rfl := except_pure_eq_ok.1 hn
        exact ⟨rfl, rfl, Int.toNat_of_nonneg (Int.not_lt.1 hneg)⟩
    cases hsize : b.size with
    | fixed k =>
      rw [hsize] at hx
      obtain ⟨hname, helem, hcount⟩ := sized hx
      exact ⟨hname, helem, by rwa [hsize]⟩
    | computed e =>
      rw [hsize] at hx
      obtain ⟨n, hn, hx⟩ := except_bind_eq_ok.1 hx
      obtain ⟨hname, helem, hcount⟩ := sized hx
      exact ⟨hname, helem, by rwa [hsize, hcount]⟩

theorem names_of_from {blocks : List LocalBlock} {bs : List SizedBlock}
    (h : List.Forall₂ (SizedBlock.From c s) blocks bs) : bs.map (·.name) = blocks.map (·.name) := by
  induction h with
  | nil => rfl
  | cons hx _ ih => rw [List.map_cons, List.map_cons, ih, hx.name]

/-- what a launch has prepared: its blocks with their sizes, code of the body, and variables of the host -/
theorem prepare_eq_ok {p : Prepared} (h : prepare c s spec body = .ok p) :
    List.Forall₂ (SizedBlock.From c s) spec.blocks p.blocks ∧ (∀ l ∈ p.phases, ∀ x ∈ l, x ∈ body) ∧
      ∀ n, p.captured.get? n = if n ∈ (spec.captures.filter fun x => !x.2.isPointer).map (·.1) then s.vars.get? n else none := by
  obtain ⟨sh, -, h⟩ := except_bind_eq_ok.1 h
  obtain ⟨ps, hps, h⟩ := except_bind_eq_ok.1 h
  obtain ⟨captured, hcap, h⟩ := except_bind_eq_ok.1 h
  obtain ⟨blocks, hbl, h⟩ := except_bind_eq_ok.1 h
  obtain rfl := except_pure_eq_ok.1 h
  exact ⟨evalBlocks_eq_ok hbl, (topLevelPhases_fold hps).2, capture_get? hcap⟩

/-- the arrays that the code of a kernel stores to under names that are no block's -/
def outsideStores (spec : LaunchSpec) (body : List Stmt) : List Name :=
  (blockStores body).filter (· ∉ spec.blocks.map (·.name))

theorem prepared_stores {p : Prepared} (h : prepare c s spec body = .ok p) :
    ∀ l ∈ p.phases, blockStores l ⊆ p.blocks.map (·.name) ++ outsideStores spec body := by
  obtain ⟨hblocks, hphases, -⟩ := prepare_eq_ok h
  intro l hl n hn
  obtain ⟨x, hx, hnx⟩ := mem_blockUses.1 hn
  have hbody : n ∈ blockStores body := mem_blockUses.2 ⟨x, hphases l hl x hx, hnx⟩
  rw [names_of_from hblocks]
  by_cases hblock : n ∈ spec.blocks.map (·.name)
  · exact List.mem_append_left _ hblock
  · exact List.mem_append_right _ (List.mem_filter.2 ⟨hbody, decide_eq_true hblock⟩)

/-- the groups that have run leave the state of the launch but for elements -/
theorem runGroups_prepared {p : Prepared} (h : prepare c s spec body = .ok p) (gs : List Triple) :
    Leaves (Spares (outsideStores spec body)) (runGroups c p spec.origin gs) :=
  runGroups_spares (prepared_stores h) spec.origin gs

/-- **What a launch leaves.** Whether it succeeds or fails, the variables are those of before, and so are the array names,
the buffers that they refer to, their lengths and element types; elements have changed of the stored arrays only. -/
theorem launch_spares (c : Context) (s : State) (spec : LaunchSpec) (body : List Stmt) :
    Outcome (fun _ => True) (fun t => t.vars = s.vars ∧ Memory.Keeps (outsideStores spec body) s.memory t.memory)
      (launch c spec body s) := by
  cases hp : prepare c s spec body with
  | error f =>
    have hx : observe (fun s => prepare c s spec body) s = .error f s := by
      unfold observe
      dsimp only
      rw [hp]
    unfold launch
    rw [bind_fails hx]
    exact ⟨rfl, .refl _ _⟩
  | ok p =>
    have hx : observe (fun s => prepare c s spec body) s = .ok p s := observe_eq_ok.2 ⟨hp, rfl⟩
    unfold launch
    rw [bind_run hx]
    have hgroups := runGroups_prepared hp p.shape.groups.indices
    change Outcome _ _ (runGroups c p spec.origin p.shape.groups.indices (s.record spec.name))
    cases hr : runGroups c p spec.origin p.shape.groups.indices (s.record spec.name) with
    | ok a t => exact ⟨⟨(hgroups.ok hr).vars, (hgroups.ok hr).memory⟩, trivial⟩
    | error f t => exact ⟨(hgroups.error hr).vars, (hgroups.error hr).memory⟩

/-- a thread begins the first phase with its own variables -/
theorem Enters.first {place : Triple → Context} {threads : List Thread} {phase l : List Stmt} {c' : Context}
    (h : Enters place threads [phase] s c' l t) : ∃ th ∈ threads, t.vars = th.vars := by
  cases h with
  | now h => exact ⟨_, List.mem_append_right _ (List.mem_cons_self ..), rfl⟩
  | later _ h => cases h

/-- how a group starts in a state with its local memory: each name of a block refers to the zeros of its last block, behind
the buffers of the host, and each thread begins the first phase with the captured variables of the host -/
structure Fresh (c : Context) (s : State) (spec : LaunchSpec) (p : Prepared) (g : Triple) (u : State) : Prop where
  blocks : ∀ bs b bs', p.blocks = bs ++ b :: bs' → b.name ∉ bs'.map (·.name) →
    ∃ q, u.memory.Has b.name q (.zeros b.elem b.count) ∧ s.memory.buffers.size ≤ q
  threads : ∀ first rest c' phase w, p.phases = first :: rest →
    Enters (fun id => { c with thread := some ⟨id, g, p.shape.groupSize, p.shape.groups⟩ })
      (p.shape.groupSize.indices.map fun id => ⟨id, p.captured⟩) [first] u c' phase w →
    ∀ n, w.vars.get? n = if n ∈ (spec.captures.filter fun x => !x.2.isPointer).map (·.1) then s.vars.get? n else none

/-- **How a group starts.** Whatever the groups before it have done. -/
theorem group_starts {p : Prepared} (hp : prepare c s spec body = .ok p) {gs : List Triple} {u : State} (g : Triple)
    (hbefore : runGroups c p spec.origin gs (s.record spec.name) = .ok () t)
    (hblocks : allocateBlocks spec.origin p.blocks t = .ok () u) : Fresh c s spec p g u := by
  have hsize : t.memory.buffers.size = s.memory.buffers.size := ((runGroups_prepared hp gs).ok hbefore).memory.size
  obtain rfl := allocateBlocks_eq_ok hblocks
  constructor
  · intro bs b bs' hsplit hlast
    rw [hsplit, ← hsize]
    exact has_withBlocks t.memory hlast
  · intro first rest c' phase w _ henters n
    obtain ⟨th, hth, hw⟩ := henters.first
    obtain ⟨id, -, rfl⟩ := List.mem_map.1 hth
    rw [hw]
    exact (prepare_eq_ok hp).2.2 n

/-- **Isolation.** Whether a launch succeeds or fails, it leaves the variables of the host, its array names, the buffers
that they refer to with lengths and element types, and no buffer more; also an array that a block shadows keeps its content,
unless the code stores to it under a name that is no block's. And every group that starts finds its own blocks zero and the
captured values in its threads. -/
theorem launch_isolated (c : Context) (s : State) (spec : LaunchSpec) (body : List Stmt) :
    Outcome (fun _ => True) (fun t => t.vars = s.vars ∧ Memory.Keeps (outsideStores spec body) s.memory t.memory ∧
        ∀ b ∈ spec.blocks, s.memory.Apart (outsideStores spec body) b.name →
          t.memory.array? b.name = s.memory.array? b.name) (launch c spec body s) ∧
      ∀ p gs g gs' t u, prepare c s spec body = .ok p → p.shape.groups.indices = gs ++ g :: gs' →
        runGroups c p spec.origin gs (s.record spec.name) = .ok () t →
        allocateBlocks spec.origin p.blocks t = .ok () u →
        List.Forall₂ (SizedBlock.From c s) spec.blocks p.blocks ∧ Fresh c s spec p g u := by
  constructor
  · have hspares := launch_spares c s spec body
    cases hr : launch c spec body s with
    | ok a t =>
      rw [hr] at hspares
      obtain ⟨⟨hvars, hmem⟩, -⟩ := hspares
      exact ⟨⟨hvars, hmem, fun b _ hb => hmem.array?_eq hb⟩, trivial⟩
    | error f t =>
      rw [hr] at hspares
      obtain ⟨hvars, hmem⟩ := hspares
      exact ⟨hvars, hmem, fun b _ hb => hmem.array?_eq hb⟩
  · intro p gs g gs' t u hp _ hbefore hblocks
    exact ⟨(prepare_eq_ok hp).1, group_starts hp g hbefore hblocks⟩

/-- a kernel of two groups of one thread, with a block of one element under the name `x`; it captures `v` and arrays -/
def shadowing (arrays : List Name) : LaunchSpec where
  name := .plain "k"
  captures := (.plain "v", .scalar .i64) :: arrays.map fun n => (n, .pointer .i64 .device)
  blocks := [⟨.plain "x", .i64, .fixed 1⟩]
  groups := [.i64 2]
  groupSize := [.i64 1]
  origin := .unknown

/-- code that stores `v` in the first element of an array -/
def storing (n : Name) : List Stmt :=
  [.assign (.access (.var n (.pointer .i64 .device) .unknown) (.i64 0) (.scalar .i64) .unknown)
    (.scalarVar (.plain "v") .i64) .unknown]

/-- a host with an array `x` of one element, its alias `y`, and a variable `v` -/
def aliasedHost : State where
  vars := ⟨[(.plain "v", .ofInt 7 .i64)]⟩
  memory := ⟨#[.ofValues .i64 [.ofInt 5 .i64]], ⟨[(.plain "x", 0), (.plain "y", 0)]⟩⟩

/-- the elements of an array after a run that succeeds -/
def elementsAfter (n : Name) : EStateM.Result Fault State Unit → Option (List Value)
  | .ok _ t => (t.memory.array? n).map (·.cells.toList)
  | .error .. => none

/-- what a launch of code that stores to the block has prepared -/
def shadowingPrepared : Prepared where
  shape := ⟨⟨2, 1, 1⟩, ⟨1, 1, 1⟩⟩
  phases := [storing (.plain "x")]
  captured := ⟨[(.plain "v", .ofInt 7 .i64)]⟩
  blocks := [⟨.plain "x", .i64, 1⟩]

/-- code that stores to its block leaves the array of that name as it is, and the second group finds the block zero -/
theorem launch_isolated_shadowing :
    elementsAfter (.plain "x") (launch plainHost (shadowing []) (storing (.plain "x")) aliasedHost)
        = some [.ofInt 5 .i64] ∧
      ∃ t u, runGroups plainHost shadowingPrepared .unknown [⟨0, 0, 0⟩] (aliasedHost.record (.plain "k")) = .ok () t ∧
        allocateBlocks .unknown shadowingPrepared.blocks t = .ok () u ∧
        Fresh plainHost aliasedHost (shadowing []) shadowingPrepared ⟨1, 0, 0⟩ u := by
  obtain ⟨hleft, hgroups⟩ := launch_isolated plainHost aliasedHost (shadowing []) (storing (.plain "x"))
  constructor
  · have hok : (elementsAfter (.plain "x") (launch plainHost (shadowing []) (storing (.plain "x")) aliasedHost)).isSome := by
      decide +kernel
    cases hr : launch plainHost (shadowing []) (storing (.plain "x")) aliasedHost with
    | error f t =>
      rw [hr] at hok
      cases hok
    | ok a t =>
      rw [hr] at hleft
      have hout : outsideStores (shadowing []) (storing (.plain "x")) = [] := by decide
      have hx := hleft.1.2.2 _ (List.mem_singleton_self _) fun w hw => by
        rw [hout] at hw
        cases hw
      exact congrArg (Option.map fun b => b.cells.toList) hx
  · have hok : (elementsAfter (.plain "x")
        (runGroups plainHost shadowingPrepared .unknown [⟨0, 0, 0⟩] (aliasedHost.record (.plain "k")))).isSome := by
      decide +kernel
    cases hr : runGroups plainHost shadowingPrepared .unknown [⟨0, 0, 0⟩] (aliasedHost.record (.plain "k")) with
    | error f t =>
      rw [hr] at hok
      cases hok
    | ok a t =>
      have hroom : ∀ b ∈ shadowingPrepared.blocks, b.count < unallocatable := by decide
      have hblocks := allocateBlocks_run (o := .unknown) (s := t) hroom
      exact ⟨t, _, rfl, hblocks, (hgroups shadowingPrepared [⟨0, 0, 0⟩] ⟨1, 0, 0⟩ [] t _ rfl rfl hr hblocks).2⟩

/-- code that stores to the array of the host under another name changes it, although a block has its name -/
theorem alias_defeats_shadow :
    elementsAfter (.plain "x") (launch plainHost (shadowing [.plain "y"]) (storing (.plain "y")) aliasedHost)
      ≠ (aliasedHost.memory.array? (.plain "x")).map (·.cells.toList) := by
  decide +kernel

end Machine

end GpuHistogram
