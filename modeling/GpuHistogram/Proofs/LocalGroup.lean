/-
A group of the kernel that accumulates in local memory. The group has a copy of the histogram of every operator in global
memory, and in local memory several slots for its threads; `LocalLayout.Tables` holds both, with what is known of them.

What its threads rely on is the same in all phases: the arrays share no buffers (`LocalLayout.Scene`), and the variables
that every thread starts with keep their values (`LocalLayout.Thread`). `LocalLayout.loops_run`: a phase that consists of
loops, one for each operator.
-/
import GpuHistogram.Proofs.GroupLoops
import GpuHistogram.Proofs.Kernels

namespace GpuHistogram

open Machine

variable {f : Form} {L : LaunchSpec → List Stmt → Exec Unit} {c : Context} {s t u : State} {k k' : ℕ} {X A R : List Name}
  {h : Histogram} {M : Histogram.Meaning} {m m' m₁ : Memory} {q : Part × LocalPart}

/-- the variables that every thread starts with -/
def LocalNames.all (ns : LocalNames) : List Name := [ns.thread, ns.group, ns.segment, ns.slot]

/-- the sizes of a kernel in local memory are words, and its loops end within the rounds, when every group of `g` threads has
`slots` copies and `perSegment` groups work on a segment -/
structure Histogram.FitsGroups (h : Histogram) (M : Histogram.Meaning) (g slots perSegment rounds : ℕ) : Prop where
  slots_pos : 0 < slots
  perSegment_pos : 0 < perSegment
  grid : Word64.fits (M.segments * perSegment : ℕ) = true
  copies : ∀ op ∈ h.operators, Word64.fits (M.segments * perSegment * M.size op : ℕ) = true
  filled : ∀ op ∈ h.operators, Word64.fits (slots * M.size op + g : ℕ) = true ∧ (slots * M.size op + g - 1) / g ≤ rounds
  compacted : slots ≤ rounds + 1
  threads : Word64.fits (M.elements + perSegment * g : ℕ) = true
  chunk : (M.elements + perSegment * g - 1) / (perSegment * g) ≤ rounds

/-- a kernel in local memory: its names, and the numbers of slots of a group and of groups that work on a segment -/
structure LocalLayout where
  ns : LocalNames
  shape : LocalShape
  table : Option LockTable
  parts : List (Part × LocalPart)
  slots : ℕ
  perSegment : ℕ

namespace LocalLayout

variable (K : LocalLayout)

/-- how operators are updated in local memory -/
def updating : Updating LocalPart where
  space := .shared
  method := (·.method)
  targets := fun q => q.2.blocks
  copy := fun _ => .ofName K.ns.slot

theorem update_eq : K.updating.update = Part.localUpdate K.ns := rfl

/-- the arrays of an operator -/
def own (q : Part × LocalPart) : List Name := q.2.blocks ++ q.1.subs.subs

/-- the copies in global memory -/
def subs : List Name := K.parts.flatMap fun q => q.1.subs.subs

/-- the arrays that the code of an element stores to -/
def targets (h : Histogram) : List Name := h.mapNames ++ lockNames K.table ++ K.parts.flatMap fun q => q.2.blocks

/-- the arrays that the kernel stores to -/
def written (h : Histogram) : List Name := h.mapNames ++ lockNames K.table ++ K.parts.flatMap own

variable {K}

theorem own_subset (hq : q ∈ K.parts) : own q ⊆ K.written h := fun _ hx =>
  List.mem_append_right _ (List.mem_flatMap.2 ⟨q, hq, hx⟩)

theorem targets_subset : K.targets h ⊆ K.written h := fun x hx => by
  rcases List.mem_append.1 hx with hx | hx
  · exact List.mem_append_left _ hx
  · obtain ⟨q, hq, hx⟩ := List.mem_flatMap.1 hx
    exact own_subset hq (List.mem_append_left _ hx)

/-! ## The arrays -/

/-- the arrays of the kernel share no buffers, and those that are read have the elements they had on the host -/
structure Scene (K : LocalLayout) (h : Histogram) (A : List Name) (s : State) (m : Memory) : Prop where
  unaliased : m.Unaliased (K.written h)
  apart : ∀ x ∈ A, m.Apart (K.written h) x
  reads : ∀ x ∈ A, ∀ a, m.read x a = s.memory.read x a

namespace Scene

variable (hsc : K.Scene h A s m)
include hsc

theorem parts_apart : K.parts.Pairwise fun q q' => ∀ x ∈ own q', m.Apart (own q) x :=
  (List.pairwise_flatMap.1 hsc.unaliased.right).2.imp fun h x hx w hw p hp hp' => h w hw x hx p hp' hp

theorem locks_apart (hq : q ∈ K.parts) {x : Name} (hx : x ∈ lockNames K.table) : m.Apart (own q) x :=
  (hsc.unaliased.apart (List.mem_append_right _ hx)).mono fun _ hw => List.mem_flatMap.2 ⟨q, hq, hw⟩

theorem maps_apart (hq : q ∈ K.parts) {x : Name} (hx : x ∈ h.mapNames) : m.Apart (own q) x :=
  (hsc.unaliased.apart (List.mem_append_left _ hx)).mono fun _ hw => List.mem_flatMap.2 ⟨q, hq, hw⟩

/-- the copies in global memory share no buffer with what the code of an element stores to -/
theorem subs_apart (hq : q ∈ K.parts) {x : Name} (hx : x ∈ q.1.subs.subs) : m.Apart (K.targets h) x := by
  intro w hw p hp hp'
  rcases List.mem_append.1 hw with hw | hw
  · exact hsc.unaliased.apart' (List.mem_flatMap.2 ⟨q, hq, List.mem_append_right _ hx⟩) w hw p hp hp'
  · obtain ⟨q', hq', hw⟩ := List.mem_flatMap.1 hw
    have hown := List.pairwise_flatMap.1 hsc.unaliased.right
    by_cases hqq : q' = q
    · subst hqq
      exact (List.pairwise_append.1 (hown.1 _ hq)).2.2 w hw x hx p hp' hp
    · have hsym : Std.Symm fun q q' : Part × LocalPart => ∀ x ∈ own q', m.Apart (own q) x :=
        ⟨fun _ _ h x hx w hw p hp hp' => h w hw x hx p hp' hp⟩
      exact (hsc.parts_apart.forall hq' hq hqq) x (List.mem_append_right _ hx) w (List.mem_append_left _ hw) p hp hp'

end Scene

/-! ## The copies of one operator -/

/-- the copies of an operator: `T` are those of all groups in global memory, `V` are the slots of the group, and `r` is
what is known of them -/
def Tables (K : LocalLayout) (M : Histogram.Meaning) (q : Part × LocalPart)
    (r : (ℕ → Tuple q.1.op.scalars) → (ℕ → Tuple q.1.op.scalars) → Prop) (m : Memory) : Prop :=
  ∃ T V, m.Table q.1.subs.subs q.1.op.scalars (M.segments * K.perSegment * M.size q.1.op) T ∧
    m.Table q.2.blocks q.1.op.scalars (K.slots * M.size q.1.op) V ∧ r T V

variable {r r' : (ℕ → Tuple q.1.op.scalars) → (ℕ → Tuple q.1.op.scalars) → Prop}

theorem Tables.keeps {W : List Name} (hT : K.Tables M q r m) (hk : Memory.Keeps W m m') (hW : ∀ x ∈ own q, m.Apart W x) :
    K.Tables M q r m' := by
  obtain ⟨T, V, hT, hV, hr⟩ := hT
  exact ⟨T, V, hT.keeps hk fun x hx => hW x (List.mem_append_right _ hx),
    hV.keeps hk fun x hx => hW x (List.mem_append_left _ hx), hr⟩

theorem Tables.mono (hT : K.Tables M q r m) (hr : ∀ T V, r T V → r' T V) : K.Tables M q r' m := by
  obtain ⟨T, V, hT, hV, h⟩ := hT
  exact ⟨T, V, hT, hV, hr T V h⟩

/-! ## The variables of a thread -/

/-- the variables that the thread `l` of the group `i` starts with, and those of the host -/
structure Vars (K : LocalLayout) (k : ℕ) (X : List Name) (s : State) (i l : ℕ) (w : Bindings Value) : Prop where
  host : ∀ x : Name, x.Before k → x ∉ X → w.get? x = s.vars.get? x
  thread : w.get? K.ns.thread = some (.word l)
  group : w.get? K.ns.group = some (.word (i % K.perSegment : ℕ))
  segment : w.get? K.ns.segment = some (.word (i / K.perSegment : ℕ))
  slot : w.get? K.ns.slot = some (.word (l % K.slots : ℕ))

/-- what a thread relies on: its variables, the locks, which nobody holds, and the map results of the elements so far -/
structure Thread (K : LocalLayout) (h : Histogram) (M : Histogram.Meaning) (mlen : ℕ → ℕ) (gm : ℕ → ℕ → Value) (k : ℕ)
    (X : List Name) (s : State) (m₁ : Memory) (g i l e : ℕ) (t : State) : Prop where
  vars : K.Vars k X s i l t.vars
  memory : Memory.Keeps (K.written h) m₁ t.memory
  locks : LocksFree K.table g t.memory
  maps : MapsStored h M mlen gm (· < e) t.memory

variable {mlen : ℕ → ℕ} {gm : ℕ → ℕ → Value} {g i l e : ℕ}

theorem Thread.sees (hsc : K.Scene h A s m₁) (ht : K.Thread h M mlen gm k X s m₁ g i l e t) : Sees k X A s t where
  vars := ht.vars.host
  arrays := fun x hx a => ((hsc.apart x hx).read_eq ht.memory a).trans (hsc.reads x hx a)

theorem Vars.keeps {V W : List Name} {w : Bindings Value} (hv : K.Vars k X s i l w) (hk : Keeps V W t u) (hw : t.vars = w)
    (hV : ∀ x ∈ V, x.Before k → x ∈ X) (hns : ∀ x ∈ K.ns.all, x ∉ V) : K.Vars k X s i l u.vars := by
  subst hw
  exact
    { host := fun x hx hxX => (hk.vars x fun hm => hxX (hV x hm hx)).trans (hv.host x hx hxX)
      thread := (hk.vars _ (hns _ (by simp [LocalNames.all]))).trans hv.thread
      group := (hk.vars _ (hns _ (by simp [LocalNames.all]))).trans hv.group
      segment := (hk.vars _ (hns _ (by simp [LocalNames.all]))).trans hv.segment
      slot := (hk.vars _ (hns _ (by simp [LocalNames.all]))).trans hv.slot }

/-- code that works on the arrays of one operator -/
theorem Thread.keeps {V W : List Name} (hsc : K.Scene h A s m₁) (ht : K.Thread h M mlen gm k X s m₁ g i l e t)
    (hk : Keeps V W t u) (hV : ∀ x ∈ V, x.Before k → x ∈ X) (hns : ∀ x ∈ K.ns.all, x ∉ V) (hq : q ∈ K.parts)
    (hW : W ⊆ own q) : K.Thread h M mlen gm k X s m₁ g i l e u where
  vars := ht.vars.keeps hk rfl hV hns
  memory := ht.memory.trans (hk.memory.mono fun _ hx => own_subset hq (hW hx))
  locks := ht.locks.keeps hk.memory fun _ hx => ((hsc.locks_apart hq hx).mono hW).keeps ht.memory
  maps := ht.maps.keeps hk.memory fun _ hx => ((hsc.maps_apart hq hx).mono hW).keeps ht.memory

/-! ## Where the kernel is launched -/

/-- what the kernel relies on: its names are new, its numbers fit, and its arrays share no buffer -/
structure Stage (K : LocalLayout) (p : Plan) (h : Histogram) (M : Histogram.Meaning) (o : Options) (R A X : List Name)
    (c : Context) (k₀ k j g n : ℕ) (mlen : ℕ → ℕ) (s : State) : Prop extends p.Stage h M o R A X c k₀ k g n s where
  newer : k ≤ j
  fits : ∀ q ∈ K.parts, K.updating.Fits h M K.table k X s q
  slots : Quantity k X s K.shape.copies K.slots
  perSegment : Quantity k X s K.shape.groupsPerSegment K.perSegment
  numbers : h.FitsGroups M g K.slots K.perSegment c.rounds
  nodup : K.ns.all.Nodup
  names : ∀ x ∈ K.ns.all, x.Within k j
  mapsLength : ∀ i < h.maps.length, M.total ≤ mlen i
  locks : ∀ tb, K.table = some tb → tb.count = .localSize ∧ Word64.fits (g + g : ℕ) = true
  unaliased : s.memory.Unaliased (h.mapNames ++ K.subs)
  apart : ∀ x ∈ A, s.memory.Apart (h.mapNames ++ K.subs) x

namespace Stage

variable {p : Plan} {o : Options} {k₀ j n : ℕ} (hst : K.Stage p h M o R A X c k₀ k j g n mlen s)
include hst

theorem op_mem (hq : q ∈ K.parts) : q.1.op ∈ h.operators := (hst.fits q hq).part.op_mem

theorem locals {x : Name} (hx : x ∈ h.locals) : x ∈ X ∧ x.Before k :=
  ⟨hst.scope.locals x hx, (hst.regular.before_local hx).mono hst.older⟩

/-- names that the kernel draws, and names of the histogram's own, are none of the host's sizes -/
theorem mem_of_before {x : Name} (hx : x.Within j k' ∨ x ∈ h.locals) (hxk : x.Before k) : x ∈ X :=
  hx.elim (fun hx => absurd (hxk.mono hst.newer) hx.not_before) fun hx => (hst.locals hx).1

/-- nor are they variables that the threads start with -/
theorem not_start {x : Name} (hx : x ∈ K.ns.all) : ¬ (x.Within j k' ∨ x ∈ h.locals) := fun hm =>
  hm.elim (fun hm => hm.not_before (hst.names x hx).before) fun hm => (hst.names x hx).not_before (hst.locals hm).2

end Stage

/-! ## A loop for each operator -/

/-- the loop of one operator: its body is one of `body` -/
def IsLoop (K : LocalLayout) (size : Part × LocalPart → Expr) (body : Part × LocalPart → Name → List Stmt → Prop)
    (k k' : ℕ) (q : Part × LocalPart) (x : Stmt) : Prop :=
  ∃ cn b, x = groupLoop cn K.ns.thread (size q) b ∧ cn.c.Within k k' ∧ cn.j.Within k k' ∧ cn.c ≠ cn.j ∧
    cn.c ∉ blockSets b ∧ body q cn.j b

/-- what the bodies of the loops set and store to: new variables and parameters, and the arrays of their operator -/
structure Confined (K : LocalLayout) (h : Histogram) (body : Part × LocalPart → Name → List Stmt → Prop) (k k' : ℕ) :
    Prop where
  sets : ∀ q ∈ K.parts, ∀ j b, body q j b → ∀ x ∈ blockSets b, x.Within k k' ∨ x ∈ h.locals
  stores : ∀ q ∈ K.parts, ∀ j b, body q j b → blockStores b ⊆ own q

variable {size : Part × LocalPart → Expr} {body : Part × LocalPart → Name → List Stmt → Prop} {x : Stmt}

theorem IsLoop.sets (hx : K.IsLoop size body k k' q x) (hb : K.Confined h body k k') (hq : q ∈ K.parts) {y : Name}
    (hy : y ∈ x.uses .sets) : y.Within k k' ∨ y ∈ h.locals := by
  obtain ⟨cn, b, rfl, hc, hj, -, -, hbody⟩ := hx
  have hy' : y ∈ blockSets [groupLoop cn K.ns.thread (size q) b] := by simpa using hy
  rcases List.mem_cons.1 (sets_groupLoop.1 hy') with rfl | hy'
  · exact .inl hc
  · rcases List.mem_cons.1 hy' with rfl | hy'
    · exact .inl hj
    · exact hb.sets q hq _ _ hbody y hy'

theorem IsLoop.stores (hx : K.IsLoop size body k k' q x) (hb : K.Confined h body k k') (hq : q ∈ K.parts) :
    x.uses .stores ⊆ own q := by
  obtain ⟨cn, b, rfl, -, -, -, -, hbody⟩ := hx
  have h := stores_groupLoop cn K.ns.thread (size q) b
  simp only [blockStores, blockUses_cons, blockUses_nil, List.append_nil] at h
  rw [h]
  exact hb.stores q hq _ _ hbody

/-- **A phase of loops.** Each operator has one. `r` is what is known of its copies when some indices are done: if the body
adds its index, the thread `l` adds those that leave the remainder `l`. -/
theorem loops_run {p : Plan} {o : Options} {stmts : List Stmt} {k₀ j n : ℕ} {Z : Part × LocalPart → ℕ}
    (r : (q : Part × LocalPart) → (ℕ → Bool) → (ℕ → Tuple q.1.op.scalars) → (ℕ → Tuple q.1.op.scalars) → Prop)
    (hst : K.Stage p h M o R A X c k₀ k j g n mlen s) (hsc : K.Scene h A s m₁)
    (hloops : List.Forall₂ (K.IsLoop size body j k') K.parts stmts) (hb : K.Confined h body j k') {c' : Context}
    (hc : c'.thread.isSome = true) (hrounds : c'.rounds = c.rounds) (hlocal : ∀ t, Computes f c' t .localSize g) (hl : l < g)
    (hsize : ∀ q ∈ K.parts, Quantity k X s (size q) (Z q) ∧ Word64.fits (Z q + g : ℕ) = true ∧ (Z q + g - 1) / g ≤ c.rounds)
    (hcongr : ∀ q ∈ K.parts, ∀ D D' T V, (∀ y < Z q, D y = D' y) → r q D T V → r q D' T V)
    (hbody : ∀ q ∈ K.parts, ∀ n b, body q n b → ∀ y D u, y < Z q → D y = false → K.Thread h M mlen gm k X s m₁ g i l e u →
      u.vars.get? n = some (.word y) → K.Tables M q (r q D) u.memory →
      Runs f L c' b u fun v => K.Tables M q (r q fun z => D z || z == y) v.memory)
    (ht : K.Thread h M mlen gm k X s m₁ g i l e t) (hT : ∀ q ∈ K.parts, K.Tables M q (r q fun y => y % g < l) t.memory) :
    Runs f L c' stmts t fun u => K.Thread h M mlen gm k X s m₁ g i l e u ∧
      ∀ q ∈ K.parts, K.Tables M q (r q fun y => y % g < l + 1) u.memory := by
  refine pieces_runs hloops hc own (K.Thread h M mlen gm k X s m₁ g i l e)
    (fun q => K.Tables M q (r q fun y => y % g < l)) (fun q => K.Tables M q (r q fun y => y % g < l + 1))
    (fun q hq x v w hx hv hvw => hv.keeps hsc hvw (fun y hy => hst.mem_of_before (hx.sets hb hq hy))
      (fun y hy hm => hst.not_start hy (hx.sets hb hq hm)) hq (hx.stores hb hq))
    (fun q _ m m' W hk hW hT => hT.keeps hk hW) (fun q _ m m' W hk hW hT => hT.keeps hk hW)
    (hsc.parts_apart.imp fun h x hx => (h x hx).keeps ht.memory) (fun q hq x hx => hx.stores hb hq)
    (fun q hq x v hx hv hTv => ?_) ht hT fun v hv hTv => ⟨hv, hTv⟩
  obtain ⟨cn, b, rfl, hcw, hjw, hcj, hcb, hbq⟩ := hx
  obtain ⟨hZ, hfit, hlim⟩ := hsize q hq
  have hsets {y : Name} (hy : y ∈ cn.c :: cn.j :: blockSets b) : y.Within j k' ∨ y ∈ h.locals := by
    rcases List.mem_cons.1 hy with rfl | hy
    · exact .inl hcw
    · rcases List.mem_cons.1 hy with rfl | hy
      · exact .inl hjw
      · exact hb.sets q hq _ _ hbq y hy
  have hlater {w : State} (hvw : Keeps (cn.c :: cn.j :: blockSets b) (blockStores b) v w) :
      K.Thread h M mlen gm k X s m₁ g i l e w :=
    hv.keeps hsc hvw (fun y hy => hst.mem_of_before (hsets hy)) (fun y hy hm => hst.not_start hy (hsets hm)) hq (hb.stores q hq _ _ hbq)
  have hthread : K.ns.thread ∈ K.ns.all := by simp [LocalNames.all]
  refine groupLoop_runs (fun D => K.Tables M q (r q D)) hc hlocal hl hfit (hrounds ▸ hlim) hv.vars.thread hcj hcb
    (fun hm => hst.not_start hthread (hsets hm)) (fun w hvw => (hZ.sees ((hlater hvw).sees hsc)).computes f c')
    (fun D D' m hD hT => hT.mono fun T V hr => hcongr q hq D D' T V hD hr)
    (fun y D w hy hD hvw hjw hT => hbody q hq _ _ hbq y D w hy hD (hlater hvw) hjw hT) hTv fun w hT _ => hT

end LocalLayout

end GpuHistogram
