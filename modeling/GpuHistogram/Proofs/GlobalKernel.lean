/-
The kernel that accumulates in global memory. The threads have blocks of the elements of all segments, and each knows its
copies (`globalBody_obeys`). They run one after the other, so that the elements are combined in their order. `Gathered` is
the invariant: the copies of every operator merge into what is gathered of the elements so far. `globalBody_runs` says what
a thread adds, `globalKernel_runs` that in the end all elements are gathered.
-/
import GpuHistogram.Histogram.InGlobalMemory
import GpuHistogram.Proofs.Kernels
import GpuHistogram.Proofs.WorkLoops

namespace GpuHistogram

open Machine

variable {f : Form} {c : Context} {s t : State} {k k₀ k' j : ℕ} {X A R : List Name}

/-! ## The blocks of the threads -/

/-- the number of elements that a thread handles -/
def Histogram.Meaning.chunk (M : Meaning) (threads : ℕ) : ℕ := (M.total + threads - 1) / threads

/-- memory in which no array is stored to -/
theorem Memory.Keeps.eq {m m' : Memory} (h : Memory.Keeps [] m m') : m' = m := by
  have hnames := h.names
  have hbuffers : m'.buffers = m.buffers := Array.ext_getElem? fun p => h.rest fun n hn => absurd hn List.not_mem_nil
  cases m
  cases m'
  cases hnames
  cases hbuffers
  rfl

namespace Machine

/-- what the kernel in global memory does for an item -/
def globalWork (p : Plan) (ns : GlobalNames) (element : List Stmt) : List Stmt :=
  .bind ns.segment (.ofName ns.flat / p.elements) :: element

/-- the thread `t` of `T` before it runs the kernel in global memory over `N` elements -/
structure GlobalStart (f : Form) (c : Context) (p : Plan) (ns : GlobalNames) (parts : List GlobalPart) (chunk : Expr)
    (element : List Stmt) (share : GlobalPart → ℕ) (N T t : ℕ) (s : State) : Prop where
  device : c.thread.isSome = true
  rounds : (Schedule.blocks N T).rounds ≤ c.rounds
  number : Computes f c s (.atPlace .globalId .x) t
  block : Throughout f c (p.globalBody ns parts chunk element) s chunk (Schedule.blocks N T).rounds
  size : Throughout f c (p.globalBody ns parts chunk element) s p.totalElements N
  shares : ∀ g ∈ parts, 0 < share g ∧ Throughout f c (p.globalBody ns parts chunk element) s g.threadsPerCopy (share g)
  names : (ns.thread :: parts.map (·.copy)).Nodup
  /-- the work does not set the variables of the thread and of the loop -/
  kept : ∀ m ∈ ns.thread :: parts.map (·.copy), m ≠ ns.k ∧ m ≠ ns.flat ∧ m ∉ blockSets (globalWork p ns element)
  counter : ns.k ≠ ns.flat ∧ ns.k ∉ blockSets (globalWork p ns element)

section Blocks

variable {L : LaunchSpec → List Stmt → Exec Unit} {N T t : ℕ} {p : Plan} {ns : GlobalNames} {parts : List GlobalPart}
  {chunk : Expr} {element : List Stmt}

theorem sets_globalBody {m : Name} :
    m ∈ blockSets (p.globalBody ns parts chunk element) ↔ m = ns.thread ∨ m ∈ parts.map (·.copy) ∨ m = ns.k ∨
      m = ns.flat ∨ m ∈ blockSets (globalWork p ns element) := by
  simp [Plan.globalBody, globalWork, blockSets, Stmt.count, Stmt.countBy, Stmt.bind, Stmt.ifThen, Stmt.uses, Use.among,
    blockUses_map, eq_comm]

theorem stores_globalBody (p : Plan) (ns : GlobalNames) (parts : List GlobalPart) (chunk : Expr) (element : List Stmt) :
    blockStores (p.globalBody ns parts chunk element) = blockStores element := by
  simp [Plan.globalBody, blockStores, Stmt.count, Stmt.countBy, Stmt.bind, Stmt.ifThen, Stmt.uses, Use.among, blockUses_map]

/-- **Blocks of all elements.** The threads of a launch have blocks of the elements of all segments, and each knows its
copies. -/
theorem globalBody_obeys {share : GlobalPart → ℕ} (ht : t < T) (hfit : N + T < 2 ^ 63)
    (h : GlobalStart f c p ns parts chunk element share N T t s) :
    Obeys (.blocks N T) N t f L c (p.globalBody ns parts chunk element) ns.flat (globalWork p ns element)
      (fun u => ∀ g ∈ parts, u.vars.get? g.copy = some (.word (t / share g : ℕ))) s := by
  obtain ⟨hthread, hcopies⟩ := List.nodup_cons.1 h.names
  have hnumber := h.number.fits
  have hset : Keeps (blockSets (p.globalBody ns parts chunk element)) (blockStores (p.globalBody ns parts chunk element)) s
      (s.set ns.thread (.word t)) := .set (sets_globalBody.2 (.inl rfl)) _
  have hgiven {i : ℕ} {g : GlobalPart} {v : Value} (hg : parts[i]? = some g)
      (hv : (parts.map fun g => Value.word (t / share g : ℕ))[i]? = some v) : v = .word (t / share g : ℕ) := by
    rw [List.getElem?_map, hg] at hv
    exact (Option.some.inj hv).symm
  refine Obeys.append (l := .bind ns.thread _ :: parts.map fun g => .bind g.copy (.ofName ns.thread / g.threadsPerCopy)) ?_
  refine Runs.bindWord h.number ?_
  have hthreadSet : (s.set ns.thread (.word t)).vars.get? ns.thread = some (.word t) := by
    rw [State.get?_set, if_pos rfl]
  have hkeeps {u : State} (hu : Keeps (parts.map (·.copy)) [] (s.set ns.thread (.word t)) u) :
      Keeps (blockSets (p.globalBody ns parts chunk element)) (blockStores (p.globalBody ns parts chunk element)) s u :=
    hset.trans (hu.mono (fun m hm => sets_globalBody.2 (.inr (.inl hm))) (List.nil_subset _))
  have hthreadAfter {u : State} (hu : Keeps (parts.map (·.copy)) [] (s.set ns.thread (.word t)) u) :
      u.vars.get? ns.thread = some (.word t) := (hu.vars _ hthread).trans hthreadSet
  refine Runs.binds (·.copy) (fun g : GlobalPart => .ofName ns.thread / g.threadsPerCopy) parts
    (parts.map fun g => .word (t / share g : ℕ)) (by rw [List.length_map]) hcopies (fun i g v hg hv => ⟨.i64, rfl, ?_⟩)
    (fun u hu i g v hg hv => ?_) fun u hu hvals => ⟨hu.memory.eq, hkeeps hu, ?_⟩
  · rw [hgiven hg hv]
    exact Value.fits_word (Scalar.wrap_i64 (Word64.fits_le hnumber (Nat.div_le_self _ _)))
  · rw [hgiven hg hv]
    obtain ⟨hpos, hshare⟩ := h.shares g (List.mem_of_getElem? hg)
    exact ((Computes.ofName (hthreadAfter hu) hnumber).div (hshare u (hkeeps hu)) hpos).evals
  · have hlater {e : Expr} {a : ℕ} (he : Throughout f c (p.globalBody ns parts chunk element) s e a) :=
      Throughout.later (l := .bind ns.thread (.atPlace .globalId .x) ::
        parts.map fun g => .bind g.copy (.ofName ns.thread / g.threadsPerCopy)) he (hkeeps hu)
    refine (blockLoop_obeys ht hfit.le h.device h.rounds (.ofName (hthreadAfter hu) hnumber (h.kept _ (by simp)))
      (hlater h.block) (hlater h.size) h.counter.1 h.counter.2).imp fun v hv g hg => ?_
    obtain ⟨i, hi⟩ := List.mem_iff_getElem?.1 hg
    have hcopy : u.vars.get? g.copy = some (.word (t / share g : ℕ)) :=
      hvals i g _ hi (by rw [List.getElem?_map, hi]; rfl)
    obtain ⟨hk, hflat, hwork⟩ := h.kept g.copy (List.mem_cons_of_mem _ (List.mem_map_of_mem hg))
    refine (hv.vars _ fun hm => ?_).trans hcopy
    exact (sets_workLoop.1 hm).elim hk fun hm => hm.elim hflat hwork

end Blocks

end Machine

/-! ## The variables of a thread -/

/-- the variables of the kernel but for those that stand for copies -/
def GlobalNames.all (ns : GlobalNames) : List Name := [ns.thread, ns.k, ns.flat, ns.segment]

/-- how operators are updated in global memory -/
def GlobalNames.updating (ns : GlobalNames) : Updating GlobalPart where
  space := .device
  method := (·.method)
  targets := fun q => q.1.subs.subs
  copy := fun q => .ofName ns.segment * q.2.count + .ofName q.2.copy

theorem GlobalNames.update_eq (ns : GlobalNames) : ns.updating.update = Plan.globalUpdate ns := rfl

section Kernel

variable {h : Histogram} {M : Histogram.Meaning} {o : Options} {p : Plan} {g n locks : ℕ} {ns : GlobalNames}
  {parts : List (Part × GlobalPart)} {count share : Part → ℕ} {table : Option LockTable} {mlen : ℕ → ℕ}
  {gm : ℕ → ℕ → Value} {prior : (q : Part) → ℕ → Tuple q.op.scalars}

/-- the elements below a number are gathered -/
structure Gathered (h : Histogram) (M : Histogram.Meaning) (table : Option LockTable) (locks : ℕ) (mlen : ℕ → ℕ)
    (gm : ℕ → ℕ → Value) (parts : List (Part × GlobalPart)) (count : Part → ℕ)
    (prior : (q : Part) → ℕ → Tuple q.op.scalars) (e : ℕ) (m : Memory) : Prop where
  copies : ∀ q ∈ parts, ∃ T, m.Table q.1.subs.subs q.1.op.scalars (M.segments * count q.1 * M.size q.1.op) T ∧
    (M.Merges q.1.op → ∀ a < M.segments * M.size q.1.op,
      Copies.merged (M.combine q.1.op) (count q.1) (M.size q.1.op) T a =
        M.gathered q.1.op q.1.contribution (prior q.1) a e)
  locks : LocksFree table locks m
  maps : MapsStored h M mlen gm (· < e) m

/-- the numbers and names that the way an operator is updated in global memory stands for; `total` is the number of
threads -/
structure GlobalPart.Stands (h : Histogram) (M : Histogram.Meaning) (table : Option LockTable) (count share : Part → ℕ)
    (total k : ℕ) (X : List Name) (s : State) (q : Part × GlobalPart) : Prop where
  part : q.1.Stands h M k X s
  method : q.2.method.Suits q.1.op table
  counted : Quantity k X s q.2.count (count q.1)
  shared : Quantity k X s q.2.threadsPerCopy (share q.1)
  positive : 0 < share q.1
  enough : ∀ th < total, th / share q.1 < count q.1
  fits : Word64.fits (M.segments * count q.1 * M.size q.1.op : ℕ) = true
  rows : Word64.fits (M.segments * count q.1 : ℕ) = true

theorem GlobalPart.Stands.fit {total : ℕ} {q : Part × GlobalPart}
    (hq : GlobalPart.Stands h M table count share total k X s q) : ns.updating.Fits h M table k X s q :=
  ⟨hq.part, hq.method, hq.part.subs⟩

/-- the arrays that the kernel stores to -/
def globalTargets (h : Histogram) (table : Option LockTable) (parts : List (Part × GlobalPart)) : List Name :=
  h.mapNames ++ lockNames table ++ parts.flatMap fun q => q.1.subs.subs

/-- what the kernel relies on: its names are new, and its arrays share no buffer -/
structure GlobalStage (p : Plan) (h : Histogram) (M : Histogram.Meaning) (o : Options) (R A X : List Name) (c : Context)
    (k₀ k j g n : ℕ) (ns : GlobalNames) (parts : List (Part × GlobalPart)) (count share : Part → ℕ)
    (table : Option LockTable) (locks : ℕ) (mlen : ℕ → ℕ) (s : State) : Prop
    extends p.Stage h M o R A X c k₀ k g n s where
  newer : k ≤ j
  stands : ∀ q ∈ parts, GlobalPart.Stands h M table count share (g * n) k X s q
  nodup : (ns.all ++ parts.map (·.2.copy)).Nodup
  names : ∀ m ∈ ns.all ++ parts.map (·.2.copy), m.Within k j
  mapsLength : ∀ i < h.maps.length, M.total ≤ mlen i
  lockCount : ∀ tb, table = some tb → Quantity k X s tb.count locks ∧ 0 < locks
  unaliased : s.memory.Unaliased (globalTargets h table parts)
  apart : ∀ m ∈ A, s.memory.Apart (globalTargets h table parts) m

/-- **One element.** The code for the next element gathers it. -/
theorem elementBody_gathers {m : Name} {l : List Stmt} {L : LaunchSpec → List Stmt → Exec Unit} {th e : ℕ}
    (hst : GlobalStage p h M o R A X c k₀ k j g n ns parts count share table locks mlen s) {c' : Context}
    (hc : c'.thread.isSome = true) (hrounds : c'.rounds = c.rounds)
    (hnames : h.segmentDims.map (·.1) ++ [m] = h.indexNames) (hb : Bucketed ns.updating.update parts j l k')
    (hth : th < g * n) (he : e < M.total) (hsees : Sees k X A s t)
    (hcopies : ∀ q ∈ parts, t.vars.get? q.2.copy = some (.word (th / share q.1 : ℕ)))
    (hflat : t.vars.get? ns.flat = some (.word e)) (hsegment : t.vars.get? ns.segment = some (.word (e / M.elements : ℕ)))
    (hkt : Memory.Keeps (globalTargets h table parts) s.memory t.memory)
    (hI : Gathered h M table locks mlen gm parts count prior e t.memory) :
    Runs f L c' (p.elementBody (.ofName ns.segment) (.ofName ns.flat % p.elements) m l) t fun u =>
      Gathered h M table locks mlen gm parts count prior (e + 1) u.memory := by
  have hr := hst.regular
  have hplan : p.Describes h M o k₀ j X g n t := hst.plan.keep hst.newer hsees.vars
  have hE : 0 < M.elements := Nat.pos_of_mul_pos_left (Nat.zero_lt_of_lt he)
  have hsg : e / M.elements < M.segments := Nat.div_lt_of_lt_mul (by rwa [mul_comm])
  have hmod : e % M.elements < M.elements := Nat.mod_lt _ hE
  have hflatIndex : e / M.elements * M.elements + e % M.elements = e := Nat.div_add_mod' e M.elements
  have hefit : Word64.fits (e : ℕ) = true := Word64.fits_le hst.total he.le
  have hnew {m : Name} (hm : m ∈ ns.all ++ parts.map (·.2.copy)) : m.Before j ∧ m ∉ X :=
    ⟨(hst.names m hm).before, fun hX => (hst.names m hm).not_before (hst.below m hX)⟩
  have hflatQ : Quantity j X t (.ofName ns.flat) e :=
    .ofName (hnew (by simp [GlobalNames.all])).1 (hnew (by simp [GlobalNames.all])).2 hflat hefit
  have hsegmentQ : Quantity j X t (.ofName ns.segment) (e / M.elements) :=
    .ofName (hnew (by simp [GlobalNames.all])).1 (hnew (by simp [GlobalNames.all])).2 hsegment
      (Word64.fits_le hefit (Nat.div_le_self _ _))
  -- the tables of all operators
  have hT : ∀ q : Part × GlobalPart, ∃ T : ℕ → Tuple q.1.op.scalars, q ∈ parts →
      t.memory.Table q.1.subs.subs q.1.op.scalars (M.segments * count q.1 * M.size q.1.op) T ∧
      (M.Merges q.1.op → ∀ a < M.segments * M.size q.1.op,
        Copies.merged (M.combine q.1.op) (count q.1) (M.size q.1.op) T a =
          M.gathered q.1.op q.1.contribution (prior q.1) a e) := fun q => by
    by_cases hq : q ∈ parts
    · exact (hI.copies q hq).imp fun _ h _ => h
    · exact ⟨fun _ => M.neutral q.1.op, fun h => absurd h hq⟩
  choose T hT using hT
  have hstands : ∀ q ∈ parts, ns.updating.Stands h M table j X
      (fun q => e / M.elements * count q.1 + th / share q.1)
      (fun q => M.segments * count q.1 * M.size q.1.op) t q := by
    intro q hq
    have hs := hst.stands q hq
    have hcopy : e / M.elements * count q.1 + th / share q.1 < M.segments * count q.1 := by
      have h := Nat.mul_le_mul_right (count q.1) hsg
      have hlt := hs.enough th hth
      rw [Nat.succ_mul] at h
      omega
    have hcopyQ : Quantity j X t (.ofName q.2.copy) (th / share q.1) := by
      have hm : q.2.copy ∈ ns.all ++ parts.map (·.2.copy) :=
        List.mem_append_right _ (List.mem_map_of_mem (f := (·.2.copy)) hq)
      exact .ofName (hnew hm).1 (hnew hm).2 (hcopies q hq)
        (Word64.fits_le hs.rows ((Nat.le_add_left _ _).trans hcopy.le))
    have hcountQ : Quantity j X t q.2.count (count q.1) :=
      hs.counted.keep hst.newer fun m hm => hsees.vars m (hs.counted.scalars m hm).1 (hs.counted.scalars m hm).2
    exact ⟨⟨hs.part.keep hst.newer hsees.vars, hs.method, hs.part.subs⟩,
      (hsegmentQ.mul hcountQ (Word64.fits_le hs.rows ((Nat.le_add_right _ _).trans hcopy.le))).add hcopyQ
        (Word64.fits_le hs.rows hcopy.le), ⟨_, hcopy, rfl⟩, hs.fits⟩
  have hlocks : ∀ tb, table = some tb → (∀ u, Sees j X A t u → Computes f c' u tb.count locks) ∧ 0 < locks := fun tb htb => by
    obtain ⟨h1, h2⟩ := hst.lockCount tb htb
    exact ⟨fun u hu => (h1.sees (hsees.trans hu hst.newer)).computes f c', h2⟩
  refine (element_absorbs (e := e % M.elements) hr hst.shapes (hst.older.trans hst.newer) hst.scope.locals
    (hst.means.later hsees hst.newer) hc (by rw [hrounds]; exact hst.rounds) hplan.hist
    (hst.indexNames hnames) hplan.sizes hplan.elements hst.total hsg hmod hsegmentQ (hflatQ.mod hplan.elements hE)
    hst.mapsLength hb hstands hlocks ?_ (fun m hm => (hst.apart m hm).keeps hkt) hI.maps (fun q hq => (hT q hq).1)
    hI.locks).mono ?_
  · have hun := hst.unaliased
    rwa [Memory.Unaliased, ← hkt.names] at hun
  · rintro u ⟨hTu, hfree, hmaps⟩
    rw [hflatIndex] at hTu hmaps
    refine ⟨fun q hq => ⟨_, hTu q hq, fun hm a ha => ?_⟩, hfree, hmaps.congr fun a => by omega⟩
    exact Histogram.Meaning.gathered_absorb hm he (Nat.pos_of_mul_pos_left (Nat.zero_lt_of_lt ha))
      ((hst.stands q hq).enough th hth) ((hT q hq).2 hm a ha)

end Kernel

/-! ## The code of the kernel -/

section Run

variable {h : Histogram} {M : Histogram.Meaning} {o : Options} {p : Plan} {g n locks : ℕ} {ns : GlobalNames}
  {parts : List (Part × GlobalPart)} {count share : Part → ℕ} {table : Option LockTable} {mlen : ℕ → ℕ}
  {gm : ℕ → ℕ → Value} {prior : (q : Part) → ℕ → Tuple q.op.scalars} {L : LaunchSpec → List Stmt → Exec Unit}
  {m : Name} {l : List Stmt} {chunk : Expr}

/-- the code that the kernel has for an element -/
def Plan.globalElement (p : Plan) (ns : GlobalNames) (m : Name) (l : List Stmt) : List Stmt :=
  p.elementBody (.ofName ns.segment) (.ofName ns.flat % p.elements) m l

/-- the kernel sets no variables but its own, new ones, and indices and parameters -/
theorem globalWork_sets (hst : GlobalStage p h M o R A X c k₀ k j g n ns parts count share table locks mlen s)
    (hnames : h.segmentDims.map (·.1) ++ [m] = h.indexNames) (hb : Bucketed ns.updating.update parts j l k')
    {x : Name} (hx : x ∈ blockSets (globalWork p ns (p.globalElement ns m l))) (hxj : x.Before j) :
    x = ns.segment ∨ x ∈ h.locals :=
  (List.mem_cons.1 hx).imp_right fun hx => Plan.elementBody_sets (hst.indexNames hnames) hst.regular hb
    (fun q hq => (hst.stands q hq).fit) ⟨rfl, hst.plan.elements.arrays⟩ hx hxj

/-- the variables that the kernel sets are new, or names of the histogram's own -/
theorem globalBody_sets (hst : GlobalStage p h M o R A X c k₀ k j g n ns parts count share table locks mlen s)
    (hnames : h.segmentDims.map (·.1) ++ [m] = h.indexNames) (hb : Bucketed ns.updating.update parts j l k') {x : Name}
    (hx : x ∈ blockSets (p.globalBody ns (parts.map (·.2)) chunk (p.globalElement ns m l))) (hxk : x.Before k) : x ∈ X := by
  have hyoung {y : Name} (hy : y ∈ ns.all ++ parts.map (·.2.copy)) : x ≠ y := fun he =>
    (hst.names y hy).not_before (he ▸ hxk)
  rcases sets_globalBody.1 hx with rfl | hx | rfl | rfl | hx
  · exact absurd rfl (hyoung (by simp [GlobalNames.all]))
  · rw [List.map_map] at hx
    exact absurd rfl (hyoung (List.mem_append_right _ hx))
  · exact absurd rfl (hyoung (by simp [GlobalNames.all]))
  · exact absurd rfl (hyoung (by simp [GlobalNames.all]))
  · rcases globalWork_sets hst hnames hb hx (hxk.mono hst.newer) with rfl | hm
    · exact absurd rfl (hyoung (by simp [GlobalNames.all]))
    · exact hst.scope.locals _ hm

/-- the kernel stores to its arrays only -/
theorem globalBody_stores (hst : GlobalStage p h M o R A X c k₀ k j g n ns parts count share table locks mlen s)
    (hb : Bucketed ns.updating.update parts j l k') :
    blockStores (p.globalBody ns (parts.map (·.2)) chunk (p.globalElement ns m l)) ⊆ globalTargets h table parts := by
  rw [stores_globalBody]
  exact Plan.elementBody_stores hst.plan.hist hst.regular hb (fun q hq => (hst.stands q hq).fit)
    ⟨rfl, hst.plan.elements.arrays⟩

/-- the names of the kernel are none of the histogram's -/
theorem GlobalStage.not_local (hst : GlobalStage p h M o R A X c k₀ k j g n ns parts count share table locks mlen s)
    {x : Name} (hx : x ∈ ns.all ++ parts.map (·.2.copy)) : x ∉ h.locals := fun hm =>
  (hst.names x hx).not_before (hst.below x (hst.scope.locals x hm))

/-- **The work for one element.** It finds the segment and gathers the element. -/
theorem globalWork_gathers {th e : ℕ}
    (hst : GlobalStage p h M o R A X c k₀ k j g n ns parts count share table locks mlen s) {c' : Context}
    (hc : c'.thread.isSome = true) (hrounds : c'.rounds = c.rounds)
    (hnames : h.segmentDims.map (·.1) ++ [m] = h.indexNames) (hb : Bucketed ns.updating.update parts j l k')
    (hth : th < g * n) (he : e < M.total) (hsees : Sees k X A s t)
    (hcopies : ∀ q ∈ parts, t.vars.get? q.2.copy = some (.word (th / share q.1 : ℕ)))
    (hflat : t.vars.get? ns.flat = some (.word e))
    (hkt : Memory.Keeps (globalTargets h table parts) s.memory t.memory)
    (hI : Gathered h M table locks mlen gm parts count prior e t.memory) :
    Runs f L c' (globalWork p ns (p.globalElement ns m l)) t fun u =>
      Gathered h M table locks mlen gm parts count prior (e + 1) u.memory := by
  have hsegment : ns.segment ∈ ns.all := by simp [GlobalNames.all]
  have hnew : ¬ ns.segment.Before k := (hst.names _ (List.mem_append_left _ hsegment)).not_before
  have hflatseg : ns.flat ≠ ns.segment := by
    have hnd := hst.nodup.of_append_left
    simp only [GlobalNames.all, List.nodup_cons, List.mem_singleton] at hnd
    exact hnd.2.2.1
  have hother {x : Name} (hx : x ≠ ns.segment) (v : Value) : (t.set ns.segment v).vars.get? x = t.vars.get? x := by
    rw [State.get?_set, if_neg (Ne.symm hx)]
  refine Runs.bindWord ((Computes.ofName hflat (Word64.fits_le hst.total he.le)).div
    ((hst.plan.elements.sees hsees).computes f _) (Nat.pos_of_mul_pos_left (Nat.zero_lt_of_lt he))) ?_
  refine elementBody_gathers hst hc hrounds hnames hb hth he (hsees.keeps (.set (List.mem_singleton_self _) _)
    (Nat.le_refl k) (fun x hx hxk => absurd (List.mem_singleton.1 hx ▸ hxk) hnew) fun _ _ _ hw => absurd hw List.not_mem_nil)
    (fun q hq => (hother (fun hx => ?_) _).trans (hcopies q hq)) ((hother hflatseg _).trans hflat) ?_ hkt hI
  · exact List.disjoint_of_nodup_append hst.nodup hsegment
      (hx ▸ List.mem_map_of_mem (f := fun q : Part × GlobalPart => q.2.copy) hq)
  · rw [State.get?_set, if_pos rfl]

/-- where a thread sees what the host sees, it can start -/
theorem GlobalStage.start {c' : Context} {th : ℕ}
    (hst : GlobalStage p h M o R A X c k₀ k j g n ns parts count share table locks mlen s)
    (hnames : h.segmentDims.map (·.1) ++ [m] = h.indexNames) (hb : Bucketed ns.updating.update parts j l k')
    (hchunk : Quantity k X s chunk (M.chunk (g * n))) (hc : c'.thread.isSome = true) (hlim : M.chunk (g * n) ≤ c'.rounds)
    (hnumber : Computes f c' t (.atPlace .globalId .x) th)
    (hsees : ∀ u, Keeps (blockSets (p.globalBody ns (parts.map (·.2)) chunk (p.globalElement ns m l)))
      (blockStores (p.globalBody ns (parts.map (·.2)) chunk (p.globalElement ns m l))) t u → Sees k X A s u) :
    ∃ share' : GlobalPart → ℕ, (∀ q ∈ parts, share' q.2 = share q.1) ∧
      GlobalStart f c' p ns (parts.map (·.2)) chunk (p.globalElement ns m l) share' M.total (g * n) th t := by
  have hnd := hst.nodup
  -- the variable of its copies tells the part of an operator
  have hshare : ∀ part : GlobalPart, ∃ a, ∀ q ∈ parts, q.2 = part → a = share q.1 := fun part => by
    by_cases hpart : ∃ q ∈ parts, q.2 = part
    · obtain ⟨q, hq, rfl⟩ := hpart
      exact ⟨share q.1, fun q' hq' he => by
        rw [List.inj_on_of_nodup_map hnd.of_append_right hq hq' (congrArg (·.copy) he.symm)]⟩
    · exact ⟨0, fun q hq he => absurd ⟨q, hq, he⟩ hpart⟩
  choose share' hshare' using hshare
  have htotal : Quantity k X s p.totalElements M.total := hst.plan.segments.mul hst.plan.elements hst.total
  have hdisj {x : Name} (hx : x ∈ ns.all) : x ∉ parts.map (·.2.copy) := fun hm => List.disjoint_of_nodup_append hnd hx hm
  have hcopies : (parts.map (·.2)).map (·.copy) = parts.map (·.2.copy) := by rw [List.map_map]; rfl
  -- the work sets no variable of the kernel but that of the segment
  have hfree {x : Name} (hx : x ∈ ns.all ++ parts.map (·.2.copy)) (hne : x ≠ ns.segment) :
      x ∉ blockSets (globalWork p ns (p.globalElement ns m l)) := fun hm =>
    (globalWork_sets hst hnames hb hm (hst.names x hx).before).elim hne (hst.not_local hx)
  have hall := hnd.of_append_left
  simp only [GlobalNames.all, List.nodup_cons, List.mem_cons, List.not_mem_nil, or_false, not_or, List.nodup_nil,
    not_false_eq_true, and_true] at hall
  obtain ⟨⟨hthreadk, hthreadflat, hthreadseg⟩, ⟨hkflat, hkseg⟩, -⟩ := hall
  refine ⟨share', fun q hq => hshare' q.2 q hq rfl, ?_⟩
  exact
    { device := hc
      rounds := hlim
      number := hnumber
      block := fun u hu => (hchunk.sees (hsees u hu)).computes f c'
      size := fun u hu => (htotal.sees (hsees u hu)).computes f c'
      shares := fun part hpart => by
        obtain ⟨q, hq, rfl⟩ := List.mem_map.1 hpart
        rw [hshare' q.2 q hq rfl]
        exact ⟨(hst.stands q hq).positive, fun u hu => ((hst.stands q hq).shared.sees (hsees u hu)).computes f c'⟩
      names := by
        rw [hcopies, List.nodup_cons]
        exact ⟨hdisj (by simp [GlobalNames.all]), hnd.of_append_right⟩
      kept := fun x hx => by
        rw [hcopies] at hx
        rcases List.mem_cons.1 hx with rfl | hx
        · exact ⟨hthreadk, hthreadflat, hfree (by simp [GlobalNames.all]) hthreadseg⟩
        · have hother {y : Name} (hy : y ∈ ns.all) : x ≠ y := fun he => hdisj hy (he ▸ hx)
          exact ⟨hother (by simp [GlobalNames.all]), hother (by simp [GlobalNames.all]),
            hfree (List.mem_append_right _ hx) (hother (by simp [GlobalNames.all]))⟩
      counter := ⟨hkflat, hfree (by simp [GlobalNames.all]) hkseg⟩ }

/-- **One thread.** It gathers the elements of its chunk. -/
theorem globalBody_runs {i jj : ℕ}
    (hst : GlobalStage p h M o R A X c k₀ k j g n ns parts count share table locks mlen s)
    (hnames : h.segmentDims.map (·.1) ++ [m] = h.indexNames) (hb : Bucketed ns.updating.update parts j l k')
    (hchunk : Quantity k X s chunk (M.chunk (g * n))) (hfit : Word64.fits (M.total + g * n : ℕ) = true)
    (hlim : M.chunk (g * n) ≤ c.rounds) (hi : i < n) (hjj : jj < g) (hsees : Sees k X A s t)
    (hkt : Memory.Keeps (globalTargets h table parts) s.memory t.memory)
    (hI : Gathered h M table locks mlen gm parts count prior (min ((i * g + jj) * M.chunk (g * n)) M.total) t.memory) :
    Runs f L (c.inGrid n g i jj) (p.globalBody ns (parts.map (·.2)) chunk (p.globalElement ns m l)) t fun u =>
      Gathered h M table locks mlen gm parts count prior (min ((i * g + jj + 1) * M.chunk (g * n)) M.total) u.memory := by
  have hth : i * g + jj < g * n :=
    calc i * g + jj < (i + 1) * g := by rw [Nat.succ_mul]; exact Nat.add_lt_add_left hjj _
      _ ≤ g * n := by rw [Nat.mul_comm]; exact Nat.mul_le_mul_left g hi
  have hnumber : Computes f (c.inGrid n g i jj) t (.atPlace .globalId .x) (i * g + jj : ℕ) :=
    .globalId (Word64.fits_le hst.plan.threads.fits hth.le)
  have hstores : blockStores (p.globalBody ns (parts.map (·.2)) chunk (p.globalElement ns m l)) ⊆ globalTargets h table parts :=
    globalBody_stores hst hb
  have hlater {u : State} (hu : Keeps (blockSets (p.globalBody ns (parts.map (·.2)) chunk (p.globalElement ns m l)))
      (blockStores (p.globalBody ns (parts.map (·.2)) chunk (p.globalElement ns m l))) t u) : Sees k X A s u :=
    hsees.keeps hu (Nat.le_refl k) (fun x hx hxk => globalBody_sets hst hnames hb hx hxk)
      fun x hx => ((hst.apart x hx).mono hstores).keeps hkt
  obtain ⟨share', hshare, hstart⟩ := hst.start hnames hb hchunk (rfl : (c.inGrid n g i jj).thread.isSome = true) hlim hnumber
    fun u hu => hlater hu
  have hsum : M.total + g * n < 2 ^ 63 := by
    have h := Word64.fits_iff.1 hfit
    omega
  refine (globalBody_obeys hth hsum hstart (fun kk m' => Gathered h M table locks mlen gm parts count prior
    (min ((i * g + jj) * M.chunk (g * n) + kk) M.total) m') (by simpa using hI) (fun kk _ hlt u hcopies hu hue hIu => ?_)
    fun kk _ hge m' hIm => ?_).mono fun u hIu => ?_
  · obtain ⟨e, he⟩ : ∃ e, (i * g + jj) * M.chunk (g * n) + kk = e := ⟨_, rfl⟩
    have hlt : e < M.total := he ▸ hlt
    have hflat : u.vars.get? ns.flat = some (.word e) := he ▸ hue
    rw [he, Nat.min_eq_left hlt.le] at hIu
    rw [← Nat.add_assoc, he, Nat.min_eq_left (Nat.succ_le_of_lt hlt)]
    refine globalWork_gathers hst rfl rfl hnames hb hth hlt (hlater hu) (fun q hq => ?_) hflat
      (hkt.trans (hu.memory.mono hstores)) hIu
    rw [hcopies q.2 (List.mem_map_of_mem hq), hshare q hq]
  · have hge : M.total ≤ (i * g + jj) * M.chunk (g * n) + kk := hge
    rw [Nat.min_eq_right hge] at hIm
    rwa [Nat.min_eq_right (by omega : M.total ≤ (i * g + jj) * M.chunk (g * n) + (kk + 1))]
  · rwa [Nat.succ_mul]

/-- the kernel reads nothing but what can be captured -/
theorem globalBody_over (hst : GlobalStage p h M o R A X c k₀ k j g n ns parts count share table locks mlen s)
    (hnames : h.segmentDims.map (·.1) ++ [m] = h.indexNames) (hb : Bucketed ns.updating.update parts j l k')
    (hchunk : Quantity k X s chunk (M.chunk (g * n))) :
    blockOver (Visible k X s) (fun x => x ∈ globalTargets h table parts ++ A)
      (p.globalBody ns (parts.map (·.2)) chunk (p.globalElement ns m l)) := by
  have hquantity {e : Expr} {a : ℕ} {V : Name → Prop} (he : Quantity k X s e a) (hV : ∀ x, Visible k X s x → V x) :
      e.Over V fun x => x ∈ globalTargets h table parts ++ A := he.scope.mono hV fun _ hx => hx.elim
  have hcopies : ∀ q ∈ parts, q.2.copy ∈ (parts.map (·.2)).map (·.copy) := fun q hq =>
    List.mem_map_of_mem (List.mem_map_of_mem hq)
  unfold Plan.globalBody
  rw [List.append_assoc, List.singleton_append, blockOver_cons, over_bind, binders_bind, blockOver_append, blockBinders_binds]
  refine ⟨trivial, blockOver_of_forall fun x hx => ?_, ?_⟩
  · obtain ⟨part, hpart, rfl⟩ := List.mem_map.1 hx
    obtain ⟨q, hq, rfl⟩ := List.mem_map.1 hpart
    exact over_bind.2 (over_div.2 ⟨over_ofName.2 (.inl (List.mem_singleton_self _)),
      hquantity (hst.stands q hq).shared fun _ => .inr⟩)
  · rw [blockOver_cons]
    refine ⟨over_count over_numeral (hquantity hchunk fun _ hx => .inr (.inr hx)) ?_, blockOver_nil⟩
    simp only [blockOver_cons, over_bind, binders_bind, over_ifThen, over_add, over_mul, over_ofName, over_lt,
      over_div, List.mem_singleton]
    refine ⟨⟨⟨by tauto, hquantity hchunk fun _ => by tauto⟩, by tauto⟩, ⟨⟨by tauto,
      hquantity hst.plan.segments fun _ => by tauto, hquantity hst.plan.elements fun _ => by tauto⟩,
      ⟨by tauto, hquantity hst.plan.elements fun _ => by tauto⟩, ?_⟩, blockOver_nil⟩
    refine Plan.elementBody_over (fun e he => ?_) (hquantity hst.plan.elements fun _ => by tauto) hst.plan.hist
      (hst.indexNames hnames) hst.regular hst.scope hb (fun q hq => (hst.stands q hq).fit) (fun _ => by tauto)
      (fun x hx => List.mem_append_right _ hx) (fun x hx => by simp [globalTargets, hx])
      (fun q hq x hx => List.mem_append_left _ (List.mem_append_right _ (List.mem_flatMap.2 ⟨q, hq, hx⟩))) (fun q hq => ?_)
      (fun t ht => ⟨by simp [globalTargets, lockNames, ht], hquantity (hst.lockCount t ht).1 fun _ => by tauto⟩)
      (over_ofName.2 (.inl rfl)) (over_mod.2 ⟨over_ofName.2 (by tauto), hquantity hst.plan.elements fun _ => by tauto⟩)
    · obtain ⟨x, hx⟩ := List.mem_iff_getElem?.1 he
      have hlt := (List.getElem?_eq_some_iff.1 hx).1
      have hq := hst.plan.sizes.get hlt (hst.plan.sizes.length_eq ▸ hlt)
      rw [List.get_eq_getElem, (List.getElem?_eq_some_iff.1 hx).2] at hq
      exact hquantity hq fun _ => by tauto
    · exact over_add.2 ⟨over_mul.2 ⟨over_ofName.2 (.inl rfl), hquantity (hst.stands q hq).counted fun _ => by tauto⟩,
        over_ofName.2 (.inr (.inr (.inr (.inl (hcopies q hq)))))⟩

/-- **The kernel.** It gathers all elements. -/
theorem globalKernel_runs (name : Name) (origin : Origin)
    (hst : GlobalStage p h M o R A X c k₀ k j g n ns parts count share table locks mlen s)
    (hnames : h.segmentDims.map (·.1) ++ [m] = h.indexNames) (hb : Bucketed ns.updating.update parts j l k')
    (hchunk : Quantity k X s chunk (M.chunk (g * n))) (hfit : Word64.fits (M.total + g * n : ℕ) = true)
    (hlim : M.chunk (g * n) ≤ c.rounds) (hthreads : 0 < g * n) (hc : c.thread = none) (hmax : (g : Int) ≤ c.limits.maxGroupSize)
    (hX : ∀ x ∈ globalTargets h table parts, x ∈ X) (hA : ∀ x ∈ A, ∃ p b, s.memory.Has x p b)
    (hI : Gathered h M table locks mlen gm parts count prior 0 s.memory) :
    Runs f (Machine.launch c) c [(Kernel.make name (p.globalBody ns (parts.map (·.2)) chunk (p.globalElement ns m l)) []
        [p.groupCount] [p.groupSize] origin).toStmt .unknown] s fun t =>
      t.vars = s.vars ∧ t.launched = s.launched.push name.text ∧
      Memory.Keeps (globalTargets h table parts) s.memory t.memory ∧
      Gathered h M table locks mlen gm parts count prior M.total t.memory := by
  have hstores : blockStores (p.globalBody ns (parts.map (·.2)) chunk (p.globalElement ns m l)) ⊆ globalTargets h table parts :=
    globalBody_stores hst hb
  have hcover : M.total ≤ M.chunk (g * n) * (g * n) := le_ceilDiv_mul _ hthreads
  have hthere {x : Name} (hx : x ∈ globalTargets h table parts ++ A) : ∃ p b, s.memory.Has x p b := by
    simp only [globalTargets, List.mem_append, List.mem_flatMap] at hx
    rcases hx with ((hx | hx) | ⟨q, hq, hx⟩) | hx
    · obtain ⟨mo, hmo, rfl⟩ := List.mem_map.1 hx
      obtain ⟨i, hi⟩ := List.mem_iff_getElem?.1 hmo
      obtain ⟨p, b, hb, -⟩ := hI.maps i mo hi
      exact ⟨p, b, hb⟩
    · cases htable : table with
      | none => simp [lockNames, htable] at hx
      | some tb =>
        obtain ⟨p, b, hb, -⟩ := hI.locks tb htable
        obtain rfl : x = tb.name := by simpa [lockNames, htable] using hx
        exact ⟨p, b, hb⟩
    · obtain ⟨T, hT, -⟩ := hI.copies q hq
      exact hT.has hx
    · exact hA x hx
  refine Runs.launch (V := Visible k X s) (A := fun x => x ∈ globalTargets h table parts ++ A)
    (fun th m => Gathered h M table locks mlen gm parts count prior (min (th * M.chunk (g * n)) M.total) m) hc
    (hst.plan.groupCount.computes f c) (hst.plan.groupSize.computes f c) hmax (globalBody_over hst hnames hb hchunk)
    (fun x hx => ⟨hx.2.2, fun hm => hx.2.1 ((List.mem_append.1 hm).elim (hX x) (hst.scope.arrays x))⟩) (fun x hx => ?_)
    (fun i jj w mem hi hjj hI' hk hw => ?_) (by simpa using hI) fun t hv hl hk hI' => ?_
  · obtain ⟨p, b, hb⟩ := hthere hx
    exact hb.contains
  · refine globalBody_runs hst hnames hb hchunk hfit hlim hi hjj ⟨fun x hx hxX => hw x fun hm => ?_, fun x hx a => ?_⟩
      (hk.mono hstores) hI'
    · exact hxX (globalBody_sets hst hnames hb (blockBinders_subset _ hm) hx)
    · exact (hst.apart x hx).read_eq (hk.mono hstores) a
  · refine ⟨hv, hl, hk.mono hstores, ?_⟩
    rwa [mul_comm n g, mul_comm (g * n), Nat.min_eq_right hcover] at hI'

end Run

end GpuHistogram
