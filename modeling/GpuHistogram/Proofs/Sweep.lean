/-
The phase of a group in local memory that combines the elements. The groups of a segment divide its elements among their
threads: each has a chunk of elements that follow each other, and one after the other the threads go through all of them in
their order (`LocalLayout.start`). `element_run`: the code for the next element combines it into the slot of the
thread, so that the slots and the other copies merge into what is gathered up to and including it. `sweep_run` says what
one thread does: it has a block of the elements (`sweep_obeys`).
-/
import GpuHistogram.Proofs.LocalLoops

namespace GpuHistogram

open Machine

variable {f : Form} {L : LaunchSpec → List Stmt → Exec Unit} {c c' : Context} {s t u : State}

namespace LocalLayout

variable {K : LocalLayout} {k k₀ k' j j' g n i l e : ℕ} {X A R : List Name} {h : Histogram} {M : Histogram.Meaning} {o : Options}
  {p : Plan} {m₁ : Memory} {mlen : ℕ → ℕ} {gm : ℕ → ℕ → Value} {q : Part × LocalPart} {x : Name} {updates : List Stmt}
  {prior : (q : Part) → ℕ → Tuple q.op.scalars} {sw : SweepNames}

/-! ## The chunks -/

/-- the number of elements in the chunk of a thread -/
def chunk (K : LocalLayout) (M : Histogram.Meaning) (g : ℕ) : ℕ :=
  (M.elements + K.perSegment * g - 1) / (K.perSegment * g)

/-- the number of the first element for the thread `l` of the group `i` -/
def start (K : LocalLayout) (M : Histogram.Meaning) (g i l : ℕ) : ℕ :=
  i / K.perSegment * M.elements + min ((i % K.perSegment * g + l) * K.chunk M g) M.elements

theorem start_zero : K.start M g 0 0 = 0 := by simp [start]

/-- where one group ends the next begins -/
theorem start_next (hP : 0 < K.perSegment) (hg : 0 < g) (i : ℕ) : K.start M g i g = K.start M g (i + 1) 0 := by
  unfold start
  have hdiv := Nat.div_add_mod i K.perSegment
  have hlt := Nat.mod_lt i hP
  by_cases hlast : i % K.perSegment + 1 = K.perSegment
  · -- the last group of a segment
    have hnext : i + 1 = K.perSegment * (i / K.perSegment + 1) := by
      rw [Nat.mul_succ]
      omega
    have hcover : M.elements ≤ K.chunk M g * (K.perSegment * g) := by
      have h := Nat.div_add_mod (M.elements + K.perSegment * g - 1) (K.perSegment * g)
      have hmod := Nat.mod_lt (M.elements + K.perSegment * g - 1) (Nat.mul_pos hP hg)
      rw [Nat.mul_comm] at h
      unfold chunk
      omega
    have hthreads : i % K.perSegment * g + g = K.perSegment * g := by
      conv_rhs => rw [← hlast, Nat.succ_mul]
    rw [hthreads, Nat.mul_comm (K.perSegment * g), Nat.min_eq_right hcover, hnext, Nat.mul_div_cancel_left _ hP, Nat.mul_mod_right,
      Nat.zero_mul, Nat.zero_add, Nat.zero_mul, Nat.zero_min, Nat.succ_mul, Nat.add_zero]
  · have hnext : i + 1 = K.perSegment * (i / K.perSegment) + (i % K.perSegment + 1) := by omega
    have hlt' : i % K.perSegment + 1 < K.perSegment := by omega
    have hquot : (i + 1) / K.perSegment = i / K.perSegment := by
      conv_lhs => rw [hnext, Nat.mul_add_div hP, Nat.div_eq_of_lt hlt', Nat.add_zero]
    have hrest : (i + 1) % K.perSegment = i % K.perSegment + 1 := by
      conv_lhs => rw [hnext, Nat.mul_add_mod, Nat.mod_eq_of_lt hlt']
    rw [hquot, hrest, Nat.succ_mul, Nat.add_zero]

/-- the last group ends with the last element -/
theorem start_end (hP : 0 < K.perSegment) : K.start M g (M.segments * K.perSegment) 0 = M.total := by
  simp [start, Nat.mul_div_cancel _ hP, Histogram.Meaning.total]

/-! ## The elements so far -/

/-- what a group has left in memory: the map results of the elements below `e`, and the copies, of which `r` is known -/
structure Held (K : LocalLayout) (h : Histogram) (M : Histogram.Meaning) (mlen : ℕ → ℕ) (gm : ℕ → ℕ → Value) (g e : ℕ)
    (r : (q : Part × LocalPart) → (ℕ → Tuple q.1.op.scalars) → (ℕ → Tuple q.1.op.scalars) → Prop) (m : Memory) : Prop where
  locks : LocksFree K.table g m
  maps : MapsStored h M mlen gm (· < e) m
  tables : ∀ q ∈ K.parts, K.Tables M q (r q) m

variable {r r' : (q : Part × LocalPart) → (ℕ → Tuple q.1.op.scalars) → (ℕ → Tuple q.1.op.scalars) → Prop}

theorem Held.mono {m : Memory} (hm : K.Held h M mlen gm g e r m) (hr : ∀ q ∈ K.parts, ∀ T V, r q T V → r' q T V) :
    K.Held h M mlen gm g e r' m :=
  ⟨hm.locks, hm.maps, fun q hq => (hm.tables q hq).mono (hr q hq)⟩

/-- nothing else changes that a thread relies on -/
theorem Held.thread {V W : List Name} {e' : ℕ} (hu : K.Held h M mlen gm g e' r u.memory)
    (ht : K.Thread h M mlen gm k X s m₁ g i l e t) (hk : Keeps V W t u) (hV : ∀ x ∈ V, x.Before k → x ∈ X)
    (hns : ∀ x ∈ K.ns.all, x ∉ V) (hW : W ⊆ K.written h) : K.Thread h M mlen gm k X s m₁ g i l e' u where
  vars := ht.vars.keeps hk rfl hV hns
  memory := ht.memory.trans (hk.memory.mono hW)
  locks := hu.locks
  maps := hu.maps

/-- the elements below `e` are combined -/
abbrev Swept (K : LocalLayout) (h : Histogram) (M : Histogram.Meaning) (mlen : ℕ → ℕ) (gm : ℕ → ℕ → Value)
    (prior : (q : Part) → ℕ → Tuple q.op.scalars) (g i e : ℕ) (m : Memory) : Prop :=
  K.Held h M mlen gm g e (K.Gathers M prior i e) m

/-- the code that a thread has for an element -/
def element (K : LocalLayout) (p : Plan) (sw : SweepNames) (x : Name) (updates : List Stmt) : List Stmt :=
  p.elementBody (.ofName K.ns.segment) (.ofName sw.e) x updates

section Sweep

variable (hst : K.Stage p h M o R A X c k₀ k j g n mlen s) (hnames : h.segmentDims.map (·.1) ++ [x] = h.indexNames)
  (hb : Bucketed K.updating.update K.parts j' updates k')
include hst hb

/-- the code for an element stores to the arrays of the kernel only -/
theorem element_stores : blockStores (K.element p sw x updates) ⊆ K.targets h :=
  Plan.elementBody_stores hst.plan.hist hst.regular hb hst.fits ⟨rfl, hst.plan.elements.arrays⟩

theorem sweep_stores : blockStores (p.sweep K.ns K.shape sw (K.element p sw x updates)) ⊆ K.written h := by
  rw [stores_sweep]
  exact List.Subset.trans (element_stores hst hb) targets_subset

include hnames

/-- the code for an element sets indices, parameters and new variables only -/
theorem element_sets {y : Name} (hy : y ∈ blockSets (K.element p sw x updates)) (hyj : y.Before j') : y ∈ h.locals :=
  Plan.elementBody_sets (hst.indexNames hnames) hst.regular hb hst.fits ⟨rfl, hst.plan.elements.arrays⟩ hy hyj

theorem sweep_sets (hsw : ∀ y ∈ [sw.thread, sw.k, sw.e, sw.chunk], y.Within j j') {y : Name}
    (hy : y ∈ blockSets (p.sweep K.ns K.shape sw (K.element p sw x updates))) (hyj : y.Before j') :
    y.Within j j' ∨ y ∈ h.locals := by
  rcases sets_sweep.1 hy with rfl | rfl | rfl | rfl | hy
  · exact .inl (hsw _ (by simp))
  · exact .inl (hsw _ (by simp))
  · exact .inl (hsw _ (by simp))
  · exact .inl (hsw _ (by simp))
  · exact .inr (element_sets hst hnames hb hy hyj)

variable (hsc : K.Scene h A s m₁) (hc : c'.thread.isSome = true)
  (hrounds : c'.rounds = c.rounds) (hlocal : ∀ t, Computes f c' t .localSize g) (hl : l < g)
  (hi : i < M.segments * K.perSegment) (hj : j ≤ j')
include hsc hc hrounds hlocal hl hi hj

/-- **The next element.** Its tuples are combined into the slot of the thread, and its map results are stored. -/
theorem element_run {y : ℕ} (hsw : sw.e.Within j j') (hy : y < M.elements)
    (ht : K.Thread h M mlen gm k X s m₁ g i l (i / K.perSegment * M.elements + y) t)
    (hye : t.vars.get? sw.e = some (.word y))
    (hT : ∀ q ∈ K.parts, K.Tables M q (K.Gathers M prior i (i / K.perSegment * M.elements + y) q) t.memory) :
    Runs f L c' (K.element p sw x updates) t fun u =>
      K.Swept h M mlen gm prior g i (i / K.perSegment * M.elements + y + 1) u.memory := by
  have hr := hst.regular
  have hkj := hst.newer.trans hj
  have hsees := ht.sees hsc
  have hplan : p.Describes h M o k₀ j' X g n t := hst.plan.keep hkj hsees.vars
  have hsegment : i / K.perSegment < M.segments := Nat.div_lt_of_lt_mul (by rwa [Nat.mul_comm])
  have hsplit : i / K.perSegment * K.perSegment + i % K.perSegment = i := Nat.div_add_mod' i _
  have hlt : i / K.perSegment * M.elements + y < M.total := by
    have h := Nat.mul_le_mul_right M.elements (Nat.succ_le_of_lt hsegment)
    rw [Nat.succ_mul] at h
    unfold Histogram.Meaning.total
    omega
  have hfit : Word64.fits (i / K.perSegment * M.elements + y : ℕ) = true := Word64.fits_le hst.total hlt.le
  have hyoung {y : Name} (hy : y.Within k j') : y.Before j' ∧ y ∉ X :=
    ⟨hy.before, fun hX => hy.not_before (hst.below y hX)⟩
  have hnsAll {y : Name} (hy : y ∈ K.ns.all) : y.Before j' ∧ y ∉ X :=
    hyoung ((hst.names y hy).mono (Nat.le_refl k) hj)
  have hsegmentQ : Quantity j' X t (.ofName K.ns.segment) (i / K.perSegment) :=
    .ofName (hnsAll (by simp [LocalNames.all])).1 (hnsAll (by simp [LocalNames.all])).2 ht.vars.segment
      (Word64.fits_le hfit ((Nat.le_mul_of_pos_right _ (Nat.zero_lt_of_lt hy)).trans (Nat.le_add_right _ _)))
  have helemQ : Quantity j' X t (.ofName sw.e) y :=
    .ofName (hyoung (hsw.mono hst.newer (Nat.le_refl _))).1 (hyoung (hsw.mono hst.newer (Nat.le_refl _))).2 hye
      (Word64.fits_le hfit (Nat.le_add_left _ _))
  have hpos := hst.numbers.slots_pos
  -- the tables of all operators
  have hchoice : ∀ q : Part × LocalPart, ∃ T V : ℕ → Tuple q.1.op.scalars, q ∈ K.parts →
      t.memory.Table q.1.subs.subs q.1.op.scalars (M.segments * K.perSegment * M.size q.1.op) T ∧
      t.memory.Table q.2.blocks q.1.op.scalars (K.slots * M.size q.1.op) V ∧
      K.Gathers M prior i (i / K.perSegment * M.elements + y) q T V := fun q => by
    by_cases hq : q ∈ K.parts
    · obtain ⟨T, V, h⟩ := hT q hq
      exact ⟨T, V, fun _ => h⟩
    · exact ⟨fun _ => M.neutral q.1.op, fun _ => M.neutral q.1.op, fun h => absurd h hq⟩
  choose T V hTV using hchoice
  have hstands : ∀ q ∈ K.parts, K.updating.Stands h M K.table j' X (fun _ => l % K.slots)
      (fun q => K.slots * M.size q.1.op) t q := fun q hq => by
    have hslots := (hst.numbers.filled _ (hst.op_mem hq)).1
    have hfits := hst.fits q hq
    refine ⟨⟨hfits.part.keep hkj hsees.vars, hfits.method, hfits.targets⟩, ?_, ⟨K.slots, Nat.mod_lt _ hpos, rfl⟩,
      Word64.fits_le hslots (Nat.le_add_right _ _)⟩
    exact .ofName (hnsAll (by simp [LocalNames.all])).1 (hnsAll (by simp [LocalNames.all])).2 ht.vars.slot
      (Word64.fits_le hslots (by have := Nat.mod_le l K.slots; omega))
  have hlocks : ∀ tb, K.table = some tb → (∀ u, Sees j' X A t u → Computes f c' u tb.count g) ∧ 0 < g := fun tb htb => by
    obtain ⟨hcount, -⟩ := hst.locks tb htb
    exact ⟨fun u _ => hcount ▸ hlocal u, Nat.zero_lt_of_lt hl⟩
  have hun : t.memory.Unaliased (K.targets h) := by
    have hw := hsc.unaliased
    rw [Memory.Unaliased, ← ht.memory.names] at hw
    obtain ⟨hmaps, hown, hcross⟩ := List.pairwise_append.1 hw
    obtain ⟨hin, hbetween⟩ := List.pairwise_flatMap.1 hown
    refine List.pairwise_append.2 ⟨hmaps, List.pairwise_flatMap.2 ⟨fun q hq => (List.pairwise_append.1 (hin q hq)).1,
      hbetween.imp fun hqq x hx y hy => hqq x (List.mem_append_left _ hx) y (List.mem_append_left _ hy)⟩, fun x hx y hy => ?_⟩
    obtain ⟨q, hq, hy⟩ := List.mem_flatMap.1 hy
    exact hcross x hx y (List.mem_flatMap.2 ⟨q, hq, List.mem_append_left _ hy⟩)
  refine ((element_absorbs (e := y) hr hst.shapes (hst.older.trans hkj) hst.scope.locals (hst.means.later hsees hkj) hc
    (by rw [hrounds]; exact hst.rounds) hplan.hist (hst.indexNames hnames) hplan.sizes hplan.elements hst.total hsegment hy
    hsegmentQ helemQ hst.mapsLength hb hstands hlocks hun (fun x hx => ((hsc.apart x hx).mono targets_subset).keeps ht.memory)
    ht.maps (fun q hq => (hTV q hq).2.1) ht.locks).keeps hc).mono ?_
  rintro u ⟨⟨hV, hfree, hmaps⟩, hku⟩
  refine ⟨hfree, hmaps.congr fun a => by omega, fun q hq => ⟨T q, _, ?_, hV q hq, fun hm a ha => ?_⟩⟩
  · exact (hTV q hq).1.keeps hku.memory fun z hz => ((hsc.subs_apart hq hz).mono (element_stores hst hb)).keeps ht.memory
  · have hsize : 0 < M.size q.1.op := Nat.pos_of_mul_pos_left (Nat.zero_lt_of_lt ha)
    have hcopy : (i / K.perSegment * M.elements + y) / M.elements * K.perSegment + i % K.perSegment = i := by
      rw [Nat.mul_comm _ M.elements, Nat.mul_add_div (Nat.zero_lt_of_lt hy), Nat.div_eq_of_lt hy, Nat.add_zero, hsplit]
    rw [Copies.insertCopy_absorb (hm.commutes (Nat.zero_lt_of_lt hlt)) hsize (Nat.mod_lt _ hpos)]
    have hnext := Histogram.Meaning.gathered_absorb hm hlt hsize (Nat.mod_lt i hst.numbers.perSegment_pos)
      ((hTV q hq).2.2 hm a ha)
    rwa [hcopy] at hnext

/-- **The chunk of a thread.** All its elements are combined. -/
theorem sweep_run (hsw : ∀ y ∈ [sw.thread, sw.k, sw.e, sw.chunk], y.Within j j')
    (hnd : [sw.thread, sw.k, sw.e, sw.chunk].Nodup) (ht : K.Thread h M mlen gm k X s m₁ g i l (K.start M g i l) t)
    (hT : ∀ q ∈ K.parts, K.Tables M q (K.Gathers M prior i (K.start M g i l) q) t.memory) :
    Runs f L c' (p.sweep K.ns K.shape sw (K.element p sw x updates)) t fun u =>
      K.Thread h M mlen gm k X s m₁ g i l (K.start M g i (l + 1)) u ∧
      ∀ q ∈ K.parts, K.Tables M q (K.Gathers M prior i (K.start M g i (l + 1)) q) u.memory := by
  have htid : i % K.perSegment * g + l < K.perSegment * g :=
    calc i % K.perSegment * g + l < (i % K.perSegment + 1) * g := by rw [Nat.succ_mul]; exact Nat.add_lt_add_left hl _
      _ ≤ K.perSegment * g := Nat.mul_le_mul_right g (Nat.mod_lt i hst.numbers.perSegment_pos)
  have hfit : M.elements + K.perSegment * g < 2 ^ 63 := by
    have h := Word64.fits_iff.1 hst.numbers.threads
    omega
  -- the loop changes nothing that a thread relies on
  have hsets {y : Name} (hy : y ∈ blockSets (p.sweep K.ns K.shape sw (K.element p sw x updates))) (hyk : y.Before j) :
      y.Within j j' ∨ y ∈ h.locals := sweep_sets hst hnames hb hsw hy (hyk.mono hj)
  have hstores : blockStores (p.sweep K.ns K.shape sw (K.element p sw x updates)) ⊆ K.written h := sweep_stores hst hb
  have hsees {v : State} (hv : Keeps (blockSets (p.sweep K.ns K.shape sw (K.element p sw x updates)))
      (blockStores (p.sweep K.ns K.shape sw (K.element p sw x updates))) t v) : Sees k X A s v :=
    (ht.sees hsc).keeps hv (Nat.le_refl k) (fun y hy hyk => hst.mem_of_before (hsets hy (hyk.mono hst.newer)) hyk)
      fun y hy => ((hsc.apart y hy).mono hstores).keeps ht.memory
  have hlater {e : ℕ} {v : State} (hS : K.Swept h M mlen gm prior g i e v.memory)
      (hv : Keeps (blockSets (p.sweep K.ns K.shape sw (K.element p sw x updates)))
        (blockStores (p.sweep K.ns K.shape sw (K.element p sw x updates))) t v) : K.Thread h M mlen gm k X s m₁ g i l e v :=
    hS.thread ht hv (fun y hy hyk => hst.mem_of_before (hsets hy (hyk.mono hst.newer)) hyk)
      (fun y hy hm => hst.not_start hy (hsets hm (hst.names y hy).before)) hstores
  have hstart : SweepStart f c' p K.ns K.shape sw (K.element p sw x updates) M.elements K.perSegment g (i % K.perSegment) l t :=
    { device := hc
      rounds := by rw [hrounds]; exact hst.numbers.chunk
      group := ht.vars.group
      thread := ht.vars.thread
      groups := fun v hv => (hst.perSegment.sees (hsees hv)).computes f c'
      groupSize := fun v _ => hlocal v
      size := fun v hv => (hst.plan.elements.sees (hsees hv)).computes f c'
      names := (List.Perm.cons _ (List.perm_append_singleton sw.chunk [sw.k, sw.e])).nodup_iff.1 hnd
      kept := fun y hy hm => by
        have hy : y.Within j j' := hsw y (by simp only [List.mem_cons] at hy ⊢; tauto)
        exact hy.not_before ((hst.locals (element_sets hst hnames hb hm hy.before)).2.mono hst.newer) }
  refine ((sweep_obeys htid hfit hstart (fun kk m => K.Swept h M mlen gm prior g i (i / K.perSegment * M.elements +
    min ((i % K.perSegment * g + l) * K.chunk M g + kk) M.elements) m) ⟨ht.locks, ht.maps, hT⟩
    (fun kk _ hlt u _ hu hue hS => ?_) fun kk _ hge m hS => ?_).keeps hc).mono ?_
  · have hlt : (i % K.perSegment * g + l) * K.chunk M g + kk < M.elements := hlt
    rw [Nat.min_eq_left hlt.le] at hS
    rw [Nat.min_eq_left (by omega : (i % K.perSegment * g + l) * K.chunk M g + (kk + 1) ≤ M.elements)]
    exact element_run hst hnames hb hsc hc hrounds hlocal hl hi hj (hsw _ (by simp)) hlt (hlater hS hu) hue hS.tables
  · have hge : M.elements ≤ (i % K.perSegment * g + l) * K.chunk M g + kk := hge
    rw [Nat.min_eq_right hge] at hS
    rwa [Nat.min_eq_right (by omega : M.elements ≤ (i % K.perSegment * g + l) * K.chunk M g + (kk + 1))]
  · rintro u ⟨hS, hu⟩
    have hend : i / K.perSegment * M.elements + min ((i % K.perSegment * g + l) * K.chunk M g + K.chunk M g) M.elements =
        K.start M g i (l + 1) := by
      rw [start, ← Nat.succ_mul]
      rfl
    have hS : K.Swept h M mlen gm prior g i (K.start M g i (l + 1)) u.memory := hend ▸ hS
    exact ⟨hlater hS hu, hS.tables⟩

end Sweep

end LocalLayout

end GpuHistogram
