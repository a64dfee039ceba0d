/-
The kernel that accumulates in local memory. Its groups run one after the other. Each finds the copies of all groups merged
into what is gathered of the elements before its own (`LocalLayout.Merged`) and leaves them so for the elements up to its
last: `group_runs` puts its phases together, and with it `localKernel_runs` says that in the end all elements are gathered.
-/
import GpuHistogram.Proofs.LocalBody

namespace GpuHistogram

open Machine

variable {f : Form} {L : LaunchSpec → List Stmt → Exec Unit} {c c' : Context} {s t u : State}

/-- a tuple of zeros -/
def Tuple.zero (ss : List Scalar) : Tuple ss where
  cells := ss.map .zero
  length_eq := List.length_map _
  fits := fun i sc v hs hv => by
    rw [List.getElem?_map, hs, Option.map_some, Option.some.injEq] at hv
    subst hv
    cases sc <;> decide

theorem Tuple.cell_zero {ss : List Scalar} {i : ℕ} {sc : Scalar} (h : ss[i]? = some sc) :
    (Tuple.zero ss).cell i = .zero sc :=
  Tuple.cell_eq (by rw [Tuple.zero, List.getElem?_map, h]; rfl)

namespace LocalLayout

variable {K : LocalLayout} {k k₀ k' j g n i l e : ℕ} {X A R : List Name} {h : Histogram} {M : Histogram.Meaning} {o : Options}
  {p : Plan} {m m₁ : Memory} {mlen : ℕ → ℕ} {gm : ℕ → ℕ → Value} {q : Part × LocalPart} {x : Name}
  {prior : (q : Part) → ℕ → Tuple q.op.scalars}

/-! ## Local memory -/

/-- the arrays that a group has in local memory -/
def privates (K : LocalLayout) : List Name := (K.parts.flatMap fun q => q.2.blocks) ++ lockNames K.table

theorem mem_written : x ∈ K.written h ↔ x ∈ K.privates ∨ x ∈ h.mapNames ++ K.subs := by
  have hown : x ∈ K.parts.flatMap own ↔ x ∈ (K.parts.flatMap fun q => q.2.blocks) ∨ x ∈ K.subs := by
    simp only [own, subs, List.mem_flatMap, List.mem_append]
    constructor
    · rintro ⟨q, hq, hx⟩
      exact hx.imp (fun hx => ⟨q, hq, hx⟩) fun hx => ⟨q, hq, hx⟩
    · rintro (⟨q, hq, hx⟩ | ⟨q, hq, hx⟩)
      exacts [⟨q, hq, .inl hx⟩, ⟨q, hq, .inr hx⟩]
  simp only [written, privates, List.mem_append, hown]
  tauto

/-- the local memory of a group: the slots of all operators, and a lock for each thread -/
def sized (K : LocalLayout) (M : Histogram.Meaning) (g : ℕ) : List SizedBlock :=
  (K.parts.flatMap fun q => (q.1.localArrays q.2.blocks).map fun a => ⟨a.1, a.2, K.slots * M.size q.1.op⟩)
    ++ K.table.toList.map fun t => ⟨t.name, .i32, g⟩

section Blocks

variable (hst : K.Stage p h M o R A X c k₀ k j g n mlen s)
include hst

theorem names_sized : (K.sized M g).map (·.name) = K.privates := by
  have hparts {parts : List (Part × LocalPart)} (hsub : parts ⊆ K.parts) :
      (parts.flatMap fun q => (q.1.localArrays q.2.blocks).map fun a =>
        (⟨a.1, a.2, K.slots * M.size q.1.op⟩ : SizedBlock)).map (·.name) = parts.flatMap fun q => q.2.blocks := by
    induction parts with
    | nil => rfl
    | cons q parts ih =>
      rw [List.flatMap_cons, List.flatMap_cons, List.map_append, ih fun x hx => hsub (List.mem_cons_of_mem q hx), List.map_map]
      exact congrArg (· ++ _) (hst.localArrays (hsub (List.mem_cons_self ..))).1
  rw [sized, privates, List.map_append, hparts (List.Subset.refl _), lockNames, List.map_map]
  rfl

/-- the sizes of the blocks are numbers where the kernel is launched -/
theorem sized_of : List.Forall₂ (SizedBlock.Of c s) (p.localMemory K.shape K.table K.parts) (K.sized M g) := by
  have hparts {parts : List (Part × LocalPart)} (hsub : parts ⊆ K.parts) :
      List.Forall₂ (SizedBlock.Of c s) (parts.flatMap fun q => q.1.localBlocks K.shape q.2.blocks)
        (parts.flatMap fun q => (q.1.localArrays q.2.blocks).map fun a => ⟨a.1, a.2, K.slots * M.size q.1.op⟩) := by
    induction parts with
    | nil => exact .nil
    | cons q parts ih =>
      have hq : q ∈ K.parts := hsub (List.mem_cons_self ..)
      have hsize := hst.slots.mul (hst.fits q hq).part.size
        (Word64.fits_le (hst.numbers.filled _ (hst.op_mem hq)).1 (Nat.le_add_right _ _))
      rw [List.flatMap_cons, List.flatMap_cons]
      refine List.rel_append ?_ (ih fun x hx => hsub (List.mem_cons_of_mem q hx))
      unfold Part.localBlocks
      rw [List.forall₂_map_left_iff, List.forall₂_map_right_iff, List.forall₂_same]
      exact fun a _ => ⟨rfl, rfl, _, rfl, fun f => hsize.computes f c⟩
  unfold Plan.localMemory sized
  refine List.rel_append (hparts (List.Subset.refl _)) ?_
  cases K.table with
  | none => exact .nil
  | some tb => exact .cons ⟨rfl, rfl, _, rfl, fun f => hst.plan.groupSize.computes f c⟩ .nil

theorem names_localMemory : (p.localMemory K.shape K.table K.parts).map (·.name) = K.privates := by
  rw [← names_of_sized (sized_of hst), names_sized hst]

end Blocks

/-- the local memory that a kernel needs: the names of its arrays are new, and it can be allocated -/
structure Room (K : LocalLayout) (h : Histogram) (M : Histogram.Meaning) (A X : List Name) (g : ℕ) : Prop where
  nodup : K.privates.Nodup
  fresh : ∀ x ∈ K.privates, x ∉ h.mapNames ++ K.subs ++ A
  reserved : ∀ x ∈ K.privates, x ∈ X
  slots : ∀ op ∈ h.operators, K.slots * M.size op < unallocatable
  locks : K.table.isSome = true → g < unallocatable

/-! ## Where a group starts -/

/-- **The start of a thread.** It computes its place. -/
theorem start_run {L : LaunchSpec → List Stmt → Exec Unit} {N : ℕ} {w : Bindings Value} {launched : Array String}
    (hst : K.Stage p h M o R A X c k₀ k j g n mlen s) (hi : i < M.segments * K.perSegment) (hl : l < g)
    (hw : ∀ x : Name, x.Before k → x ∉ X → w.get? x = s.vars.get? x) :
    Runs f L (c.inGrid N g i l) (Plan.localStart K.ns K.shape) ⟨w, m, launched⟩ fun t =>
      K.Vars k X s i l t.vars ∧ t.memory = m := by
  have hlFit : Word64.fits (l : ℕ) = true := Word64.fits_le hst.plan.groupSize.fits hl.le
  have hiFit : Word64.fits (i : ℕ) = true := Word64.fits_le hst.numbers.grid hi.le
  have hthread (t : State) : Computes f (c.inGrid N g i l) t (.atPlace .localId .x) l :=
    .place (by simp [ThreadPlace.get, Triple.get]) hlFit
  have hgroup (t : State) : Computes f (c.inGrid N g i l) t (.atPlace .groupId .x) i :=
    .place (by simp [ThreadPlace.get, Triple.get]) hiFit
  have hyoung {x : Name} (hx : x ∈ K.ns.all) : ¬ x.Before k := (hst.names x hx).not_before
  -- the sizes of the host keep their values
  have hquantity {e : Expr} {a : ℕ} (he : Quantity k X s e a) {t : State}
      (ht : ∀ x : Name, x.Before k → x ∉ X → t.vars.get? x = s.vars.get? x) : Computes f (c.inGrid N g i l) t e a :=
    (he.keep (Nat.le_refl k) fun x hx => ht x (he.scalars x hx).1 (he.scalars x hx).2).computes f _
  have hset {y : Name} (hy : y ∈ K.ns.all) (v : Value) {t : State}
      (ht : ∀ x : Name, x.Before k → x ∉ X → t.vars.get? x = s.vars.get? x) :
      ∀ x : Name, x.Before k → x ∉ X → (t.set y v).vars.get? x = s.vars.get? x := fun x hx hxX => by
    rw [State.get?_set, if_neg (fun he : y = x => hyoung hy (he ▸ hx)), ht x hx hxX]
  have hmem (y : Name) (hy : y ∈ [K.ns.thread, K.ns.group, K.ns.segment, K.ns.slot]) : y ∈ K.ns.all := hy
  have hnd := hst.nodup
  simp only [LocalNames.all, List.nodup_cons, List.mem_cons, List.not_mem_nil, or_false, not_or, List.nodup_nil,
    not_false_eq_true, and_true] at hnd
  obtain ⟨⟨htg, hts, htl⟩, ⟨hgs, hgl⟩, hsl⟩ := hnd
  unfold Plan.localStart
  refine Runs.bindWord (hthread _) ?_
  have h₁ := hset (t := ⟨w, m, launched⟩) (hmem K.ns.thread (by simp)) (.word l) hw
  refine Runs.bindWord ((hgroup _).mod (hquantity hst.perSegment h₁) hst.numbers.perSegment_pos) ?_
  have h₂ := hset (hmem K.ns.group (by simp)) (.word (i % K.perSegment : ℕ)) h₁
  refine Runs.bindWord ((hgroup _).div (hquantity hst.perSegment h₂) hst.numbers.perSegment_pos) ?_
  have h₃ := hset (hmem K.ns.segment (by simp)) (.word (i / K.perSegment : ℕ)) h₂
  refine Runs.bindWord ((Computes.ofName ?_ hlFit).mod (hquantity hst.slots h₃) hst.numbers.slots_pos) (Runs.nil ⟨?_, rfl⟩)
  · rw [State.get?_set, if_neg (Ne.symm hts), State.get?_set, if_neg (Ne.symm htg), State.get?_set, if_pos rfl]
  · refine ⟨hset (hmem K.ns.slot (by simp)) _ h₃, ?_, ?_, ?_, ?_⟩
    · rw [State.get?_set, if_neg (Ne.symm htl), State.get?_set, if_neg (Ne.symm hts), State.get?_set, if_neg (Ne.symm htg),
        State.get?_set, if_pos rfl]
    · rw [State.get?_set, if_neg (Ne.symm hgl), State.get?_set, if_neg (Ne.symm hgs), State.get?_set, if_pos rfl]
    · rw [State.get?_set, if_neg (Ne.symm hsl), State.get?_set, if_pos rfl]
    · rw [State.get?_set, if_pos rfl]

section Start

variable (hst : K.Stage p h M o R A X c k₀ k j g n mlen s) (hroom : K.Room h M A X g)
include hst hroom

theorem extends_group (m : Memory) : Memory.Extends K.privates m (withBlocks m (K.sized M g)) := by
  have hnd : ((K.sized M g).map (·.name)).Nodup := by
    rw [names_sized hst]
    exact hroom.nodup
  have h := extends_withBlocks m hnd
  rwa [names_sized hst] at h

/-- the arrays of a group share no buffers -/
theorem group_scene (hk : Memory.Keeps (h.mapNames ++ K.subs) s.memory m)
    (hthere : ∀ x ∈ h.mapNames ++ K.subs ++ A, ∃ i b, m.Has x i b) : K.Scene h A s (withBlocks m (K.sized M g)) := by
  have he := extends_group hst hroom m
  have hname {x : Name} (hx : x ∈ h.mapNames ++ K.subs ++ A) : (withBlocks m (K.sized M g)).names.get? x = s.memory.names.get? x := by
    rw [he.names x fun hm => hroom.fresh x hm hx, hk.names]
  have hnew {x : Name} (hx : x ∈ h.mapNames ++ K.subs ++ A) : (withBlocks m (K.sized M g)).Apart K.privates x := by
    obtain ⟨i, b, hb⟩ := hthere x hx
    exact he.apart hb fun hm => hroom.fresh x hm hx
  have hperm : (K.written h).Perm ((h.mapNames ++ K.subs) ++ K.privates) := by
    have hown : (K.parts.flatMap own).Perm ((K.parts.flatMap fun q => q.2.blocks) ++ K.subs) :=
      (List.flatMap_append_perm K.parts (fun q => q.2.blocks) fun q => q.1.subs.subs).symm
    calc K.written h = h.mapNames ++ (lockNames K.table ++ K.parts.flatMap own) := List.append_assoc ..
      List.Perm _ (h.mapNames ++ (lockNames K.table ++ ((K.parts.flatMap fun q => q.2.blocks) ++ K.subs))) :=
        (hown.append_left _).append_left _
      List.Perm _ (h.mapNames ++ (K.subs ++ ((K.parts.flatMap fun q => q.2.blocks) ++ lockNames K.table))) := by
        refine List.Perm.append_left _ ?_
        rw [← List.append_assoc]
        exact List.perm_append_comm.trans (List.perm_append_comm.append_left _)
      _ = (h.mapNames ++ K.subs) ++ K.privates := (List.append_assoc ..).symm
  refine ⟨?_, fun x hx w hw => ?_, fun x hx a => ?_⟩
  · refine (List.Perm.pairwise_iff (fun h i hi hi' => h i hi' hi) hperm).2 (List.pairwise_append.2 ⟨?_, he.unaliased,
      fun x hx y hy i hi hi' => hnew (List.mem_append_left _ hx) y hy i hi hi'⟩)
    refine hst.unaliased.imp_of_mem fun hx hy hxy i hi => ?_
    rw [hname (List.mem_append_left _ hx)] at hi
    rw [hname (List.mem_append_left _ hy)]
    exact hxy i hi
  · have hxA : x ∈ h.mapNames ++ K.subs ++ A := List.mem_append_right _ hx
    rcases List.mem_append.1 (hperm.mem_iff.1 hw) with hw | hw
    · exact (hst.apart x hx).of_names (hname hxA) (fun w hw => hname (List.mem_append_left _ hw)) w hw
    · exact hnew hxA w hw
  · obtain ⟨i, b, hb⟩ := hthere x (List.mem_append_right _ hx)
    rw [hb.read_eq (he.has hb fun hm => hroom.fresh x hm (List.mem_append_right _ hx)), (hst.apart x hx).read_eq hk]

/-- the slots of a group are zero at first -/
theorem group_slots (m : Memory) (hq : q ∈ K.parts) : (withBlocks m (K.sized M g)).Table q.2.blocks q.1.op.scalars
    (K.slots * M.size q.1.op) fun _ => Tuple.zero q.1.op.scalars := by
  obtain ⟨hblocks, -, hss⟩ := hst.lengths hq
  have hnd : ((K.sized M g).map (·.name)).Nodup := by
    rw [names_sized hst]
    exact hroom.nodup
  refine ⟨by rw [hblocks, ← hss, List.length_map], fun i y sc hy hsc => ?_, ?_⟩
  · obtain ⟨hnames, hscalars⟩ := hst.localArrays hq
    have hmem : (⟨y, sc, K.slots * M.size q.1.op⟩ : SizedBlock) ∈ K.sized M g := by
      refine List.mem_append_left _ (List.mem_flatMap.2 ⟨q, hq, List.mem_map.2 ⟨(y, sc), ?_, rfl⟩⟩)
      rw [← hnames, List.getElem?_map, Option.map_eq_some_iff] at hy
      rw [← hscalars, List.getElem?_map, Option.map_eq_some_iff] at hsc
      obtain ⟨a, ha, rfl⟩ := hy
      obtain ⟨a', ha', rfl⟩ := hsc
      obtain rfl := Option.some.inj (ha.symm.trans ha')
      exact List.mem_of_getElem? ha
    exact (column_withBlocks m hnd hmem).congr fun a _ => (Tuple.cell_zero hsc).symm
  · exact (List.pairwise_flatMap.1 (List.pairwise_append.1 (extends_group hst hroom m).unaliased).1).1 q hq

/-- the locks of a group are free at first -/
theorem group_locks (m : Memory) : LocksFree K.table g (withBlocks m (K.sized M g)) := by
  intro tb htb
  have hnd : ((K.sized M g).map (·.name)).Nodup := by
    rw [names_sized hst]
    exact hroom.nodup
  have hmem : (⟨tb.name, .i32, g⟩ : SizedBlock) ∈ K.sized M g :=
    List.mem_append_right _ (by simp [htb])
  have hzero : Value.zero .i32 = .int 0 .i32 := by decide
  exact (column_withBlocks m hnd hmem).congr fun _ _ => hzero

end Start

/-- the elements below `e` are gathered in the copies of all groups, and their map results are stored -/
structure Merged (K : LocalLayout) (h : Histogram) (M : Histogram.Meaning) (mlen : ℕ → ℕ) (gm : ℕ → ℕ → Value)
    (prior : (q : Part) → ℕ → Tuple q.op.scalars) (e : ℕ) (m : Memory) : Prop where
  copies : ∀ q ∈ K.parts, ∃ T, m.Table q.1.subs.subs q.1.op.scalars (M.segments * K.perSegment * M.size q.1.op) T ∧
    (M.Merges q.1.op → ∀ a < M.segments * M.size q.1.op, Copies.merged (M.combine q.1.op) K.perSegment (M.size q.1.op) T a =
      M.gathered q.1.op q.1.contribution (prior q.1) a e)
  maps : MapsStored h M mlen gm (· < e) m

theorem Merged.has (hm : K.Merged h M mlen gm prior e m) {x : Name} (hx : x ∈ h.mapNames ++ K.subs) : ∃ i b, m.Has x i b := by
  rcases List.mem_append.1 hx with hx | hx
  · obtain ⟨mo, hmo, rfl⟩ := List.mem_map.1 hx
    obtain ⟨i, hi⟩ := List.mem_iff_getElem?.1 hmo
    obtain ⟨p, b, hb, -⟩ := hm.maps i mo hi
    exact ⟨p, b, hb⟩
  · obtain ⟨q, hq, hx⟩ := List.mem_flatMap.1 hx
    obtain ⟨T, hT, -⟩ := hm.copies q hq
    exact hT.has hx

/-! ## The phases of a group -/

section Group

variable (hst : K.Stage p h M o R A X c k₀ k j g n mlen s) (hroom : K.Room h M A X g)
include hst hroom

/-- what the first phase finds -/
theorem held_start (hm : K.Merged h M mlen gm prior e m) :
    K.Held h M mlen gm g e (fun q => K.Filled M prior i e q fun y => decide (y % g < 0)) (withBlocks m (K.sized M g)) := by
  have he := extends_group hst hroom m
  have hnew {x : Name} (hx : x ∈ h.mapNames ++ K.subs) : x ∉ K.privates := fun hp =>
    hroom.fresh x hp (List.mem_append_left _ hx)
  refine ⟨group_locks hst hroom m, fun a mo hmo => ?_, fun q hq => ?_⟩
  · exact he.column (hm.maps a mo hmo) (hnew (List.mem_append_left _ (List.mem_map_of_mem (List.mem_of_getElem? hmo))))
  · obtain ⟨T, hT, hgathered⟩ := hm.copies q hq
    have hsubs {x : Name} (hx : x ∈ q.1.subs.subs) : x ∉ K.privates :=
      hnew (List.mem_append_right _ (List.mem_flatMap.2 ⟨q, hq, hx⟩))
    refine ⟨T, _, hT.frames (W := []) he.frames fun x hx => ⟨?_, fun _ hw => absurd hw List.not_mem_nil⟩,
      group_slots hst hroom m hq, hgathered, fun x _ hx => absurd hx (by simp)⟩
    rw [List.append_nil]
    exact hsubs hx

/-- what the last phase leaves -/
theorem held_end {m₂ : Memory} {e' : ℕ} (hm : K.Merged h M mlen gm prior e' m) (hg : 0 < g)
    (hm₂ : K.Held h M mlen gm g e (fun q => K.Published M prior i e q fun y => decide (y % g < g)) m₂)
    (hk : Memory.Keeps (K.privates ++ (h.mapNames ++ K.subs)) (withBlocks m (K.sized M g)) m₂) :
    K.Merged h M mlen gm prior e (restore m₂ m.buffers.size m.names) := by
  have he := extends_group hst hroom m
  have hnew {x : Name} (hx : x ∈ h.mapNames ++ K.subs) : x ∉ K.privates := fun hp =>
    hroom.fresh x hp (List.mem_append_left _ hx)
  have hcolumn {x : Name} (hx : x ∈ h.mapNames ++ K.subs) {sc : Scalar} {len : ℕ} {v : ℕ → Value} (hc : m₂.Column x sc len v) :
      (restore m₂ m.buffers.size m.names).Column x sc len v := by
    obtain ⟨a, b, hb⟩ := hm.has hx
    exact restore_column he hk (hnew hx) hb hc
  refine ⟨fun q hq => ?_, fun a mo hmo => ?_⟩
  · obtain ⟨T, V, hT, -, hP⟩ := hm₂.tables q hq
    have hsubs {x : Name} (hx : x ∈ q.1.subs.subs) : x ∈ h.mapNames ++ K.subs :=
      List.mem_append_right _ (List.mem_flatMap.2 ⟨q, hq, hx⟩)
    have hname {x : Name} (hx : x ∈ q.1.subs.subs) : m₂.names.get? x = m.names.get? x := by
      rw [hk.names, he.names x (hnew (hsubs hx))]
    refine ⟨T, ⟨hT.length_eq, fun a y sc hy hsc => hcolumn (hsubs (List.mem_of_getElem? hy)) (hT.column a y sc hy hsc),
      hT.unaliased.imp_of_mem fun {x y} hx hy hxy a ha => ?_⟩, fun hM a ha =>
        hP.merged (fun x _ => by simp [Nat.mod_lt x hg]) hM ha⟩
    change m.names.get? x = some a at ha
    change m.names.get? y ≠ some a
    rw [← hname hx] at ha
    rw [← hname hy]
    exact hxy a ha
  · exact hcolumn (List.mem_append_left _ (List.mem_map_of_mem (List.mem_of_getElem? hmo))) (hm₂.maps a mo hmo)

/-- **A group.** Its phases gather the elements of all its threads. -/
theorem group_runs (C : K.Code h j k') {N : ℕ} {launched : Array String} {P : ℕ → Bindings Value → Prop} (hg : 0 < g)
    (hi : i < M.segments * K.perSegment) (hk : Memory.Keeps (h.mapNames ++ K.subs) s.memory m)
    (hA : ∀ x ∈ A, ∃ a b, m.Has x a b) (hm : K.Merged h M mlen gm prior (K.start M g i 0) m)
    (hP : ∀ l w, P l w → ∀ x : Name, x.Before k → x ∉ X → w.get? x = s.vars.get? x) :
    PhasesRun f (c.inGrid N g i) g launched (K.privates ++ (h.mapNames ++ K.subs)) (withBlocks m (K.sized M g))
      (fun m₂ => K.Merged h M mlen gm prior (K.start M g (i + 1) 0) (restore m₂ m.buffers.size m.names)) P
      (· = withBlocks m (K.sized M g)) (C.start :: (C.rest p).map (·.2)) := by
  have hsc : K.Scene h A s (withBlocks m (K.sized M g)) := group_scene hst hroom hk fun x hx =>
    (List.mem_append.1 hx).elim hm.has (hA x)
  have hwritten : K.privates ++ (h.mapNames ++ K.subs) ⊆ K.written h := fun x hx => mem_written.2 (by simpa [or_assoc] using hx)
  have hlocal (l : ℕ) (t : State) : Computes f (c.inGrid N g i l) t .localSize g :=
    .place (by simp [ThreadPlace.get, Triple.get]) hst.plan.groupSize.fits
  have hsome (l : ℕ) : (c.inGrid N g i l).thread.isSome = true := rfl
  have hrounds (l : ℕ) : (c.inGrid N g i l).rounds = c.rounds := rfl
  have hthread {r : (q : Part × LocalPart) → (ℕ → Tuple q.1.op.scalars) → (ℕ → Tuple q.1.op.scalars) → Prop} {e l : ℕ}
      {w : Bindings Value} {m' : Memory} (hv : K.Vars k X s i l w)
      (hk' : Memory.Keeps (K.privates ++ (h.mapNames ++ K.subs)) (withBlocks m (K.sized M g)) m')
      (hm' : K.Held h M mlen gm g e r m') :
      K.Thread h M mlen gm k X s (withBlocks m (K.sized M g)) g i l e ⟨w, m', launched⟩ :=
    ⟨hv, hk'.mono hwritten, hm'.locks, hm'.maps⟩
  have hend : K.start M g i g = K.start M g (i + 1) 0 := start_next hst.numbers.perSegment_pos hg i
  rw [← hend]
  -- the first values
  refine .phase (Q := fun l w => K.Vars k X s i l w) (fun l m' => K.Held h M mlen gm g (K.start M g i 0)
      (fun q => K.Filled M prior i (K.start M g i 0) q fun y => decide (y % g < l)) m')
    (fun m' _ h => h ▸ held_start hst hroom hm) (fun l w m' hl hk' hw hm' => ?_) ?_
  · unfold Code.start
    refine Runs.append (Runs.append ((start_run hst hi hl (hP l w hw)).mono ?_))
    rintro t ⟨hv, ht⟩
    have htl : K.Thread h M mlen gm k X s (withBlocks m (K.sized M g)) g i l (K.start M g i 0) t := by
      subst ht
      exact ⟨hv, hk'.mono hwritten, hm'.locks, hm'.maps⟩
    refine (initLoops_run hst hsc (hsome l) (hrounds l) (hlocal l) hl C.inits hi htl (ht ▸ hm'.tables)).mono ?_
    rintro u ⟨hu, hTu⟩
    refine (initLocks_run hst hsc (hsome l) (hrounds l) (hlocal l) hl hst.rounds.1 C.frees hu).mono ?_
    rintro v ⟨hv', hkv⟩
    refine ⟨hv'.vars, hv'.locks, hv'.maps, fun q hq => (hTu q hq).keeps hkv fun x hx => ?_⟩
    exact (Memory.Apart.symm (fun y hy => hsc.locks_apart hq hy) hx).keeps hu.memory
  -- the elements
  refine .phase (Q := fun l w => K.Vars k X s i l w) (fun l m' => K.Swept h M mlen gm prior g i (K.start M g i l) m')
    (fun m' _ hm' => hm'.mono fun q hq T V hF => hF.gathers hst.numbers.slots_pos fun x _ => by simp [Nat.mod_lt x hg])
    (fun l w m' hl hk' hw hm' => ?_) ?_
  · exact (sweep_run hst C.indices C.bucketed hsc (hsome l) (hrounds l) (hlocal l) hl hi C.older C.names C.nodup (hthread hw hk' hm')
      hm'.tables).mono fun t ht => ⟨ht.1.vars, ht.1.locks, ht.1.maps, ht.2⟩
  -- the slots are combined
  refine .phase (Q := fun l w => K.Vars k X s i l w) (fun l m' => K.Held h M mlen gm g (K.start M g i g)
      (fun q => K.Compacted M prior i (K.start M g i g) q fun y => decide (y % g < l)) m')
    (fun m' _ hm' => hm'.mono fun q hq T V hG => hG.compacted fun x _ => by simp) (fun l w m' hl hk' hw hm' => ?_) ?_
  · exact (compactLoops_run hst hsc (hsome l) (hrounds l) (hlocal l) hl C.compacts (hthread hw hk' hm') hm'.tables).mono
      fun t ht => ⟨ht.1.vars, ht.1.locks, ht.1.maps, ht.2⟩
  -- the copy is written back
  refine .phase (Q := fun l w => K.Vars k X s i l w) (fun l m' => K.Held h M mlen gm g (K.start M g i g)
      (fun q => K.Published M prior i (K.start M g i g) q fun y => decide (y % g < l)) m')
    (fun m' _ hm' => hm'.mono fun q hq T V hC => hC.published (fun x _ => by simp [Nat.mod_lt x hg]) fun x _ => by simp)
    (fun l w m' hl hk' hw hm' => ?_) (.done fun m₂ hk₂ hm₂ => held_end hst hroom hm hg hm₂ hk₂)
  · exact (publishLoops_run hst hsc (hsome l) (hrounds l) (hlocal l) hl C.publishes hi (hthread hw hk' hm') hm'.tables).mono
      fun t ht => ⟨ht.1.vars, ht.1.locks, ht.1.maps, ht.2⟩

/-- **The kernel.** It gathers all elements. -/
theorem localKernel_runs (C : K.Code h j k') (name : Name) (origin : Origin) (hc : c.thread = none) (hg : 0 < g)
    (hmax : (g : Int) ≤ c.limits.maxGroupSize) (hX : ∀ x ∈ h.mapNames ++ K.subs, x ∈ X)
    (hA : ∀ x ∈ A, ∃ a b, s.memory.Has x a b) (hm : K.Merged h M mlen gm prior 0 s.memory) :
    Runs f (Machine.launch c) c [(Kernel.make name (withBarriers C.start (C.rest p)) (p.localMemory K.shape K.table K.parts)
        [K.shape.groupsPerSegment * p.segments] [p.groupSize] origin).toStmt .unknown] s fun t =>
      t.vars = s.vars ∧ t.launched = s.launched.push name.text ∧ Memory.Keeps (h.mapNames ++ K.subs) s.memory t.memory ∧
      K.Merged h M mlen gm prior M.total t.memory := by
  have hnames := names_localMemory hst
  have hgroups := hst.perSegment.mul hst.plan.segments (by rw [Nat.mul_comm]; exact hst.numbers.grid)
  have hthere {x : Name} (hx : x ∈ h.mapNames ++ K.subs ++ A) : ∃ a b, s.memory.Has x a b :=
    (List.mem_append.1 hx).elim hm.has (hA x)
  refine Runs.launchGroups (V := Visible k X s) (A := fun x => x ∈ h.mapNames ++ K.subs ++ A) (W := h.mapNames ++ K.subs)
    (fun i m => K.Merged h M mlen gm prior (K.start M g i 0) m) hc (hgroups.computes f c) (hst.plan.groupSize.computes f c) hmax
    ?_ (fun x hx => ⟨hx.2.2, fun hm => hx.2.1 ?_⟩) (fun x hx => ?_) (sized_of hst) (by rw [hnames]; exact hroom.nodup)
    (fun b hb => ?_) ?_ (fun i m hi hI hk => ?_) ?_ fun t hv hl hk hI => ⟨hv, hl, hk, ?_⟩
  · rw [hnames]
    refine C.over hst (fun _ => .inr) (fun x hx => ?_) fun x hx => .inr (List.mem_append_right _ hx)
    exact (mem_written.1 hx).imp_right (List.mem_append_left _)
  · exact (List.mem_append.1 hm).elim (hX x) (hst.scope.arrays x)
  · obtain ⟨a, b, hb⟩ := hthere hx
    exact hb.contains
  · rcases List.mem_append.1 hb with hb | hb
    · obtain ⟨q, hq, hb⟩ := List.mem_flatMap.1 hb
      obtain ⟨a, -, rfl⟩ := List.mem_map.1 hb
      exact hroom.slots _ (hst.op_mem hq)
    · obtain ⟨tb, htb, rfl⟩ := List.mem_map.1 hb
      exact hroom.locks (Option.isSome_iff_exists.2 ⟨tb, by simpa using htb⟩)
  · rw [hnames]
    exact fun x hx => List.mem_append.2 (mem_written.1 (C.stores hst hx))
  · rw [hnames]
    refine group_runs hst hroom C hg (by rwa [Nat.mul_comm]) hk (fun x hx => ?_) hI fun l w hw x hx hxX =>
      hw x (fun hm => hxX (hroom.reserved x hm)) fun hm => hxX (C.sets hst (blockBinders_subset _ hm) hx)
    obtain ⟨a, b, hb⟩ := hA x hx
    obtain ⟨b', hb', -⟩ := hk.shape hb.buffer
    exact ⟨a, b', by rw [hk.names, hb.name], hb'⟩
  · rwa [start_zero]
  · rwa [Nat.mul_comm, start_end hst.numbers.perSegment_pos] at hI

end Group

end LocalLayout

end GpuHistogram
