/-
The host code that accumulates in local memory. It chooses how many groups work on one segment, makes a copy for each,
names the blocks of local memory, launches the kernel and merges the copies: `localCode_works`, from what is known of each
step (`allocated_works`, `localKernel_runs`, `finished_works`).

It divides by the number of segments, so there has to be one.
-/
import GpuHistogram.Proofs.LocalGrid
import GpuHistogram.Proofs.LocalKernel
import GpuHistogram.Proofs.Strategy

namespace GpuHistogram

open Machine

variable {f : Form} {c : Context} {s t : State} {k k₀ k' g n slots perSegment : ℕ} {X X' A R : List Name}

/-- the number of groups that work on one segment, when there are `n` groups -/
def Histogram.Meaning.groupsPerSegment (M : Histogram.Meaning) (n : ℕ) : ℕ := max 1 ((n + M.segments - 1) / M.segments)

/-- the sizes of a launch with `perSegment` groups for a segment, of `g` threads with `slots` local copies each, are words,
and its loops end within the rounds -/
structure Histogram.FitsLocal (h : Histogram) (M : Histogram.Meaning) (g perSegment slots rounds : ℕ) : Prop where
  sizes : h.FitsGroups M g slots perSegment rounds
  made : perSegment ≠ 1 → M.segments ≤ rounds
  merged : perSegment ≠ 1 → perSegment ≤ rounds + 1 ∧
    ∀ op ∈ h.operators, Word64.fits (M.segments * M.size op + g : ℕ) = true
  locks : h.operators.any Operator.needsLock = true → Word64.fits (g + g : ℕ) = true

/-- the arrays that such a launch needs can be allocated: the copies, and in local memory the slots and the locks -/
structure Histogram.HasLocalRoom (h : Histogram) (M : Histogram.Meaning) (g perSegment slots : ℕ) : Prop where
  copies : perSegment ≠ 1 → ∀ op ∈ h.operators, M.segments * perSegment * M.size op < unallocatable
  slots : ∀ op ∈ h.operators, slots * M.size op < unallocatable
  locks : h.operators.any Operator.needsLock = true → g < unallocatable

namespace Plan

variable {p : Plan} {h : Histogram} {M : Histogram.Meaning} {o : Options} {B : Histogram.Contents}

/-! ## The blocks of local memory -/

/-- draw a name for the block of each destination -/
def nameBlocks (ps : List Part) : Emit (List (List Name)) :=
  ps.mapM fun part => part.subs.dests.mapM fun d => (fresh (d.name.text ++ "_local") : Gen Name)

theorem nameBlocks_spec (ps : List Part) (k : ℕ) : ∃ blocks k', (∀ l, nameBlocks ps l k = some ((blocks, l), k')) ∧
    k ≤ k' ∧ List.Forall₂ (fun q ns => ns.length = q.subs.dests.length) ps blocks ∧ blocks.flatten.Nodup ∧
    ∀ x ∈ blocks.flatten, x.Within k k' := by
  induction ps generalizing k with
  | nil => exact ⟨[], k, fun _ => rfl, Nat.le_refl k, .nil, List.nodup_nil, fun _ hx => absurd hx List.not_mem_nil⟩
  | cons q ps ih =>
    obtain ⟨blocks, k', hrun, hk, hlen, hnd, hin⟩ := ih (k + q.subs.dests.length)
    let label : Destination → String := fun d => d.name.text ++ "_local"
    have hnames {x : Name} (hx : x ∈ freshNames (q.subs.dests.map label) k) : x.Within k (k + q.subs.dests.length) := by
      have h := within_freshNames hx
      rwa [List.length_map] at h
    refine ⟨freshNames (q.subs.dests.map label) k :: blocks, k', fun l => ?_, by omega, .cons ?_ hlen, ?_, fun x hx => ?_⟩
    · unfold nameBlocks at hrun ⊢
      rw [List.mapM_cons]
      change ((q.subs.dests.mapM fun d => ((fresh (label d) : Gen Name) : Emit Name)) l k).bind (fun r =>
        ((ps.mapM fun q : Part => q.subs.dests.mapM fun d => ((fresh (label d) : Gen Name) : Emit Name)) r.1.2 r.2).bind
          fun r' => some ((r.1.1 :: r'.1.1, r'.1.2), r'.2)) = _
      rw [mapM_fresh_emit, Option.bind_some, hrun, Option.bind_some]
    · rw [length_freshNames, List.length_map]
    · rw [List.flatten_cons]
      exact List.nodup_append.2 ⟨nodup_freshNames _ _, hnd, fun x hx y hy he =>
        (hin y hy).not_before (he ▸ (hnames hx).before)⟩
    · rw [List.flatten_cons] at hx
      rcases List.mem_append.1 hx with hx | hx
      · exact (hnames hx).mono (Nat.le_refl k) hk
      · exact (hin x hx).mono (Nat.le_add_right _ _) (Nat.le_refl _)

/-- the parts of the kernel, given the methods and the blocks -/
def localParts (ps : List Part) (methods : List UpdateMethod) (blocks : List (List Name)) : List (Part × LocalPart) :=
  ps.zip ((methods.zip blocks).map fun x => ⟨x.1, x.2⟩)

theorem method_localParts {ps : List Part} {methods : List UpdateMethod} {blocks : List (List Name)} {q : Part × LocalPart}
    (hq : q ∈ localParts ps methods blocks) : (q.1, q.2.method) ∈ ps.zip methods := by
  obtain ⟨i, hi⟩ := List.mem_iff_getElem?.1 hq
  obtain ⟨hpart, hi⟩ := List.getElem?_zip_eq_some.1 hi
  rw [List.getElem?_map, Option.map_eq_some_iff] at hi
  obtain ⟨x, hx, he⟩ := hi
  rw [← he]
  exact List.mem_of_getElem? (List.getElem?_zip_eq_some.2 ⟨hpart, (List.getElem?_zip_eq_some.1 hx).1⟩)

theorem blocks_localParts {ps : List Part} {methods : List UpdateMethod} {blocks : List (List Name)}
    (hm : methods.length = ps.length) (hb : blocks.length = ps.length) :
    (localParts ps methods blocks).flatMap (·.2.blocks) = blocks.flatten := by
  have hsnd : ((methods.zip blocks).map fun x => (⟨x.1, x.2⟩ : LocalPart)).length ≤ ps.length := by
    rw [List.length_map, List.length_zip, hm, hb, Nat.min_self]
  have hblocks : (localParts ps methods blocks).map (·.2.blocks) = blocks := by
    calc (localParts ps methods blocks).map (·.2.blocks)
        = ((localParts ps methods blocks).map Prod.snd).map (·.blocks) := (List.map_map ..).symm
      _ = (methods.zip blocks).map Prod.snd := by
        rw [localParts, List.map_snd_zip hsnd, List.map_map]
        rfl
      _ = blocks := List.map_snd_zip (by omega)
  rw [List.flatMap_def, hblocks]

/-! ## The whole code -/

/-- the host code that launches the kernel -/
def launchLocal (p : Plan) (shape : LocalShape) (table : Option LockTable) (parts : List (Part × LocalPart)) : Emit Unit := do
  let body ← p.localBody shape table parts
  let k ← (p.kernel "_local" "local memory histogram" body (p.localMemory shape table parts)
    (shape.groupsPerSegment * p.segments) : Gen Kernel)
  Emit.stmt (k.toStmt .unknown)

/-- the host code that names the blocks of local memory and launches the kernel -/
def gatherLocal (p : Plan) (shape : LocalShape) (table : Option LockTable) (methods : List UpdateMethod) : Emit Unit := do
  let blocks ← nameBlocks p.parts
  p.launchLocal shape table (localParts p.parts methods blocks)

/-- the host code that makes the copies, launches the kernel and merges the copies -/
def accumulateLocal (p : Plan) (shape : LocalShape) (table : Option LockTable) (methods : List UpdateMethod) : Emit Unit := do
  let counts := p.parts.map fun _ => shape.groupsPerSegment
  allocate (p.parts.zip counts)
  p.gatherLocal shape table methods
  p.finish (p.parts.zip counts)

/-- the number of groups for a segment -/
def groupsPerSegment (p : Plan) : Expr := .max 1 (p.groupCount.ceilDiv p.segments)

theorem localCode_eq (p : Plan) (copies : Expr) : p.localCode copies =
    ((chooseMethods p.operators (LockTable.create .localSize .shared) : Gen _) : Emit _) >>= fun x =>
      Emit.bindSize "local_subhistos" copies >>= fun slots => Emit.bindSize "groups_per_segment" p.groupsPerSegment >>=
        fun perSegment => p.accumulateLocal ⟨slots, perSegment⟩ x.1 x.2 := by
  unfold localCode
  refine bind_congr fun x => ?_
  obtain ⟨table, methods⟩ := x
  have hzip (e : Expr) : p.parts.map (fun part => (part, e)) = p.parts.zip (p.parts.map fun _ => e) :=
    List.map_prod_left_eq_zip ..
  simp only [accumulateLocal, groupsPerSegment, gatherLocal, launchLocal, nameBlocks, localParts, bind_assoc, hzip]

/-- **The launch.** The kernel gathers all elements. -/
theorem launchLocal_works {K : LocalLayout} {j : ℕ} {mlen : ℕ → ℕ} {gm : ℕ → ℕ → Value}
    {prior : (q : Part) → ℕ → Tuple q.op.scalars} (hst : K.Stage p h M o R A X c k₀ k j g n mlen s)
    (hroom : K.Room h M A X g) (hns : (LocalNames.create : Fresh _) k = (K.ns, j)) (hc : c.thread = none) (hg : 0 < g)
    (hmax : (g : Int) ≤ c.limits.maxGroupSize) (hX : ∀ x ∈ h.mapNames ++ K.subs, x ∈ X)
    (hA : ∀ x ∈ A, ∃ a b, s.memory.Has x a b) (hm : K.Merged h M mlen gm prior 0 s.memory) :
    Works f (Machine.launch c) c (p.launchLocal K.shape K.table K.parts) k s fun _ _ t => t.vars = s.vars ∧
      Memory.Keeps (h.mapNames ++ K.subs) s.memory t.memory ∧ K.Merged h M mlen gm prior M.total t.memory := by
  obtain ⟨k', C, hk, hbody⟩ := LocalLayout.localBody_spec hst hns
  have hnewer := hst.newer
  let body := withBarriers C.start (C.rest p)
  let kernel := Kernel.make ⟨p.hist.name ++ "_local", some k'⟩ body (p.localMemory K.shape K.table K.parts)
    [K.shape.groupsPerSegment * p.segments] [p.groupSize] (p.hist.origin.within "local memory histogram")
  have hmake : p.kernel "_local" "local memory histogram" body (p.localMemory K.shape K.table K.parts)
      (K.shape.groupsPerSegment * p.segments) k' = (kernel, k' + 1) := rfl
  unfold launchLocal
  refine Works.bind (Works.lift hbody (by omega) (Q := fun x k t => body = x ∧ k' = k ∧ s = t) ⟨rfl, rfl, rfl⟩) ?_
  rintro _ _ _ - - ⟨rfl, rfl, rfl⟩
  refine Works.bind (Works.lift (congrArg some hmake) (Nat.le_succ k')
    (Q := fun x k t => kernel = x ∧ k' + 1 = k ∧ s = t) ⟨rfl, rfl, rfl⟩) ?_
  rintro _ _ _ - - ⟨rfl, rfl, rfl⟩
  refine Works.stmt ((LocalLayout.localKernel_runs hst hroom C _ _ hc hg hmax hX hA hm).mono fun t ht => ?_)
  exact ⟨fun x _ => by rw [ht.1], ht.1, ht.2.2⟩

/-- the kernel with given blocks of local memory -/
def localLayout (p : Plan) (ns : LocalNames) (shape : LocalShape) (table : Option LockTable) (methods : List UpdateMethod)
    (blocks : List (List Name)) (slots perSegment : ℕ) : LocalLayout :=
  ⟨ns, shape, table, localParts p.parts methods blocks, slots, perSegment⟩

/-- what holds of the table of locks: there is one only if it is needed, it has a lock for each thread of a group, and its
name is none of the histogram's -/
structure LocalLocks (p : Plan) (h : Histogram) (A : List Name) (table : Option LockTable) : Prop where
  needed : table.isSome = true → h.operators.any Operator.needsLock = true
  count : ∀ tb, table = some tb → tb.count = .localSize
  fresh : ∀ x ∈ lockNames table, x ∉ h.mapNames ++ p.copyNames ++ A

section Layout

variable {ns : LocalNames} {shape : LocalShape} {table : Option LockTable} {methods : List UpdateMethod}
  {blocks : List (List Name)}
  (hmethods : methods.length = p.parts.length)
  (hblocks : List.Forall₂ (fun q ns => ns.length = q.subs.dests.length) p.parts blocks)
include hmethods hblocks

/-- its copies in global memory are those of the plan -/
theorem subs_localLayout : (p.localLayout ns shape table methods blocks slots perSegment).subs = p.copyNames := by
  have hfst : (localParts p.parts methods blocks).map (·.1) = p.parts := (map_fst_parts hmethods hblocks).1
  change (localParts p.parts methods blocks).flatMap (fun q => q.1.subs.subs) = p.parts.flatMap (·.subs.subs)
  calc (localParts p.parts methods blocks).flatMap (fun q => q.1.subs.subs)
      = ((localParts p.parts methods blocks).map (·.1)).flatMap (·.subs.subs) := by rw [List.flatMap_map]
    _ = p.parts.flatMap (·.subs.subs) := by rw [hfst]

theorem privates_localLayout : (p.localLayout ns shape table methods blocks slots perSegment).privates =
    blocks.flatten ++ lockNames table :=
  congrArg (· ++ lockNames table) (blocks_localParts hmethods hblocks.length_eq.symm)

/-- where the copies in global memory are made, the kernel can be launched -/
theorem stage_localLayout {count : Part → ℕ} {T : (q : Part) → ℕ → Tuple q.op.scalars} {j : ℕ}
    (hst : p.Stage h M o R A X c k₀ k g n s) (ha : p.Allocated h M A count T s.memory)
    (hnames : ns.all = freshNames ["ltid", "gid", "seg_flat", "slot"] k) (hj : j = k + 4)
    (hsuits : ∀ x ∈ p.parts.zip methods, x.2.Suits x.1.op table) (hslots : Quantity k X s shape.copies slots)
    (hper : Quantity k X s shape.groupsPerSegment (perSegment)) (hfit : h.FitsLocal M g perSegment slots c.rounds)
    (htable : p.LocalLocks h A table) (hlength : ∀ i < h.maps.length, M.total ≤ B.mapLength i) :
    (p.localLayout ns shape table methods blocks slots (perSegment)).Stage p h M o R A X c k₀ k j g n B.mapLength s := by
  have hsubs : (p.localLayout ns shape table methods blocks slots perSegment).subs = p.copyNames :=
    subs_localLayout hmethods hblocks
  refine
    { hst with
      newer := by omega
      fits := fun q hq => ?_
      slots := hslots
      perSegment := hper
      numbers := hfit.sizes
      nodup := hnames ▸ nodup_freshNames _ _
      names := fun x hx => hj ▸ within_freshNames (hnames ▸ hx)
      mapsLength := hlength
      locks := fun tb htb => ⟨htable.count tb htb, hfit.locks (htable.needed (Option.isSome_iff_exists.2 ⟨tb, htb⟩))⟩
      unaliased := hsubs ▸ ha.unaliased
      apart := fun x hx w hw => ?_ }
  · have hmethod := method_localParts hq
    have hpart := hst.plan.parts q.1 (List.of_mem_zip hq).1
    refine ⟨hpart, hsuits _ hmethod, ?_⟩
    exact ((map_fst_parts hmethods hblocks).2 q hq).trans (congrArg List.length hpart.dests)
  · rw [hsubs] at hw
    refine (ha.reads x hx).2 w ?_
    exact (List.mem_append.1 hw).elim (List.mem_append_right _) fun hw => List.mem_append_left _ (copyNames_subset p hw)

/-- the blocks and the locks are new arrays, small enough to be made -/
theorem room_localLayout (hst : p.Stage h M o R A X c k₀ k g n s) (hroom : h.HasLocalRoom M g perSegment slots)
    (htable : p.LocalLocks h A table) (hnd : blocks.flatten.Nodup) (hyoung : ∀ x ∈ blocks.flatten, x.Within k k')
    (hlocks : ∀ x ∈ lockNames table, x.Before k) (hX : p.copyNames ⊆ X) (hXX : ∀ x ∈ blocks.flatten ++ lockNames table, x ∈ X') :
    (p.localLayout ns shape table methods blocks slots perSegment).Room h M A X' g := by
  have hprivates : (p.localLayout ns shape table methods blocks slots perSegment).privates =
      blocks.flatten ++ lockNames table := privates_localLayout hmethods hblocks
  have hsubs : (p.localLayout ns shape table methods blocks slots perSegment).subs = p.copyNames :=
    subs_localLayout hmethods hblocks
  have hold {x : Name} (hx : x ∈ h.mapNames ++ p.copyNames ++ A) : x.Before k := by
    simp only [List.mem_append, or_assoc] at hx
    have hwritten (hx : x ∈ h.written ++ A) : x.Before k := (Describes.before_written hst.regular hx).mono hst.older
    rcases hx with hx | hx | hx
    · exact hwritten (by simp [Histogram.written, hx])
    · exact hst.below x (hX hx)
    · exact hwritten (by simp [hx])
  refine ⟨?_, fun x hx => ?_, hprivates ▸ hXX, hroom.slots, fun hsome => hroom.locks (htable.needed hsome)⟩
  · rw [hprivates]
    refine List.nodup_append.2 ⟨hnd, ?_, fun x hx y hy he => (hyoung x hx).not_before (he ▸ hlocks y hy)⟩
    unfold lockNames
    cases table <;> simp
  · rw [hsubs]
    rw [hprivates] at hx
    exact (List.mem_append.1 hx).elim (fun hx hm => (hyoung x hx).not_before (hold hm)) (htable.fresh x)

end Layout

/-- **The kernel.** In the copies that have been made, all elements are gathered. -/
theorem gatherLocal_works {shape : LocalShape} {table : Option LockTable} {methods : List UpdateMethod}
    (hst : p.Stage h M o R A X c k₀ k g n s) (hX : h.mapNames ++ p.copyNames ++ lockNames table ⊆ X)
    (ha : p.Allocated h M A (fun _ => perSegment)
      (fun q => Copies.spread (perSegment) (M.size q.op) (M.neutral q.op) (B.dest q.op)) s.memory)
    (hmaps : MapsStored h M B.mapLength B.mapValue (· < 0) s.memory) (hlength : ∀ i < h.maps.length, M.total ≤ B.mapLength i)
    (hc : c.thread = none) (hg : 0 < g) (hmax : (g : Int) ≤ c.limits.maxGroupSize)
    (hslots : Quantity k X s shape.copies slots) (hper : Quantity k X s shape.groupsPerSegment (perSegment))
    (hmethods : methods.length = p.parts.length) (hsuits : ∀ x ∈ p.parts.zip methods, x.2.Suits x.1.op table)
    (htable : p.LocalLocks h A table) (hfit : h.FitsLocal M g perSegment slots c.rounds)
    (hroom : h.HasLocalRoom M g perSegment slots) :
    Works f (Machine.launch c) c (p.gatherLocal shape table methods) k s fun _ _ t => t.vars = s.vars ∧
      Memory.Keeps (h.mapNames ++ p.copyNames) s.memory t.memory ∧
      MapsStored h M B.mapLength B.mapValue (· < M.total) t.memory ∧
      ∀ q ∈ p.parts, ∃ T, t.memory.Table q.subs.subs q.op.scalars (M.segments * perSegment * M.size q.op) T ∧
        (M.Merges q.op → ∀ a < M.segments * M.size q.op,
          Copies.merged (M.combine q.op) (perSegment) (M.size q.op) T a =
            M.gathered q.op q.contribution (B.dest q.op) a M.total) := by
  -- the names of the blocks
  obtain ⟨blocks, k₁, hblocks, hk₁, hlengths, hnodup, hyoung⟩ := nameBlocks_spec p.parts k
  unfold gatherLocal
  refine Works.bind (Works.silent hblocks hk₁ (Q := fun x k t => blocks = x ∧ k₁ = k ∧ s = t) ⟨rfl, rfl, rfl⟩) ?_
  rintro _ _ _ - - ⟨rfl, rfl, rfl⟩
  have hwiden : ∀ x ∈ X ++ blocks.flatten, x ∈ X ∨ x.Within k k₁ := fun x hx => (List.mem_append.1 hx).imp_right (hyoung x)
  have hlater {e : Expr} {a : ℕ} (he : Quantity k X s e a) : Quantity k₁ (X ++ blocks.flatten) s e a :=
    (he.widen fun x hx => (hwiden x hx).imp_right Name.Within.not_before).frame hk₁ (.refl _ _)
  -- the kernel
  obtain ⟨ns, hns, hnames⟩ := LocalLayout.localNames_create k₁
  have hsubs : (p.localLayout ns shape table methods blocks slots perSegment).subs = p.copyNames :=
    subs_localLayout hmethods hlengths
  have hstage := stage_localLayout (B := B) hmethods hlengths
    (hst.widen hk₁ (List.subset_append_left X blocks.flatten) hwiden) ha hnames rfl hsuits (hlater hslots) (hlater hper) hfit
    htable hlength
  have hkernelRoom : (p.localLayout ns shape table methods blocks slots perSegment).Room h M A (X ++ blocks.flatten) g :=
    room_localLayout hmethods hlengths hst hroom htable hnodup hyoung (fun x hx => hst.below x (hX (by simp [hx])))
    (fun x hx => hX (by simp [hx])) fun x hx => (List.mem_append.1 hx).elim (List.mem_append_right _) fun hx =>
      List.mem_append_left _ (hX (by simp [hx]))
  generalize hK : p.localLayout ns shape table methods blocks slots (perSegment) = K at hsubs hstage hkernelRoom
  have hparts : K.parts = localParts p.parts methods blocks := hK ▸ rfl
  have hper : K.perSegment = perSegment := hK ▸ rfl
  have hmerged : K.Merged h M B.mapLength B.mapValue (fun q => B.dest q.op) 0 s.memory := by
    refine ⟨fun q hq => ⟨_, hper ▸ (ha.ready _ (List.of_mem_zip (hparts ▸ hq)).1).copies, fun hM a ha => ?_⟩, hmaps⟩
    rw [hper]
    exact Copies.merged_spread hM.neutral (Nat.pos_of_mul_pos_left (Nat.zero_lt_of_lt ha)) hfit.sizes.perSegment_pos _ a
  have hlaunch := launchLocal_works (f := f) hstage hkernelRoom (hK ▸ hns) hc hg hmax (fun x hx => ?_)
    (fun x hx => (ha.reads x hx).1) hmerged
  · rw [hparts, show K.shape = shape from hK ▸ rfl, show K.table = table from hK ▸ rfl] at hlaunch
    refine hlaunch.mono ?_
    rintro _ k₂ t - - ⟨hv, hk, hm⟩
    refine ⟨hv, hsubs ▸ hk, hm.maps, fun q hq => ?_⟩
    obtain ⟨x, hx, rfl⟩ := List.mem_map.1 ((map_fst_parts hmethods hlengths).1 ▸ hq)
    exact hper ▸ hm.copies x (hparts ▸ hx)
  · rw [hsubs] at hx
    exact List.mem_append_left _ (hX (List.mem_append_left _ hx))

/-- **Accumulating in local memory.** The host code runs to its end, and the histogram is accumulated. -/
theorem accumulateLocal_works {shape : LocalShape} {table : Option LockTable} {methods : List UpdateMethod}
    (hst : p.Stage h M o R A X c k₀ k g n s) (hX : p.arrays ++ h.mapNames ++ lockNames table ⊆ X)
    (hB : h.Given M B A s.memory) (hc : c.thread = none) (hg : 0 < g) (hmax : (g : Int) ≤ c.limits.maxGroupSize)
    (hslots : Quantity k X s shape.copies slots) (hshape : Quantity k X s shape.groupsPerSegment perSegment)
    (hmethods : methods.length = p.parts.length) (hsuits : ∀ x ∈ p.parts.zip methods, x.2.Suits x.1.op table)
    (htable : p.LocalLocks h A table) (hfit : h.FitsLocal M g perSegment slots c.rounds)
    (hroom : h.HasLocalRoom M g perSegment slots) :
    Works f (Machine.launch c) c (p.accumulateLocal shape table methods) k s fun _ _ t => h.Accumulated M B t.memory ∧
      ∀ x i b, x.Before k₀ → s.memory.Apart h.written x → s.memory.Has x i b → t.memory.Has x i b := by
  have hr := hst.regular
  have hper : 0 < perSegment := hfit.sizes.perSegment_pos
  have hold {x : Name} (hx : x ∈ h.mapNames ++ A) : x ∉ p.arrays :=
    hst.plan.not_array (Plan.Describes.before_written hr (by
      simp only [Histogram.written, List.append_assoc]
      exact List.mem_append_right _ hx)) (map_not_dest hr hx)
  have hlen : (p.parts.map fun _ => shape.groupsPerSegment).length = p.parts.length := List.length_map _
  have hcounts {k' : ℕ} {t : State} (hk : k ≤ k') (hf : Frame k s t) :
      ∀ x ∈ p.parts.zip (p.parts.map fun _ => shape.groupsPerSegment), Quantity k' X t x.2 perSegment := fun x hx => by
    obtain ⟨-, -, he⟩ := List.mem_map.1 (List.of_mem_zip hx).2
    exact he ▸ hshape.frame hk hf
  -- the copies
  refine Works.bind (allocated_works (fun _ => perSegment) hst hB hc hlen (hcounts (Nat.le_refl _) (.refl _ _))
    (fun _ _ => hper) fun q hq hone => ⟨hroom.copies hone q.op (hst.plan.parts q hq).op_mem, hfit.made hone,
      hfit.sizes.grid⟩) ?_
  rintro _ k₃ s₃ hk₃ hf₃ ⟨-, ha₃, hframes₃⟩
  have hreadable : Readable A h.destNames p.arrays s.memory := fun x hx =>
    ⟨(hB.reads x hx).1, hold (List.mem_append_right _ hx), (hB.reads x hx).2.mono (List.subset_append_left _ _)⟩
  have hst₃ := hst.frames hk₃ hf₃ hframes₃ hreadable
  have hmaps₃ : MapsStored h M B.mapLength B.mapValue (· < 0) s₃.memory := fun i mo hmo => by
    have hmo' : mo.dest.name ∈ h.mapNames := List.mem_map_of_mem (List.mem_of_getElem? hmo)
    exact (hB.mapsStored i mo hmo).frames hframes₃ (hold (List.mem_append_left _ hmo')) (hB.unaliased.apart' hmo')
  -- the kernel
  have hreached : h.mapNames ++ p.copyNames ++ lockNames table ⊆ X := fun x hx => by
    simp only [List.mem_append, or_assoc] at hx
    rcases hx with hx | hx | hx
    · exact hX (by simp [hx])
    · exact hX (by simp [copyNames_subset p hx])
    · exact hX (by simp [hx])
  refine Works.bind (gatherLocal_works hst₃ hreached ha₃ hmaps₃ hB.mapLength hc hg hmax
    (hslots.frame hk₃ hf₃) (hshape.frame hk₃ hf₃) hmethods hsuits htable hfit hroom) ?_
  rintro _ k₄ s₄ hk₄ hf₄ ⟨-, hkeep₄, hmaps₄, hcopies₄⟩
  -- what has been gathered is in the copies
  have hT : ∀ q : Part, ∃ T : ℕ → Tuple q.op.scalars, q ∈ p.parts →
      s₄.memory.Table q.subs.subs q.op.scalars (M.segments * perSegment * M.size q.op) T ∧
      (M.Merges q.op → ∀ a < M.segments * M.size q.op,
        Copies.merged (M.combine q.op) (perSegment) (M.size q.op) T a =
          M.gathered q.op q.contribution (B.dest q.op) a M.total) := fun q => by
    by_cases hq : q ∈ p.parts
    · exact (hcopies₄ q hq).imp fun _ h _ => h
    · exact ⟨fun _ => M.neutral q.op, fun h => absurd h hq⟩
  choose T hT using hT
  have hkeep : Memory.Keeps (h.mapNames ++ [] ++ p.copyNames) s₃.memory s₄.memory := by
    rw [List.append_nil]
    exact hkeep₄
  have hnone (x : Name) : x ∉ ([] : List Name) := List.not_mem_nil
  have ha₄ := ha₃.worked (.refl _) (fun x _ => hnone x) hkeep fun q hq => (hT q hq).1
  have hst₄ := hst₃.keep hk₄ hf₄ fun x hx i => by
    refine Memory.Apart.read_eq ((ha₃.reads x hx).2.mono fun w hw => ?_) hkeep₄ i
    exact (List.mem_append.1 hw).elim (List.mem_append_right _) fun hw => List.mem_append_left _ (copyNames_subset p hw)
  -- the merge
  refine (finished_works (B := B) hst₄ hc hg hmax (fun x hx => hX (by simp [hx])) hlen
    (hcounts (hk₃.trans hk₄) (hf₃.trans hf₄ hk₃)) (fun _ _ => hper)
    (fun q hq => hfit.sizes.copies _ (hst.plan.parts q hq).op_mem)
    (fun q hq hone => ⟨(hfit.merged hone).2 _ (hst.plan.parts q hq).op_mem, (hfit.merged hone).1⟩) ha₄
    (fun q hq => (hT q hq).2) hmaps₄).mono ?_
  rintro _ k₅ s₅ - - ⟨hcomputed, hframes₅, -⟩
  exact ⟨hcomputed, fun x i b hx hap hb => other_kept hst.plan hr hB hframes₃ (.refl _) (fun y _ => hnone y)
    (fun y _ => hnone y) hkeep hframes₅ hx (hnone x) hap hb⟩

/-- the methods, and a table of locks if one is needed -/
theorem chooseLocal_spec (hst : p.Stage h M o R A (p.reserved A) c k₀ k g n s) : ∃ table methods k₁,
    chooseMethods p.operators (LockTable.create .localSize .shared) k = ((table, methods), k₁) ∧ k ≤ k₁ ∧
      methods.length = p.parts.length ∧ (∀ x ∈ p.parts.zip methods, x.2.Suits x.1.op table) ∧ p.LocalLocks h A table ∧
      p.Stage h M o R A (p.reserved A ++ lockNames table) c k₀ k₁ g n s := by
  obtain ⟨table, methods, k₁, hrun, hk₁, hlen, hext, hsuits⟩ :=
    chooseMethodsFrom_spec .localSize .shared p.operators none k
  have hneeds := needsLock_of_chooseMethods (LockTable.create .localSize .shared) p.operators k
  rw [hrun] at hneeds
  have hlock {x : Name} (hx : x ∈ lockNames table) : x.Within k k₁ := by
    rcases hext with rfl | ⟨-, y, hy, rfl⟩
    · cases hx
    · obtain rfl : x = y := by simpa [lockNames] using hx
      exact hy
  have hcount (tb) (htb : table = some tb) : tb.count = .localSize := by
    rcases hext with rfl | ⟨-, y, -, rfl⟩
    · cases htb
    · exact Option.some.inj htb ▸ rfl
  have hops : p.operators = h.operators := hst.plan.operators_eq hst.regular
  refine ⟨table, methods, k₁, hrun, hk₁, ?_, fun x hx => hsuits (x.1.op, x.2) ?_,
    ⟨fun hsome => hops ▸ hneeds hsome, hcount, fun x hx hm => (hlock hx).not_before (hst.below x ?_)⟩,
    hst.widen hk₁ (List.subset_append_left _ _) fun x hx => (List.mem_append.1 hx).imp_right hlock⟩
  · rw [hlen, operators, List.length_map]
  · rw [operators, List.zip_map_left]
    exact List.mem_map.2 ⟨x, hx, rfl⟩
  · have hm : x ∈ p.arrays ++ h.mapNames ∨ x ∈ A := by
      simp only [List.mem_append, or_assoc] at hm ⊢
      rcases hm with hm | hm | hm
      · exact .inr (.inl hm)
      · exact .inl (copyNames_subset p hm)
      · exact .inr (.inr hm)
    exact hm.elim (fun hm => arrays_reserved hst.plan hm) fun hm => reads_reserved hm

/-- **The strategy.** Histograms are accumulated in local memory, in any number of slots for a group and whatever the methods
of their operators are. -/
theorem localCode_works {copies : Expr} (hst : p.Stage h M o R A (p.reserved A) c k₀ k g n s) (hB : h.Given M B A s.memory)
    (hc : c.thread = none) (hg : 0 < g) (hmax : (g : Int) ≤ c.limits.maxGroupSize) (hsegments : 0 < M.segments)
    (hcopies : ∀ f, Computes f c s copies slots) (hgroups : Word64.fits (n + M.segments : ℕ) = true)
    (hfit : h.FitsLocal M g (M.groupsPerSegment n) slots c.rounds) (hroom : h.HasLocalRoom M g (M.groupsPerSegment n) slots) :
    Works f (Machine.launch c) c (p.localCode copies) k s fun _ _ t => h.Accumulated M B t.memory ∧
      ∀ x i b, x.Before k₀ → s.memory.Apart h.written x → s.memory.Has x i b → t.memory.Has x i b := by
  obtain ⟨table, methods, k₁, hrun, hk₁, hlen, hsuits, htable, hst₁⟩ := chooseLocal_spec hst
  rw [localCode_eq]
  refine Works.bind (Works.lift (congrArg some hrun) hk₁ (Q := fun x k t => (table, methods) = x ∧ k₁ = k ∧ s = t)
    ⟨rfl, rfl, rfl⟩) ?_
  rintro _ _ _ - - ⟨rfl, rfl, rfl⟩
  -- the numbers of slots and of groups for a segment
  refine Works.bind (Works.bindSize (X := p.reserved A ++ lockNames table) "local_subhistos" hst₁.below hcopies) ?_
  rintro slotsExpr k₂ s₂ hk₂ hf₂ ⟨hslots, hm₂, -⟩
  have hst₂ := hst₁.keep hk₂ hf₂ fun x _ i => by rw [hm₂]
  refine Works.bind (Works.bindSize (X := p.reserved A ++ lockNames table) (a := M.groupsPerSegment n) "groups_per_segment"
    hst₂.below fun f =>
      (Quantity.one.max (hst₂.plan.groupCount.ceilDiv hst₂.plan.segments hsegments hgroups)).computes f c) ?_
  rintro perExpr k₃ s₃ hk₃ hf₃ ⟨hper, hm₃, -⟩
  have hst₃ := hst₂.keep hk₃ hf₃ fun x _ i => by rw [hm₃]
  have hmem : s₃.memory = s.memory := hm₃.trans hm₂
  have hreserved : p.arrays ++ h.mapNames ++ lockNames table ⊆ p.reserved A ++ lockNames table :=
    List.append_subset.2 ⟨List.subset_append_of_subset_left _ (arrays_reserved hst.plan), List.subset_append_right _ _⟩
  refine (accumulateLocal_works hst₃ hreserved (hmem ▸ hB) hc hg hmax (hslots.frame hk₃ hf₃) hper hlen hsuits htable hfit
    hroom).mono ?_
  rw [hmem]
  exact fun _ _ _ _ _ h => h

end Plan

end GpuHistogram
