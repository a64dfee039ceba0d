/-
The phases of a group in local memory as they are generated: of each there is a loop for every operator. What a loop sets
and stores to is its own (`initLoops_confined`, `compactLoops_confined`, `publishLoops_confined`), and what one thread does
of a phase follows from what is done for one element (`initLoops_run`, `compactLoops_run`, `publishLoops_run`).
-/
import GpuHistogram.Proofs.LocalPhases

namespace GpuHistogram

open Machine

variable {f : Form} {L : LaunchSpec → List Stmt → Exec Unit} {c c' : Context} {s t : State}

namespace LocalLayout

variable {K : LocalLayout} {k k₀ k' j j' g n i l e : ℕ} {X A R : List Name} {h : Histogram} {M : Histogram.Meaning} {o : Options}
  {p : Plan} {m₁ : Memory} {mlen : ℕ → ℕ} {gm : ℕ → ℕ → Value} {q : Part × LocalPart} {stmts : List Stmt} {x : Stmt}
  {size : Part × LocalPart → Expr} {body body' : Part × LocalPart → Name → List Stmt → Prop}
  {prior : (q : Part) → ℕ → Tuple q.op.scalars}

/-! ## The bodies -/

/-- the first value of an element of the slots -/
def InitBody (K : LocalLayout) (q : Part × LocalPart) (n : Name) (b : List Stmt) : Prop :=
  b = q.1.initElement K.ns K.shape q.2.blocks (.ofName n)

/-- the slots of an element combined into the first, with new variables for the tuple -/
def CompactBody (K : LocalLayout) (k k' : ℕ) (q : Part × LocalPart) (n : Name) (b : List Stmt) : Prop :=
  ∃ sn accs, b = q.1.compactElement K.shape q.2.blocks sn accs (.ofName n) ∧ accs.length = q.2.blocks.length ∧
    (n :: sn :: accs).Nodup ∧ ∀ x ∈ n :: sn :: accs, x.Within k k'

/-- an element of the first slot written back -/
def PublishBody (K : LocalLayout) (q : Part × LocalPart) (n : Name) (b : List Stmt) : Prop :=
  b = q.1.publishElement K.ns K.shape q.2.blocks (.ofName n)

theorem CompactBody.mono {n : Name} {b : List Stmt} (hb : K.CompactBody k k' q n b) (hj : j ≤ k) (hk : k' ≤ j') :
    K.CompactBody j j' q n b := by
  obtain ⟨sn, accs, he, hlen, hnd, hw⟩ := hb
  exact ⟨sn, accs, he, hlen, hnd, fun x hx => (hw x hx).mono hj hk⟩

theorem IsLoop.mono (hx : K.IsLoop size body k k' q x) (hj : j ≤ k) (hk : k' ≤ j')
    (hb : ∀ n b, body q n b → body' q n b) : K.IsLoop size body' j j' q x := by
  obtain ⟨cn, b, he, hc, hn, hne, hfree, hbody⟩ := hx
  exact ⟨cn, b, he, hc.mono hj hk, hn.mono hj hk, hne, hfree, hb _ _ hbody⟩

/-! ## What the bodies set and store to -/

theorem localArrays_subset (q : Part × LocalPart) : (q.1.localArrays q.2.blocks).map (·.1) ⊆ q.2.blocks := fun x hx => by
  obtain ⟨a, ha, rfl⟩ := List.mem_map.1 hx
  obtain ⟨b, hb, rfl⟩ := List.mem_map.1 ha
  exact (List.of_mem_zip hb).2

theorem subArrays_subset (q : Part × LocalPart) : q.1.subs.arrays.map (·.1) ⊆ q.1.subs.subs := fun x hx => by
  obtain ⟨a, ha, rfl⟩ := List.mem_map.1 hx
  obtain ⟨b, hb, rfl⟩ := List.mem_map.1 ha
  exact (List.of_mem_zip hb).1

theorem InitBody.uses {n : Name} {b : List Stmt} (hb : K.InitBody q n b) : blockSets b = [] ∧ blockStores b ⊆ q.2.blocks := by
  have hindex : (Expr.ofName n).arrays = [] := rfl
  have h (es : List Expr) := uses_stores (q.1.localArrays q.2.blocks) es .shared hindex
  have h1 := h (q.1.published K.ns K.shape (.ofName n))
  have h2 := h q.1.subs.neutral
  have hboth : (blockUses .sets b = [] ∧ blockUses .stores b ⊆ q.2.blocks) := by
    rw [hb, Part.initElement]
    simp only [blockUses_cons, blockUses_nil, List.append_nil, Stmt.uses, Use.among, List.nil_append]
    refine ⟨List.append_eq_nil_iff.2 ⟨h1.1, h2.1⟩, List.append_subset.2 ⟨?_, ?_⟩⟩
    · exact List.Subset.trans h1.2 (localArrays_subset q)
    · exact List.Subset.trans h2.2 (localArrays_subset q)
  exact hboth

theorem CompactBody.sets {n x : Name} {b : List Stmt} (hb : K.CompactBody k k' q n b) (hF : q.1.op.combiner.body = [])
    (hx : x ∈ blockSets b) : x.Within k k' ∧ x ≠ n ∨ x ∈ q.1.op.combiner.names := by
  obtain ⟨sn, accs, rfl, -, hnd, hw⟩ := hb
  have hvar {x : Name} (hx : x ∈ sn :: accs) : x.Within k k' ∧ x ≠ n :=
    ⟨hw x (List.mem_cons_of_mem n hx), fun he => (List.nodup_cons.1 hnd).1 (he ▸ hx)⟩
  have hindex : (Expr.ofName n).arrays = [] := rfl
  have hstores := (uses_stores (q.1.localArrays q.2.blocks)
    ((accs.zip (q.1.subs.dests.map (·.elem))).map fun a => .scalarVar a.1 a.2) .shared hindex).1
  rw [Part.compactElement_eq, blockSets, blockUses_append] at hx
  rcases List.mem_append.1 hx with hx | hx
  · simp only [combineCopies, blockUses_append, blockUses_map, blockUses_cons, blockUses_nil, Stmt.bind, Stmt.count,
      Stmt.countBy, Stmt.uses, Use.among, List.append_nil, List.mem_append, List.mem_flatMap, List.mem_singleton] at hx
    rcases hx with ⟨a, ha, rfl⟩ | rfl | hx
    · exact .inl (hvar (List.mem_cons_of_mem sn (List.of_mem_zip ha).1))
    · exact .inl (hvar (List.mem_cons_self ..))
    · exact (Combiner.sets_apply hF hx).symm.imp_left fun hx => hvar (List.mem_cons_of_mem sn hx)
  · exact absurd hx (by rw [show blockUses .sets _ = _ from hstores]; exact List.not_mem_nil)

theorem CompactBody.stores {n : Name} {b : List Stmt} (hb : K.CompactBody k k' q n b) (hF : q.1.op.combiner.body = []) :
    blockStores b ⊆ q.2.blocks := by
  obtain ⟨sn, accs, rfl, -, -, -⟩ := hb
  have hindex : (Expr.ofName n).arrays = [] := rfl
  have hstores := (uses_stores (q.1.localArrays q.2.blocks)
    ((accs.zip (q.1.subs.dests.map (·.elem))).map fun a => .scalarVar a.1 a.2) .shared hindex).2
  rw [Part.compactElement_eq, blockStores, blockUses_append]
  refine List.append_subset.2 ⟨fun x hx => ?_, List.Subset.trans hstores (localArrays_subset q)⟩
  simp [combineCopies, blockUses_map, Stmt.bind, Stmt.count, Stmt.countBy, Stmt.uses, Use.among,
    Combiner.stores_apply hF] at hx

theorem PublishBody.uses {n : Name} {b : List Stmt} (hb : K.PublishBody q n b)
    (harrays : K.shape.groupsPerSegment.arrays = [] ∧ q.1.subs.size.arrays = []) :
    blockSets b = [] ∧ blockStores b ⊆ q.1.subs.subs := by
  have hindex : (q.1.publishedIndex K.ns K.shape (.ofName n)).arrays = [] := by
    change ((([] ++ K.shape.groupsPerSegment.arrays) ++ []) ++ q.1.subs.size.arrays) ++ [] = []
    rw [harrays.1, harrays.2]
    rfl
  rw [hb]
  have h := uses_stores q.1.subs.arrays (q.1.localElements q.2.blocks (.ofName n)) .device hindex
  exact ⟨h.1, List.Subset.trans h.2 (subArrays_subset q)⟩

/-! ## What is generated -/

/-- a generator that draws the names of one loop after the other gives a loop for each operator -/
theorem loops_spec {B : ℕ → ℕ → Part × LocalPart → Name → List Stmt → Prop}
    (hB : ∀ {q n b j k k' j'}, B k k' q n b → j ≤ k → k' ≤ j' → B j j' q n b) (gen : List (Part × LocalPart) → Fresh (List Stmt))
    (one : Part × LocalPart → Fresh Stmt) (hnil : ∀ k, gen [] k = ([], k))
    (hcons : ∀ q l k, gen (q :: l) k = ((one q k).1 :: (gen l (one q k).2).1, (gen l (one q k).2).2))
    (l : List (Part × LocalPart))
    (hone : ∀ q ∈ l, ∀ i, k ≤ i → ∃ x i', one q i = (x, i') ∧ i ≤ i' ∧ K.IsLoop size (B i i') i i' q x) :
    ∃ stmts k', gen l k = (stmts, k') ∧ k ≤ k' ∧ List.Forall₂ (K.IsLoop size (B k k') k k') l stmts := by
  induction l generalizing k with
  | nil => exact ⟨[], k, hnil k, Nat.le_refl k, .nil⟩
  | cons q l ih =>
    obtain ⟨x, k₁, hx, hk₁, hloop⟩ := hone q (List.mem_cons_self ..) k (Nat.le_refl k)
    obtain ⟨stmts, k₂, hl, hk₂, hloops⟩ := ih fun q hq i hi => hone q (List.mem_cons_of_mem _ hq) i (hk₁.trans hi)
    refine ⟨x :: stmts, k₂, by rw [hcons, hx, hl], hk₁.trans hk₂, .cons ?_ ?_⟩
    · exact hloop.mono (Nat.le_refl k) hk₂ fun n b hb => hB hb (Nat.le_refl k) hk₂
    · exact hloops.imp fun q x hx => hx.mono hk₁ (Nat.le_refl k₂) fun n b hb => hB hb hk₁ (Nat.le_refl k₂)

/-- the names of a loop -/
theorem chunkNames_create (k : ℕ) : ∃ cn : ChunkNames, ChunkNames.create k = (cn, k + 2) ∧ cn.c.Within k (k + 1) ∧
    cn.j.Within (k + 1) (k + 2) :=
  ⟨_, rfl, Name.within_mk "c" (by omega) (by omega), Name.within_mk "j" (by omega) (by omega)⟩

/-- the loops that give the slots their first values -/
theorem initCopies_spec (parts : List (Part × LocalPart)) (k : ℕ) : ∃ stmts k',
    Plan.initCopies K.ns K.shape parts k = (stmts, k') ∧ k ≤ k' ∧
      List.Forall₂ (K.IsLoop (fun q => K.shape.copies * q.1.subs.size) K.InitBody k k') parts stmts := by
  refine K.loops_spec (B := fun _ _ => K.InitBody) (fun hb _ _ => hb) (Plan.initCopies K.ns K.shape)
    (fun q => do
      let c ← ChunkNames.create
      return groupLoop c K.ns.thread (K.shape.copies * q.1.subs.size) (q.1.initElement K.ns K.shape q.2.blocks (.ofName c.j)))
    (fun _ => rfl) (fun _ _ _ => rfl) parts fun q _ i _ => ?_
  obtain ⟨cn, hcn, hc, hj⟩ := chunkNames_create i
  refine ⟨_, i + 2, congrArg (fun r : ChunkNames × ℕ => (groupLoop r.1 K.ns.thread (K.shape.copies * q.1.subs.size)
    (q.1.initElement K.ns K.shape q.2.blocks (.ofName r.1.j)), r.2)) hcn, by omega, cn, _, rfl,
    hc.mono (Nat.le_refl i) (by omega), hj.mono (by omega) (Nat.le_refl _), hc.before.ne hj, ?_, rfl⟩
  rw [(InitBody.uses (K := K) (q := q) (n := cn.j) rfl).1]
  exact List.not_mem_nil

/-- the loops that write the first slots back -/
theorem publishCopies_spec (parts : List (Part × LocalPart)) (k : ℕ)
    (harrays : ∀ q ∈ parts, K.shape.groupsPerSegment.arrays = [] ∧ q.1.subs.size.arrays = []) : ∃ stmts k',
    Plan.publishCopies K.ns K.shape parts k = (stmts, k') ∧ k ≤ k' ∧
      List.Forall₂ (K.IsLoop (fun q => q.1.subs.size) K.PublishBody k k') parts stmts := by
  refine K.loops_spec (B := fun _ _ => K.PublishBody) (fun hb _ _ => hb) (Plan.publishCopies K.ns K.shape)
    (fun q => do
      let c ← ChunkNames.create
      return groupLoop c K.ns.thread q.1.subs.size (q.1.publishElement K.ns K.shape q.2.blocks (.ofName c.j)))
    (fun _ => rfl) (fun _ _ _ => rfl) parts fun q hq i _ => ?_
  obtain ⟨cn, hcn, hc, hj⟩ := chunkNames_create i
  refine ⟨_, i + 2, congrArg (fun r : ChunkNames × ℕ => (groupLoop r.1 K.ns.thread q.1.subs.size
    (q.1.publishElement K.ns K.shape q.2.blocks (.ofName r.1.j)), r.2)) hcn, by omega, cn, _, rfl,
    hc.mono (Nat.le_refl i) (by omega), hj.mono (by omega) (Nat.le_refl _), hc.before.ne hj, ?_, rfl⟩
  rw [(PublishBody.uses (K := K) (q := q) (n := cn.j) rfl (harrays q hq)).1]
  exact List.not_mem_nil

/-- the loops that combine the slots -/
theorem compactCopies_spec (parts : List (Part × LocalPart)) (k : ℕ)
    (hF : ∀ q ∈ parts, q.1.op.combiner.body = [] ∧ ∀ x ∈ q.1.op.combiner.names, x.Before k) : ∃ stmts k',
    Plan.compactCopies K.ns K.shape parts k = (stmts, k') ∧ k ≤ k' ∧
      List.Forall₂ (K.IsLoop (fun q => q.1.subs.size) (K.CompactBody k k') k k') parts stmts := by
  refine K.loops_spec (B := K.CompactBody) (fun hb hj hk => hb.mono hj hk) (Plan.compactCopies K.ns K.shape)
    (fun q => do
      let c ← ChunkNames.create
      let s ← fresh "s"
      let accs ← q.2.blocks.mapM fun n => fresh (n.text ++ "_acc")
      return groupLoop c K.ns.thread q.1.subs.size (q.1.compactElement K.shape q.2.blocks s accs (.ofName c.j)))
    (fun _ => rfl) (fun _ _ _ => rfl) parts fun q hq i hi => ?_
  obtain ⟨cn, hcn, hc, hj⟩ := chunkNames_create i
  let accs := freshNames (q.2.blocks.map fun n => n.text ++ "_acc") (i + 3)
  have haccs := mapM_fresh (fun n : Name => n.text ++ "_acc") q.2.blocks (i + 3)
  have hlen : accs.length = q.2.blocks.length := by rw [length_freshNames, List.length_map]
  have hall : cn.j :: ⟨"s", some (i + 2)⟩ :: accs = cn.j :: freshNames ("s" :: q.2.blocks.map fun n => n.text ++ "_acc") (i + 2) :=
    rfl
  have hrest {x : Name} (hx : x ∈ (⟨"s", some (i + 2)⟩ : Name) :: accs) : x.Within (i + 2) (i + 3 + q.2.blocks.length) := by
    refine (within_freshNames (l := "s" :: q.2.blocks.map fun n => n.text ++ "_acc") hx).mono (Nat.le_refl _) ?_
    simp only [List.length_cons, List.length_map]
    omega
  have hbody : K.CompactBody (i + 1) (i + 3 + q.2.blocks.length) q cn.j
      (q.1.compactElement K.shape q.2.blocks ⟨"s", some (i + 2)⟩ accs (.ofName cn.j)) := by
    refine ⟨_, accs, rfl, hlen, ?_, fun x hx => ?_⟩
    · rw [hall]
      exact List.nodup_cons.2 ⟨fun hm => (hrest hm).not_before hj.before, nodup_freshNames _ _⟩
    · rcases List.mem_cons.1 hx with rfl | hx
      · exact hj.mono (Nat.le_refl _) (by omega)
      · exact (hrest hx).mono (by omega) (Nat.le_refl _)
  refine ⟨groupLoop cn K.ns.thread q.1.subs.size (q.1.compactElement K.shape q.2.blocks ⟨"s", some (i + 2)⟩ accs (.ofName cn.j)),
    i + 3 + q.2.blocks.length, ?_, by omega, cn, _, rfl, hc.mono (Nat.le_refl i) (by omega), hj.mono (by omega) (by omega),
    hc.before.ne hj, fun hm => ?_, hbody.mono (Nat.le_succ i) (Nat.le_refl _)⟩
  · change (let r := ChunkNames.create i
      let a := (q.2.blocks.mapM fun n => fresh (n.text ++ "_acc")) (r.2 + 1)
      (groupLoop r.1 K.ns.thread q.1.subs.size (q.1.compactElement K.shape q.2.blocks ⟨"s", some r.2⟩ a.1 (.ofName r.1.j)),
        a.2)) = _
    rw [hcn]
    dsimp only
    rw [haccs]
  · rcases hbody.sets (hF q hq).1 hm with hm | hm
    · exact hm.1.not_before hc.before
    · exact hc.not_before (((hF q hq).2 _ hm).mono hi)

/-! ## The loops of a thread -/

theorem initLoops_confined : K.Confined h K.InitBody j k' where
  sets := fun q _ n b hb x hx => by
    rw [InitBody.uses hb |>.1] at hx
    cases hx
  stores := fun q _ n b hb => List.subset_append_of_subset_left _ (InitBody.uses hb).2

section Run

variable (hst : K.Stage p h M o R A X c k₀ k j g n mlen s)
include hst

theorem publishLoops_confined : K.Confined h K.PublishBody j k' where
  sets := fun q hq n b hb x hx => by
    rw [(PublishBody.uses hb ⟨hst.perSegment.arrays, (hst.fits q hq).part.size.arrays⟩).1] at hx
    cases hx
  stores := fun q hq n b hb => List.subset_append_of_subset_right _
    (PublishBody.uses hb ⟨hst.perSegment.arrays, (hst.fits q hq).part.size.arrays⟩).2

theorem compactLoops_confined : K.Confined h (K.CompactBody j k') j k' where
  sets := fun _ hq _ _ hb _ hx =>
    (hb.sets (hst.regular.typed (hst.op_mem hq)).body hx).imp (·.1) fun hx =>
      Histogram.Regular.mem_locals (hst.op_mem hq) (List.mem_append_right _ hx)
  stores := fun _ hq _ _ hb =>
    List.subset_append_of_subset_left _ (hb.stores (hst.regular.typed (hst.op_mem hq)).body)

variable (hsc : K.Scene h A s m₁) (hc : c'.thread.isSome = true) (hrounds : c'.rounds = c.rounds)
  (hlocal : ∀ t, Computes f c' t .localSize g) (hl : l < g)
include hsc hc hrounds hlocal hl

/-- **First values.** The thread `l` gives the elements of the slots that are its own their first values. -/
theorem initLoops_run (hloops : List.Forall₂ (K.IsLoop (fun q => K.shape.copies * q.1.subs.size) K.InitBody j k') K.parts stmts)
    (hi : i < M.segments * K.perSegment) (ht : K.Thread h M mlen gm k X s m₁ g i l e t)
    (hT : ∀ q ∈ K.parts, K.Tables M q (K.Filled M prior i e q fun y => y % g < l) t.memory) :
    Runs f L c' stmts t fun u => K.Thread h M mlen gm k X s m₁ g i l e u ∧
      ∀ q ∈ K.parts, K.Tables M q (K.Filled M prior i e q fun y => y % g < l + 1) u.memory := by
  refine loops_run (Z := fun q => K.slots * M.size q.1.op) (fun q D => K.Filled M prior i e q D) hst hsc hloops
    initLoops_confined hc hrounds hlocal hl (fun q hq => ?_) (fun q hq D D' T V hD hF => ?_)
    (fun q hq m b hb y D u hy _ hu hm hTu => hb ▸ initElement_runs hst hq hsc hi hu hm hy hTu) ht hT
  · have hfilled := hst.numbers.filled _ (hst.op_mem hq)
    exact ⟨hst.slots.mul (hst.fits q hq).part.size (Word64.fits_le hfilled.1 (Nat.le_add_right _ _)), hfilled⟩
  · exact ⟨hF.1, fun x hx hDx => hF.2 x hx ((hD x hx).trans hDx)⟩

/-- **Combining.** The thread `l` combines the slots of its own elements into the first. -/
theorem compactLoops_run (hloops : List.Forall₂ (K.IsLoop (fun q => q.1.subs.size) (K.CompactBody j k') j k') K.parts stmts)
    (ht : K.Thread h M mlen gm k X s m₁ g i l e t)
    (hT : ∀ q ∈ K.parts, K.Tables M q (K.Compacted M prior i e q fun y => y % g < l) t.memory) :
    Runs f L c' stmts t fun u => K.Thread h M mlen gm k X s m₁ g i l e u ∧
      ∀ q ∈ K.parts, K.Tables M q (K.Compacted M prior i e q fun y => y % g < l + 1) u.memory := by
  refine loops_run (Z := fun q => M.size q.1.op) (fun q D => K.Compacted M prior i e q D) hst hsc hloops
    (compactLoops_confined hst) hc hrounds hlocal hl (fun q hq => ?_) (fun q hq D D' T V hD hC hm a ha => ?_)
    (fun q hq m b hb y D u hy hDy hu hm hTu => ?_) ht hT
  · obtain ⟨hfit, hlim⟩ := hst.numbers.filled _ (hst.op_mem hq)
    have hle : M.size q.1.op ≤ K.slots * M.size q.1.op := Nat.le_mul_of_pos_left _ hst.numbers.slots_pos
    exact ⟨(hst.fits q hq).part.size, Word64.fits_le hfit (Nat.add_le_add_right hle g),
      (Nat.div_le_div_right (by omega)).trans hlim⟩
  · rw [← hC hm a ha, Copies.insertCopy_congr (size_pos ha) fun x hx => by rw [← hD x hx]]
  · obtain ⟨sn, accs, rfl, hlen, hnd, hw⟩ := hb
    exact compactElement_runs hst hq hsc hc hrounds hw hnd hlen hu hm hy hDy hTu

/-- **Writing back.** The thread `l` writes its own elements of the first slot back. -/
theorem publishLoops_run (hloops : List.Forall₂ (K.IsLoop (fun q => q.1.subs.size) K.PublishBody j k') K.parts stmts)
    (hi : i < M.segments * K.perSegment) (ht : K.Thread h M mlen gm k X s m₁ g i l e t)
    (hT : ∀ q ∈ K.parts, K.Tables M q (K.Published M prior i e q fun y => y % g < l) t.memory) :
    Runs f L c' stmts t fun u => K.Thread h M mlen gm k X s m₁ g i l e u ∧
      ∀ q ∈ K.parts, K.Tables M q (K.Published M prior i e q fun y => y % g < l + 1) u.memory := by
  refine loops_run (Z := fun q => M.size q.1.op) (fun q D => K.Published M prior i e q D) hst hsc hloops
    (publishLoops_confined hst) hc hrounds hlocal hl (fun q hq => ?_) (fun q hq D D' T V hD hP => ?_)
    (fun q hq m b hb y D u hy _ hu hm hTu => hb ▸ publishElement_runs hst hq hsc hi hu hm hy hTu) ht hT
  · obtain ⟨hfit, hlim⟩ := hst.numbers.filled _ (hst.op_mem hq)
    have hle : M.size q.1.op ≤ K.slots * M.size q.1.op := Nat.le_mul_of_pos_left _ hst.numbers.slots_pos
    exact ⟨(hst.fits q hq).part.size, Word64.fits_le hfit (Nat.add_le_add_right hle g),
      (Nat.div_le_div_right (by omega)).trans hlim⟩
  · exact ⟨hP.1, fun x hx hDx => hP.2 x hx ((hD x hx).trans hDx)⟩

end Run

/-! ## Locks -/

/-- the code that frees all locks, if there are any -/
def FreesLocks (K : LocalLayout) (k k' : ℕ) (stmts : List Stmt) : Prop :=
  K.table = none ∧ stmts = [] ∨ ∃ tb cn, K.table = some tb ∧ stmts = [groupLoop cn K.ns.thread .localSize
    [.store (.element tb.name .i32 .shared (.ofName cn.j)) (.literal unlocked .i32)]] ∧
    cn.c.Within k k' ∧ cn.j.Within k k' ∧ cn.c ≠ cn.j

theorem initLocks_spec (K : LocalLayout) (k : ℕ) : ∃ stmts k', Plan.initLocks K.ns K.table k = (stmts, k') ∧ k ≤ k' ∧
    K.FreesLocks k k' stmts := by
  cases htable : K.table with
  | none => exact ⟨[], k, rfl, Nat.le_refl k, .inl ⟨htable, rfl⟩⟩
  | some tb =>
    obtain ⟨cn, hcn, hc, hj⟩ := chunkNames_create k
    refine ⟨_, k + 2, congrArg (fun r : ChunkNames × ℕ => ([groupLoop r.1 K.ns.thread .localSize
      [.store (.element tb.name .i32 .shared (.ofName r.1.j)) (.literal unlocked .i32)]], r.2)) hcn, by omega,
      .inr ⟨tb, cn, htable, rfl, hc.mono (Nat.le_refl k) (by omega), hj.mono (by omega) (Nat.le_refl _), hc.before.ne hj⟩⟩

theorem FreesLocks.sets (hx : K.FreesLocks k k' stmts) {y : Name} (hy : y ∈ blockSets stmts) : y.Within k k' := by
  obtain ⟨-, rfl⟩ | ⟨tb, cn, -, rfl, hc, hj, -⟩ := hx
  · simp [blockSets] at hy
  · rcases List.mem_cons.1 (sets_groupLoop.1 hy) with rfl | hy
    · exact hc
    · rcases List.mem_cons.1 hy with rfl | hy
      · exact hj
      · simp [blockSets, Stmt.store, Stmt.uses, Use.among, Expr.element, Expr.settable] at hy

theorem FreesLocks.stores (hx : K.FreesLocks k k' stmts) : blockStores stmts ⊆ lockNames K.table := by
  obtain ⟨-, rfl⟩ | ⟨tb, cn, htable, rfl, -, -, -⟩ := hx
  · simp [blockStores]
  · rw [stores_groupLoop, htable]
    simp [blockStores, Stmt.store, Stmt.uses, Use.among, Expr.element, Expr.typed, Expr.ofName, Expr.reads, lockNames]

/-- **Locks.** All of them stay free, and nothing else changes. -/
theorem initLocks_run (hst : K.Stage p h M o R A X c k₀ k j g n mlen s) (hsc : K.Scene h A s m₁) (hc : c'.thread.isSome = true)
    (hrounds : c'.rounds = c.rounds) (hlocal : ∀ t, Computes f c' t .localSize g) (hl : l < g) (hpos : 0 < c.rounds)
    (hx : K.FreesLocks j k' stmts) (ht : K.Thread h M mlen gm k X s m₁ g i l e t) :
    Runs f L c' stmts t fun u => K.Thread h M mlen gm k X s m₁ g i l e u ∧ Memory.Keeps (lockNames K.table) t.memory u.memory := by
  have hthread : K.ns.thread ∈ K.ns.all := by simp [LocalNames.all]
  have hsub : lockNames K.table ⊆ K.written h := fun x hx => List.mem_append_left _ (List.mem_append_right _ hx)
  have hmaps : ∀ x ∈ h.mapNames, m₁.Apart (lockNames K.table) x := fun x hx w hw p hp hp' =>
    (List.pairwise_append.1 (List.pairwise_append.1 hsc.unaliased).1).2.2 x hx w hw p hp hp'
  -- what is kept of the thread, whatever becomes of the locks
  have hkeep {u : State} (hu : Keeps (blockSets stmts) (blockStores stmts) t u) (hfree : LocksFree K.table g u.memory) :
      K.Thread h M mlen gm k X s m₁ g i l e u := by
    have hmem := hu.memory.mono hx.stores
    refine ⟨ht.vars.keeps hu rfl (fun y hy => hst.mem_of_before (.inl (hx.sets hy))) fun y hy hm =>
      hst.not_start hy (.inl (hx.sets hm)), ht.memory.trans (hmem.mono hsub), hfree, ht.maps.keeps hmem fun y hy =>
        (hmaps y hy).keeps ht.memory⟩
  have hrun : Runs f L c' stmts t fun u => LocksFree K.table g u.memory := by
    obtain ⟨-, rfl⟩ | ⟨tb, cn, htable, rfl, hcw, hjw, hne⟩ := id hx
    · exact Runs.nil ht.locks
    · obtain ⟨-, hfit⟩ := hst.locks tb htable
      have hlim : (g + g - 1) / g ≤ c'.rounds := by
        have h1 : (g + g - 1) / g < 2 := Nat.div_lt_of_lt_mul (by omega)
        omega
      have hfree : K.ns.thread ∉ cn.c :: cn.j :: blockSets
          [Stmt.store (.element tb.name .i32 .shared (.ofName cn.j)) (.literal unlocked .i32)] := fun hm =>
        hst.not_start hthread (.inl (hx.sets (sets_groupLoop.2 hm)))
      refine groupLoop_runs (fun _ m => LocksFree K.table g m) hc hlocal hl hfit hlim ht.vars.thread hne ?_ hfree
        (fun u _ => hlocal u) (fun _ _ _ _ hm => hm)
        (fun y _ u hy _ hu hyv hm => ?_) ht.locks fun u hm _ => hm
      · simp [blockSets, Stmt.store, Stmt.uses, Use.among, Expr.element, Expr.settable]
      · have hzero : Evals f c' u (.literal unlocked .i32) (.int 0 .i32) := by
          cases f <;> rfl
        have hyfit : Word64.fits (y : ℕ) = true := Word64.fits_le hfit (by omega)
        obtain ⟨m', hm', hcol⟩ := (hm tb htable).write hy (.int 0 .i32)
        have hidx := Computes.ofName (f := f) (c := c') hyv hyfit
        refine Runs.storeElement hzero hidx.evals (Value.toInt64_word hyfit) hm' (Runs.nil fun tb' htb' => ?_)
        obtain rfl := Option.some.inj (htable.symm.trans htb')
        refine hcol.congr fun z _ => ?_
        by_cases hzy : z = y
        · rw [hzy, Function.update_self]
          rfl
        · rw [Function.update_of_ne hzy]
  exact (hrun.keeps hc).mono fun u hu => ⟨hkeep hu.2 hu.1, hu.2.memory.mono hx.stores⟩

end LocalLayout

end GpuHistogram
