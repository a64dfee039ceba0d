/-
Launching a kernel whose groups have local memory and whose threads wait for each other. The pieces between the barriers
are phases (`phases_withBarriers`), and `PhasesRun` says what has to be shown of them: of every phase what its threads do
one after the other, from the memory that the phase before has left. A group has new arrays of zeros for itself
(`withBlocks`), which are gone afterwards (`restore_column`, `restore_keeps`).

`Runs.launchGroups`: such a kernel keeps an invariant that is indexed by the number of the group. A kernel without barriers
and without local memory, `Runs.launch`, is one whose groups have a single phase.
-/
import GpuHistogram.Histogram.InLocalMemory
import GpuHistogram.Proofs.Buffers
import GpuHistogram.Proofs.Launches

namespace GpuHistogram

open Machine

/-! ## Code with barriers -/

/-- pieces of code with barriers between them -/
def withBarriers (l : List Stmt) : List (BarrierScope × List Stmt) → List Stmt
  | [] => l
  | (b, l') :: rest => l ++ .barrier b .unknown :: withBarriers l' rest

/-- the pieces without the barriers -/
def joined (l : List Stmt) (rest : List (BarrierScope × List Stmt)) : List Stmt := l ++ rest.flatMap (·.2)

theorem joined_cons (l : List Stmt) (x : BarrierScope × List Stmt) (rest : List (BarrierScope × List Stmt)) :
    joined l (x :: rest) = l ++ joined x.2 rest := rfl

theorem mem_pieces {l l' : List Stmt} {rest : List (BarrierScope × List Stmt)} (h : l' ∈ l :: rest.map (·.2)) :
    ∃ l₁ l₂, joined l rest = l₁ ++ l' ++ l₂ := by
  induction rest generalizing l with
  | nil =>
    obtain rfl := List.mem_singleton.1 h
    exact ⟨[], [], by simp [joined]⟩
  | cons x rest ih =>
    rw [joined_cons]
    rcases List.mem_cons.1 h with rfl | h
    · exact ⟨[], joined x.2 rest, rfl⟩
    · obtain ⟨l₁, l₂, he⟩ := ih h
      exact ⟨l ++ l₁, l₂, by rw [he]; simp⟩

theorem uses_piece (u : Use) {l l' : List Stmt} {rest : List (BarrierScope × List Stmt)} (h : l' ∈ l :: rest.map (·.2)) :
    blockUses u l' ⊆ blockUses u (joined l rest) := by
  obtain ⟨l₁, l₂, he⟩ := mem_pieces h
  rw [he, blockUses_append, blockUses_append]
  exact List.subset_append_of_subset_left _ (List.subset_append_right _ _)

theorem Form.block_withBarriers (f : Form) (l : List Stmt) (rest : List (BarrierScope × List Stmt)) :
    f.block (withBarriers l rest) = withBarriers (f.block l) (rest.map fun x => (x.1, f.block x.2)) := by
  induction rest generalizing l with
  | nil => rfl
  | cons x rest ih =>
    have hcons : Stmt.barrier x.1 .unknown :: withBarriers x.2 rest = [.barrier x.1 .unknown] ++ withBarriers x.2 rest := rfl
    rw [withBarriers, f.block_append, hcons, f.block_append, f.block_barrier, ih]
    rfl

/-- a barrier neither binds nor takes a variable -/
theorem freeVariables_withBarriers (l : List Stmt) (rest : List (BarrierScope × List Stmt)) (blocks : List LocalBlock) :
    freeVariables (withBarriers l rest) blocks = freeVariables (joined l rest) blocks := by
  have happend (u : Occurrences) (l l' : List Stmt) : u.stmts (l ++ l') = (u.stmts l).stmts l' := by
    induction l generalizing u with
    | nil => rw [List.nil_append, Occurrences.stmts]
    | cons x l ih => rw [List.cons_append, Occurrences.stmts, Occurrences.stmts, ih]
  have hbarriers (u : Occurrences) (l : List Stmt) : u.stmts (withBarriers l rest) = u.stmts (joined l rest) := by
    induction rest generalizing u l with
    | nil => simp [withBarriers, joined]
    | cons x rest ih =>
      have hbarrier (u : Occurrences) : u.stmt (.barrier x.1 .unknown) = u := by
        rw [Occurrences.stmt]
        · rfl
        all_goals simp
      rw [withBarriers, joined_cons, happend, happend, Occurrences.stmts, hbarrier, ih]
  unfold freeVariables
  rw [hbarriers]

namespace Machine

theorem anyBarrier_form (f : Form) {l : List Stmt} (h : anyBarrier l = false) : anyBarrier (f.block l) = false := by
  cases f
  · exact h
  · exact anyBarrier_foldBlock h

/-- the pieces are the phases -/
theorem phases_withBarriers {l : List Stmt} {rest : List (BarrierScope × List Stmt)}
    (h : ∀ l' ∈ l :: rest.map (·.2), anyBarrier l' = false) : phases (withBarriers l rest) = l :: rest.map (·.2) := by
  induction rest generalizing l with
  | nil => exact phases_eq (h l (List.mem_cons_self ..))
  | cons x rest ih =>
    rw [withBarriers, phases_append (h l (List.mem_cons_self ..)), ih fun l' hl' => h l' (List.mem_cons_of_mem l hl')]
    rfl

theorem mem_withBarriers {l : List Stmt} {rest : List (BarrierScope × List Stmt)} {x : Stmt}
    (hx : x ∈ withBarriers l rest) : isBarrier x = true ∨ ∃ l' ∈ l :: rest.map (·.2), x ∈ l' := by
  induction rest generalizing l with
  | nil => exact .inr ⟨l, List.mem_cons_self .., hx⟩
  | cons y rest ih =>
    rw [withBarriers, List.mem_append, List.mem_cons] at hx
    rcases hx with hx | rfl | hx
    · exact .inr ⟨l, List.mem_cons_self .., hx⟩
    · exact .inl rfl
    · refine (ih hx).imp_right fun ⟨l', hl', hx⟩ => ⟨l', List.mem_cons_of_mem l hl', hx⟩

theorem topLevelPhases_withBarriers {V A : Name → Prop} (f : Form) {spec : LaunchSpec} {l : List Stmt}
    {rest : List (BarrierScope × List Stmt)} (hover : blockOver V A (joined l rest)) :
    topLevelPhases spec (f.block (withBarriers l rest)) = .ok ((l :: rest.map (·.2)).map f.block) := by
  have hpieces : ∀ l' ∈ l :: rest.map (·.2), anyBarrier l' = false := fun l' hl' => by
    obtain ⟨l₁, l₂, he⟩ := mem_pieces hl'
    have h := anyBarrier_of_over hover
    rw [he, anyBarrier_append, anyBarrier_append, Bool.or_eq_false_iff, Bool.or_eq_false_iff] at h
    exact h.1.2
  have hforms : ∀ l' ∈ f.block l :: (rest.map fun x => (x.1, f.block x.2)).map (·.2), anyBarrier l' = false := by
    intro l' hl'
    rw [List.map_map] at hl'
    rcases List.mem_cons.1 hl' with rfl | hl'
    · exact anyBarrier_form f (hpieces l (List.mem_cons_self ..))
    · obtain ⟨x, hx, rfl⟩ := List.mem_map.1 hl'
      exact anyBarrier_form f (hpieces x.2 (List.mem_cons_of_mem l (List.mem_map_of_mem hx)))
  unfold topLevelPhases
  rw [f.block_withBarriers, if_neg, phases_withBarriers hforms]
  · simp [List.map_map, Function.comp_def]
  · simp only [Bool.not_eq_true, List.any_eq_false]
    intro x hx
    rcases mem_withBarriers hx with hx | ⟨l', hl', hx⟩
    · simp [hx]
    · simp [(isBarrier_of_anyBarrier (hforms l' hl') hx).2]

/-! ## Local memory -/

/-- the size of a block is a number where the kernel is launched -/
structure SizedBlock.Of (c : Context) (s : State) (b : LocalBlock) (x : SizedBlock) : Prop where
  name : x.name = b.name
  elem : x.elem = b.elem
  size : ∃ e, b.size = .ofExpr e ∧ ∀ f, Computes f c s e x.count

variable {f : Form} {c : Context} {s t : State}

theorem evalBlocks_run {spec : LaunchSpec} {blocks : List LocalBlock} {sized : List SizedBlock} (hspec : spec.blocks = blocks)
    (h : List.Forall₂ (SizedBlock.Of c s) blocks sized) : evalBlocks c s spec = .ok sized := by
  unfold evalBlocks
  rw [hspec]
  clear hspec
  induction h with
  | nil => rfl
  | @cons b x blocks sized hx h ih =>
    rw [List.mapM_cons]
    obtain ⟨e, hsize, he⟩ := hx.size
    have hnonneg : ¬ (x.count : Int) < 0 := by omega
    have hblock : (⟨b.name, b.elem, x.count⟩ : SizedBlock) = x := by rw [← hx.name, ← hx.elem]
    refine except_bind_eq_ok.2 ⟨x, ?_, except_bind_eq_ok.2 ⟨sized, ih, rfl⟩⟩
    rw [hsize]
    unfold BlockSize.ofExpr
    cases hv : e.constant? with
    | none =>
      have hcount : evalInt c s e = .ok (x.count : Int) := evalInt_run (f := .plain) (he .plain)
      refine except_bind_eq_ok.2 ⟨_, hcount, ?_⟩
      dsimp only
      rw [if_neg hnonneg, Int.toNat_natCast, hblock]
      rfl
    | some v =>
      obtain rfl : v = x.count := by
        unfold Expr.constant? at hv
        split at hv
        · rename_i w ty o hw
          cases hv
          exact (he .folded).word.exact _ _ _ hw
        · cases hv
      refine except_bind_eq_ok.2 ⟨_, rfl, ?_⟩
      dsimp only
      rw [if_neg hnonneg, Int.toNat_natCast, hblock]
      rfl

theorem names_of_sized {blocks : List LocalBlock} {sized : List SizedBlock}
    (h : List.Forall₂ (SizedBlock.Of c s) blocks sized) : sized.map (·.name) = blocks.map (·.name) := by
  induction h with
  | nil => rfl
  | cons hx _ ih => rw [List.map_cons, List.map_cons, ih, hx.name]

/-- memory with the local memory of a group; all its elements are zero -/
def withBlocks (m : Memory) : List SizedBlock → Memory
  | [] => m
  | b :: bs => withBlocks (m.insert b.name (.zeros b.elem b.count)) bs

theorem allocateBlocks_run {o : Origin} {bs : List SizedBlock} (hroom : ∀ b ∈ bs, b.count < unallocatable) :
    allocateBlocks o bs s = .ok () { s with memory := withBlocks s.memory bs } := by
  induction bs generalizing s with
  | nil => rfl
  | cons b bs ih =>
    rw [allocateBlocks, allocate, if_neg (by have := hroom b (List.mem_cons_self ..); omega)]
    exact bind_eq_ok.2 ⟨(), _, rfl, ih fun x hx => hroom x (List.mem_cons_of_mem b hx)⟩

theorem allocateBlocks_eq_ok {o : Origin} {bs : List SizedBlock} (h : allocateBlocks o bs s = .ok () t) :
    t = { s with memory := withBlocks s.memory bs } := by
  induction bs generalizing s with
  | nil =>
    cases h
    rfl
  | cons b bs ih =>
    rw [allocateBlocks, allocate] at h
    obtain ⟨_, u, hu, h⟩ := bind_eq_ok.1 h
    split_ifs at hu
    · cases hu
    · cases hu
      exact ih h

/-- where the local memory of a group cannot be allocated, the first blocks have been -/
theorem allocateBlocks_eq_error {o : Origin} {bs : List SizedBlock} {f : Fault} (h : allocateBlocks o bs s = .error f t) :
    ∃ bs', bs' <+: bs ∧ t = { s with memory := withBlocks s.memory bs' } := by
  induction bs generalizing s with
  | nil => cases h
  | cons b bs ih =>
    rw [allocateBlocks] at h
    cases hb : allocate b.name b.elem b.count o s with
    | error g u =>
      rw [bind_fails hb] at h
      cases h
      unfold allocate at hb
      split_ifs at hb
      · cases hb
        exact ⟨[], List.nil_prefix, rfl⟩
      · cases hb
    | ok a u =>
      rw [bind_run hb] at h
      obtain ⟨bs', hpre, ht⟩ := ih h
      unfold allocate at hb
      split_ifs at hb
      · cases hb
      · cases hb
        exact ⟨b :: bs', List.cons_prefix_cons.2 ⟨rfl, hpre⟩, ht⟩

/-- every block has a new buffer of its own -/
theorem extends_withBlocks (m : Memory) {bs : List SizedBlock} (hnd : (bs.map (·.name)).Nodup) :
    Memory.Extends (bs.map (·.name)) m (withBlocks m bs) := by
  induction bs generalizing m with
  | nil => exact .refl m
  | cons b bs ih =>
    rw [List.map_cons, List.nodup_cons] at hnd
    exact Memory.Extends.append (.insert (.refl _ _)) (ih _ hnd.2) fun x hx => List.mem_singleton.1 hx ▸ hnd.1

theorem column_withBlocks (m : Memory) {bs : List SizedBlock} (hnd : (bs.map (·.name)).Nodup) {b : SizedBlock}
    (hb : b ∈ bs) : (withBlocks m bs).Column b.name b.elem b.count fun _ => .zero b.elem := by
  induction bs generalizing m with
  | nil => exact absurd hb List.not_mem_nil
  | cons x bs ih =>
    rw [List.map_cons, List.nodup_cons] at hnd
    rcases List.mem_cons.1 hb with rfl | hb
    · exact (extends_withBlocks _ hnd.2).column (Memory.Column.insert m b.name b.elem b.count) hnd.1
    · exact ih _ hnd.2 hb

/-- blocks have buffers behind those of the host, also if two of them have one name -/
theorem extends_blocks (m : Memory) (bs : List SizedBlock) :
    ∃ ns, (∀ n, n ∈ ns ↔ n ∈ bs.map (·.name)) ∧ Memory.Extends ns m (withBlocks m bs) := by
  induction bs generalizing m with
  | nil => exact ⟨[], fun _ => Iff.rfl, .refl m⟩
  | cons b bs ih =>
    obtain ⟨ns, hns, he⟩ := ih (m.insert b.name (.zeros b.elem b.count))
    have hb : Memory.Extends [b.name] m (m.insert b.name (.zeros b.elem b.count)) := .insert (.refl _ _)
    by_cases hmem : b.name ∈ ns
    · refine ⟨ns, fun n => ?_, hb.absorb he fun x hx => List.mem_singleton.1 hx ▸ hmem⟩
      rw [List.map_cons, List.mem_cons, ← hns]
      exact ⟨.inr, fun h => h.elim (fun heq => heq ▸ hmem) id⟩
    · refine ⟨b.name :: ns, fun n => ?_, hb.append he fun x hx => List.mem_singleton.1 hx ▸ hmem⟩
      rw [List.map_cons, List.mem_cons, List.mem_cons, hns]

/-- the last block of a name is what the name refers to: zeros, in a buffer of its own -/
theorem has_withBlocks (m : Memory) {bs bs' : List SizedBlock} {b : SizedBlock} (hlast : b.name ∉ bs'.map (·.name)) :
    ∃ q, (withBlocks m (bs ++ b :: bs')).Has b.name q (.zeros b.elem b.count) ∧ m.buffers.size ≤ q := by
  induction bs generalizing m with
  | nil =>
    obtain ⟨ns, hns, he⟩ := extends_blocks (m.insert b.name (.zeros b.elem b.count)) bs'
    have hb : (m.insert b.name (.zeros b.elem b.count)).Has b.name m.buffers.size (.zeros b.elem b.count) :=
      ⟨by simp [Memory.insert], by simp [Memory.insert]⟩
    exact ⟨_, he.has hb fun hm => hlast ((hns _).1 hm), Nat.le_refl _⟩
  | cons x bs ih =>
    obtain ⟨q, hq, hle⟩ := ih (m.insert x.name (.zeros x.elem x.count))
    refine ⟨q, hq, Nat.le_trans ?_ hle⟩
    simp [Memory.insert]

section Restore

variable {m m₁ m₂ : Memory} {ns W : List Name}

theorem size_restore (m : Memory) (k : ℕ) (names : Bindings ℕ) (h : k ≤ m.buffers.size) :
    (restore m k names).buffers.size = k := by
  simp only [restore, Array.size_shrink]
  omega

theorem getElem?_restore (m : Memory) (names : Bindings ℕ) {k p : ℕ} (hp : p < k) :
    (restore m k names).buffers[p]? = m.buffers[p]? := by
  by_cases hlt : p < m.buffers.size
  · rw [Array.getElem?_eq_getElem hlt, Array.getElem?_eq_getElem (by simp only [restore, Array.size_shrink]; omega)]
    simp only [restore, Array.getElem_shrink]
  · rw [Array.getElem?_eq_none (Nat.le_of_not_lt hlt), Array.getElem?_eq_none]
    simp only [restore, Array.size_shrink]
    omega

/-- what a group leaves of an array of the host -/
theorem restore_column {n : Name} {sc : Scalar} {len p : ℕ} {g : ℕ → Value} {b : Buffer} (he : Memory.Extends ns m m₁)
    (hk : Memory.Keeps W m₁ m₂) (hn : n ∉ ns) (hb : m.Has n p b) (h : m₂.Column n sc len g) :
    (restore m₂ m.buffers.size m.names).Column n sc len g := by
  obtain ⟨p', b', hb', hrest⟩ := h
  obtain rfl : p = p' := by
    have hname := hb'.name
    rw [hk.names, he.names n hn, hb.name] at hname
    exact Option.some.inj hname
  exact ⟨p, b', ⟨hb.name, (getElem?_restore _ _ hb.lt).trans hb'.buffer⟩, hrest⟩

/-- a group stores to no other arrays of the host than its threads do -/
theorem restore_keeps (he : Memory.Extends ns m m₁) (hk : Memory.Keeps (ns ++ W) m₁ m₂) :
    Memory.Keeps W m (restore m₂ m.buffers.size m.names) := by
  have hsize : (restore m₂ m.buffers.size m.names).buffers.size = m.buffers.size :=
    size_restore _ _ _ (hk.size ▸ he.size)
  refine ⟨rfl, hsize, fun {p b} hb => ?_, fun {p} hp => ?_⟩
  · have hlt : p < m.buffers.size := (Array.getElem?_eq_some_iff.1 hb).1
    obtain ⟨b', hb', hrest⟩ := hk.shape ((he.old p hlt).trans hb)
    exact ⟨b', (getElem?_restore _ _ hlt).trans hb', hrest⟩
  · by_cases hlt : p < m.buffers.size
    · rw [getElem?_restore _ _ hlt, ← he.old p hlt, hk.rest]
      intro n hn hnp
      by_cases hns : n ∈ ns
      · -- a block has a buffer behind those of the host
        obtain ⟨q, hq, hle, -⟩ := he.new n hns
        rw [hq, Option.some.injEq] at hnp
        omega
      · rw [he.names n hns] at hnp
        exact hp n ((List.mem_append.1 hn).resolve_left hns) hnp
    · rw [Array.getElem?_eq_none (Nat.le_of_not_lt hlt), Array.getElem?_eq_none (by rw [hsize]; exact Nat.le_of_not_lt hlt)]

end Restore

/-! ## The phases of a group -/

/-- what has to be shown of the phases of a group of `g` threads, which `c` gives their contexts: from memory for which `J`
holds and variables of the threads for which `P` holds they lead to memory for which `J'` holds. The group begins with the
memory `m₀` and stores to no arrays but `W`. -/
inductive PhasesRun (f : Form) (c : ℕ → Context) (g : ℕ) (launched : Array String) (W : List Name) (m₀ : Memory)
    (J' : Memory → Prop) : (ℕ → Bindings Value → Prop) → (Memory → Prop) → List (List Stmt) → Prop where
  | done {P : ℕ → Bindings Value → Prop} {J : Memory → Prop} (h : ∀ m, Memory.Keeps W m₀ m → J m → J' m) :
    PhasesRun f c g launched W m₀ J' P J []
  | phase {P Q : ℕ → Bindings Value → Prop} {J : Memory → Prop} {l : List Stmt} {rest : List (List Stmt)}
    (I : ℕ → Memory → Prop) (hI : ∀ m, Memory.Keeps W m₀ m → J m → I 0 m)
    (hstep : ∀ j w m, j < g → Memory.Keeps W m₀ m → P j w → I j m →
      Runs f noLaunch (c j) l ⟨w, m, launched⟩ fun t => Q j t.vars ∧ I (j + 1) t.memory)
    (h : PhasesRun f c g launched W m₀ J' Q (I g) rest) : PhasesRun f c g launched W m₀ J' P J (l :: rest)

/-- **The phases.** They run one after the other. -/
theorem PhasesRun.runs {place : Triple → Context} {g : ℕ} {launched : Array String} {W N : List Name} {m₀ : Memory}
    {J J' : Memory → Prop} {P : ℕ → Bindings Value → Prop} {ls : List (List Stmt)}
    (h : PhasesRun f (fun j => place ⟨(j : ℕ), 0, 0⟩) g launched W m₀ J' P J ls)
    (hplace : ∀ j : ℕ, (place ⟨j, 0, 0⟩).thread.isSome = true) (hN : ∀ l ∈ ls, blockUses (.reads .scalar) l ⊆ N)
    (hW : ∀ l ∈ ls, blockStores l ⊆ W) {threads : List Thread} (hlen : threads.length = g)
    (hthreads : ∀ (i : ℕ) th, threads[i]? = some th → th.id = ⟨i, 0, 0⟩ ∧ ∃ w, P i w ∧ ∀ n ∈ N, w.get? n = th.vars.get? n)
    (hl : s.launched = launched) (hk : Memory.Keeps W m₀ s.memory) (hs : J s.memory) :
    ∃ t, runPhases place threads (ls.map f.block) s = .ok () t ∧ t.launched = launched ∧ Memory.Keeps W m₀ t.memory ∧
      J' t.memory := by
  induction h generalizing s threads with
  | done h => exact ⟨s, rfl, hl, hk, h _ hk hs⟩
  | @phase P P' J l rest I hI hstep h ih =>
    obtain ⟨threads', t, ht, htl, ⟨htI, htk⟩, hlen', hthreads'⟩ := phase_runs (f := f) place (l := l) (N := N)
      (fun j m => I j m ∧ Memory.Keeps W m₀ m) P P' (hN l (List.mem_cons_self ..)) hplace threads 0
      (fun i th hth => by simpa using hthreads i th hth)
      (fun j w m _ hj hP hm => by
        refine ((hstep j w m (by omega) hm.2 hP hm.1).keeps (hplace j)).mono fun u hu => ⟨hu.1.1, hu.1.2, ?_⟩
        exact hm.2.trans (hu.2.memory.mono (hW l (List.mem_cons_self ..)))) hl ⟨hI _ hk hs, hk⟩
    rw [Nat.zero_add, hlen] at htI
    obtain ⟨u, hu, hul, huk, hJ'⟩ := ih (fun l' hl' => hN l' (List.mem_cons_of_mem l hl'))
      (fun l' hl' => hW l' (List.mem_cons_of_mem l hl')) (hlen'.trans hlen)
      (fun i th hth => by simpa using hthreads' i th hth) htl htk htI
    exact ⟨u, bind_eq_ok.2 ⟨threads', t, ht, hu⟩, hul, huk, hJ'⟩

/-! ## Launches -/

/-- **A kernel with barriers and local memory.** Its groups run one after the other and keep an invariant that is indexed by
the number of the group. What the phases of a group do is to be shown for all variables of the host. -/
theorem Runs.launchGroups {V A : Name → Prop} {name : Name} {first : List Stmt} {rest : List (BarrierScope × List Stmt)}
    {blocks : List LocalBlock} {sized : List SizedBlock} {o : Origin} {groups groupSize : Expr} {n g : ℕ} {W : List Name}
    {Q : State → Prop} (I : ℕ → Memory → Prop) (hc : c.thread = none) (hn : Computes f c s groups n)
    (hg : Computes f c s groupSize g) (hmax : (g : Int) ≤ c.limits.maxGroupSize)
    (hover : blockOver (fun x => x ∈ blocks.map (·.name) ∨ V x) (fun x => x ∈ blocks.map (·.name) ∨ A x) (joined first rest))
    (hV : ∀ x, V x → (s.vars.get? x).isSome = true ∧ ¬ A x) (hA : ∀ x, A x → s.memory.contains x = true)
    (hsized : List.Forall₂ (SizedBlock.Of c s) blocks sized) (hnd : (blocks.map (·.name)).Nodup)
    (hroom : ∀ b ∈ sized, b.count < unallocatable)
    (hstores : blockStores (joined first rest) ⊆ blocks.map (·.name) ++ W)
    (hgroup : ∀ i m, i < n → I i m → Memory.Keeps W s.memory m →
      PhasesRun f (c.inGrid n g i) g (s.launched.push name.text) (blocks.map (·.name) ++ W) (withBlocks m sized)
        (fun m₂ => I (i + 1) (restore m₂ m.buffers.size m.names))
        (fun _ w => ∀ x, x ∉ blocks.map (·.name) → x ∉ blockBinders (joined first rest) → w.get? x = s.vars.get? x)
        (· = withBlocks m sized) (first :: rest.map (·.2)))
    (hs : I 0 s.memory)
    (hq : ∀ t, t.vars = s.vars → t.launched = s.launched.push name.text → Memory.Keeps W s.memory t.memory → I n t.memory →
      Q t) :
    Runs f (Machine.launch c) c
      [(Kernel.make name (withBarriers first rest) blocks [groups] [groupSize] o).toStmt .unknown] s Q := by
  let k := (Kernel.make name (withBarriers first rest) blocks [groups] [groupSize] o).toLaunchSpec
  have hfields : (f.spec k).captures = freeVariables (withBarriers first rest) blocks ∧ (f.spec k).groups = [f.expr groups] ∧
      (f.spec k).groupSize = [f.expr groupSize] ∧ (f.spec k).blocks = blocks ∧ (f.spec k).name = name := by
    cases f <;> exact ⟨rfl, rfl, rfl, rfl, rfl⟩
  obtain ⟨hcaps, hgroups, hsize, hblocks, hname⟩ := hfields
  rw [freeVariables_withBarriers] at hcaps
  have hnames := names_of_sized hsized
  obtain ⟨captured, w, hcap, hhost, hagree⟩ := captures_run (s := s) hcaps hover hV hA
  have hprep := prepare_run (shape_run hgroups hsize hn hg hmax) (topLevelPhases_withBarriers f hover) hcap
    (evalBlocks_run hblocks hsized)
  have hthreads (j : ℕ) (th : Thread)
      (hth : ((List.range g).map fun j : ℕ => (⟨⟨j, 0, 0⟩, captured⟩ : Thread))[j]? = some th) :
      th.id = ⟨j, 0, 0⟩ ∧ ∃ w : Bindings Value,
        (∀ x, x ∉ blocks.map (·.name) → x ∉ blockBinders (joined first rest) → w.get? x = s.vars.get? x) ∧
        ∀ x ∈ blockUses (.reads .scalar) (joined first rest), w.get? x = th.vars.get? x := by
    rw [List.getElem?_map, Option.map_eq_some_iff] at hth
    obtain ⟨j', hj', rfl⟩ := hth
    obtain ⟨-, rfl⟩ := List.getElem?_eq_some_iff.1 hj'
    exact ⟨by simp, w, hhost, hagree⟩
  have hgroup' (i : ℕ) (m : Memory) (_ : 0 ≤ i) (hi : i < 0 + n) (hm : I i m ∧ Memory.Keeps W s.memory m)
      (hmn : m.names = s.memory.names) (hms : m.buffers.size = s.memory.buffers.size) :
      ∃ t, runGroup c ⟨⟨⟨n, 1, 1⟩, ⟨g, 1, 1⟩⟩, (first :: rest.map (·.2)).map f.block, captured, sized⟩ (f.spec k).origin
          ⟨i, 0, 0⟩ ⟨s.vars, m, s.launched.push name.text⟩ = .ok () t ∧ t.launched = s.launched.push name.text ∧
        s.memory.buffers.size ≤ t.memory.buffers.size ∧
        I (i + 1) (restore t.memory s.memory.buffers.size s.memory.names) ∧
        Memory.Keeps W s.memory (restore t.memory s.memory.buffers.size s.memory.names) := by
    have hext : Memory.Extends (sized.map (·.name)) m (withBlocks m sized) := extends_withBlocks m (by rw [hnames]; exact hnd)
    rw [hnames] at hext
    let place (id : Triple) : Context := { c with thread := some ⟨id, ⟨i, 0, 0⟩, ⟨g, 1, 1⟩, ⟨n, 1, 1⟩⟩ }
    have hphases : PhasesRun f (fun j => place ⟨j, 0, 0⟩) g (s.launched.push name.text) (blocks.map (·.name) ++ W)
        (withBlocks m sized) _ _ _ _ := hgroup i m (by omega) hm.1 hm.2
    obtain ⟨t, ht, htl, htk, htI⟩ := hphases.runs (s := ⟨s.vars, withBlocks m sized, s.launched.push name.text⟩)
      (fun _ => rfl) (fun l hl => uses_piece _ hl) (fun l hl => List.Subset.trans (uses_piece _ hl) hstores) (by simp) hthreads
      rfl (.refl _ _) rfl
    have hr := restore_keeps hext htk
    rw [hmn, hms] at htI hr
    refine ⟨t, ?_, htl, ?_, htI, hm.2.trans hr⟩
    · unfold runGroup
      refine bind_eq_ok.2 ⟨(), _, allocateBlocks_run hroom, ?_⟩
      rw [Triple.indices_line, List.map_map]
      exact ht
    · rw [htk.size, ← hms]
      exact hext.size
  obtain ⟨m', hm', ⟨hI', hk'⟩, -, -⟩ := groups_run (fun i m => I i m ∧ Memory.Keeps W s.memory m) n 0 hgroup'
    ⟨hs, .refl _ _⟩ rfl rfl
  refine ⟨_, ?_, hq ⟨s.vars, m', s.launched.push name.text⟩ rfl rfl hk' (by simpa using hI')⟩
  have hstmt : f.block [(Kernel.make name (withBarriers first rest) blocks [groups] [groupSize] o).toStmt .unknown] =
      [.launch (f.spec k) (f.block (withBarriers first rest)) .unknown] := f.block_launch _ _ _
  rw [hstmt, execAll_singleton, exec, if_neg (by simp [hc])]
  have hrun := launch_run hprep rfl (m := m') (by rw [hname]; exact hm')
  rwa [hname] at hrun

/-- **A kernel without barriers.** Its threads run one after the other and keep an invariant that is indexed by the number
of the thread. What one thread does is to be shown for all variables of the host. -/
theorem Runs.launch {V A : Name → Prop} {name : Name} {body : List Stmt} {o : Origin} {groups groupSize : Expr}
    {n g : ℕ} {Q : State → Prop} (I : ℕ → Memory → Prop) (hc : c.thread = none) (hn : Computes f c s groups n)
    (hg : Computes f c s groupSize g) (hmax : (g : Int) ≤ c.limits.maxGroupSize) (hover : blockOver V A body)
    (hV : ∀ x, V x → (s.vars.get? x).isSome = true ∧ ¬ A x) (hA : ∀ x, A x → s.memory.contains x = true)
    (hstep : ∀ i j w m, i < n → j < g → I (i * g + j) m → Memory.Keeps (blockStores body) s.memory m →
      (∀ x ∉ blockBinders body, w.get? x = s.vars.get? x) →
      Runs f noLaunch (c.inGrid n g i j) body ⟨w, m, s.launched.push name.text⟩ fun t => I (i * g + j + 1) t.memory)
    (hs : I 0 s.memory)
    (hq : ∀ t, t.vars = s.vars → t.launched = s.launched.push name.text →
      Memory.Keeps (blockStores body) s.memory t.memory → I (n * g) t.memory → Q t) :
    Runs f (Machine.launch c) c [(Kernel.make name body [] [groups] [groupSize] o).toStmt .unknown] s Q := by
  have hjoined : joined body [] = body := by simp [joined]
  change Runs f (Machine.launch c) c [(Kernel.make name (withBarriers body []) [] [groups] [groupSize] o).toStmt .unknown] s Q
  refine .launchGroups (W := blockStores body) (fun i => I (i * g)) hc hn hg hmax (by simpa [hjoined] using hover) hV hA .nil
    List.nodup_nil (by simp) (by simp [hjoined]) (fun i m hi hI hk => ?_) (by simpa using hs) hq
  refine .phase (fun j m => I (i * g + j) m) (fun m' _ h => h ▸ hI) (fun j w m' hj hk' hw hI' => ?_)
    (.done (P := fun _ _ => True) fun m' hk' hI' => ?_)
  · exact (hstep i j w m' hi hj hI' (hk.trans hk') fun x hx => hw x (by simp) (by rwa [hjoined])).mono fun t ht => ⟨trivial, ht⟩
  · have hsize : m'.buffers.size = m.buffers.size := hk'.size
    have hnames : m'.names = m.names := hk'.names
    rw [← hsize, ← hnames, restore_self, add_mul, one_mul]
    exact hI'

end Machine

end GpuHistogram
