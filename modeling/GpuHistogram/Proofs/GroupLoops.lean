/-
Loops of the threads of a group. In a loop of its own the indices below a size are dealt to the threads in turn
(`groupLoop_obeys`), so that what is left of an invariant on the indices that are done is one on their remainders:
`groupLoop_runs` says what one thread adds. Over the elements of a segment, which the groups of the segment share, the
threads have blocks (`sweep_obeys`).

Code for several operators has a piece for each, which works on the arrays of its own operator only (`pieces_runs`).
-/
import GpuHistogram.Histogram.InLocalMemory
import GpuHistogram.Proofs.WorkLoops

namespace GpuHistogram

open Machine

variable {f : Form} {L : LaunchSpec → List Stmt → Exec Unit} {c : Context} {s : State} {Q : State → Prop}

/-! ## One loop -/

section Loop

variable {ns : ChunkNames} {thread : Name} {size : Expr} {body : List Stmt} {Z N T t g l : ℕ}

theorem sets_groupLoop {m : Name} : m ∈ blockSets [groupLoop ns thread size body] ↔ m ∈ ns.c :: ns.j :: blockSets body := by
  simp [groupLoop, blockSets, Stmt.count, Stmt.countBy, Stmt.bind, Stmt.ifThen, Stmt.uses, Use.among]

theorem stores_groupLoop (ns : ChunkNames) (thread : Name) (size : Expr) (body : List Stmt) :
    blockStores [groupLoop ns thread size body] = blockStores body := by
  simp [groupLoop, blockStores, Stmt.count, Stmt.countBy, Stmt.bind, Stmt.ifThen, Stmt.uses, Use.among]

theorem groupLoop_over {V A : Name → Prop} (hthread : V thread) (hsize : size.Over V A)
    (hbody : blockOver (fun m => m = ns.j ∨ m = ns.c ∨ V m) A body) : (groupLoop ns thread size body).Over V A := by
  have hplace {V : Name → Prop} : Expr.localSize.Over V A := trivial
  have hweak {V' : Name → Prop} (hV : ∀ m, V m → V' m) : size.Over V' A := hsize.mono hV fun _ h => h
  refine over_count over_numeral (over_div.2 ⟨⟨over_add.2 ⟨hsize, hplace⟩, trivial⟩, hplace⟩) ?_
  simp only [blockOver_cons, over_bind, binders_bind, over_ifThen, over_add, over_mul, over_ofName, over_lt,
    List.mem_singleton]
  exact ⟨⟨⟨.inl trivial, hplace⟩, .inr hthread⟩, ⟨⟨.inl trivial, hweak fun _ h => .inr (.inr h)⟩, hbody⟩, blockOver_nil⟩

/-- the thread `t` of `T` before a loop of its group over `N` numbers -/
structure GroupStart (f : Form) (c : Context) (ns : ChunkNames) (thread : Name) (size : Expr) (body : List Stmt)
    (N T t : ℕ) (s : State) : Prop where
  device : c.thread.isSome = true
  rounds : (Schedule.turns N T).rounds ≤ c.rounds
  number : s.vars.get? thread = some (.word t)
  groupSize : Throughout f c [groupLoop ns thread size body] s .localSize T
  size : Throughout f c [groupLoop ns thread size body] s size N
  kept : thread ≠ ns.c ∧ thread ≠ ns.j ∧ thread ∉ blockSets body
  counter : ns.c ≠ ns.j ∧ ns.c ∉ blockSets body

/-- **Turns.** In a loop of its group a thread has the numbers that leave its own number as the remainder. -/
theorem groupLoop_obeys (ht : t < T) (hfit : N + T < 2 ^ 63)
    (h : GroupStart f c ns thread size body N T t s) :
    Obeys (.turns N T) N t f L c [groupLoop ns thread size body] ns.j body (fun _ => True) s :=
  turnLoop_obeys ht hfit.le h.device h.rounds (.ofName h.number (fits_of_lt ht (by omega)) h.kept) h.groupSize h.size
    h.counter.1 h.counter.2

/-- **A loop of one thread.** The thread `l` of a group of `g` does what belongs to the indices that leave the remainder
`l`; `F` is the invariant on the indices that are done. -/
theorem groupLoop_runs (F : (ℕ → Bool) → Memory → Prop) (hc : c.thread.isSome = true)
    (hlocal : ∀ t, Computes f c t .localSize g) (hl : l < g) (hfit : Word64.fits (Z + g : ℕ) = true)
    (hlim : (Z + g - 1) / g ≤ c.rounds) (hthread : s.vars.get? thread = some (.word l)) (hcj : ns.c ≠ ns.j)
    (hcb : ns.c ∉ blockSets body) (hfree : thread ∉ ns.c :: ns.j :: blockSets body)
    (hsize : ∀ t, Keeps (ns.c :: ns.j :: blockSets body) (blockStores body) s t → Computes f c t size Z)
    (hcongr : ∀ D D' m, (∀ x < Z, D x = D' x) → F D m → F D' m)
    (hbody : ∀ j D t, j < Z → D j = false → Keeps (ns.c :: ns.j :: blockSets body) (blockStores body) s t →
      t.vars.get? ns.j = some (.word j) → F D t.memory → Runs f L c body t fun u => F (fun x => D x || x == j) u.memory)
    (hs : F (fun x => x % g < l) s.memory)
    (hq : ∀ t, F (fun x => x % g < l + 1) t.memory → Keeps (ns.c :: ns.j :: blockSets body) (blockStores body) s t → Q t) :
    Runs f L c [groupLoop ns thread size body] s Q := by
  have hg : 0 < g := by omega
  have hsum : Z + g < 2 ^ 63 := by
    rw [Word64.fits_iff] at hfit
    omega
  have hkeeps {t : State} (ht : Keeps (blockSets [groupLoop ns thread size body]) (blockStores [groupLoop ns thread size body])
      s t) : Keeps (ns.c :: ns.j :: blockSets body) (blockStores body) s t :=
    ht.mono (fun m hm => sets_groupLoop.1 hm) (stores_groupLoop ns thread size body ▸ List.Subset.refl _)
  simp only [List.mem_cons, not_or] at hfree
  have hstart : GroupStart f c ns thread size body Z g l s :=
    { device := hc
      rounds := hlim
      number := hthread
      groupSize := fun u _ => hlocal u
      size := fun u hu => hsize u (hkeeps hu)
      kept := hfree
      counter := ⟨hcj, hcb⟩ }
  have hmod (r : ℕ) : (r * g + l) % g = l := by rw [Nat.mul_comm, Nat.mul_add_mod, Nat.mod_eq_of_lt hl]
  have hdiv (r : ℕ) : (r * g + l) / g = r := by rw [Nat.mul_comm, Nat.mul_add_div hg, Nat.div_eq_of_lt hl, Nat.add_zero]
  -- the index of a round comes in with it
  have hnext (r x : ℕ) : x = r * g + l ↔ x % g = l ∧ x / g = r :=
    ⟨fun h => h ▸ ⟨hmod r, hdiv r⟩, fun h => by rw [← h.1, ← h.2, Nat.div_add_mod']⟩
  have hsucc (r x : ℕ) : (x % g < l || (x % g == l && decide (x / g < r + 1))) =
      ((x % g < l || (x % g == l && decide (x / g < r))) || x == r * g + l) := by
    rw [Bool.eq_iff_iff]
    simp only [Bool.or_eq_true, Bool.and_eq_true, decide_eq_true_eq, beq_iff_eq, hnext]
    omega
  have hrun := groupLoop_obeys (L := L) hl hsum hstart (fun r m => F (fun x => x % g < l || (x % g == l && x / g < r)) m)
    (hcongr _ _ _ (fun x _ => by simp) hs) (fun r _ hlt t _ ht hj hI => ?_) fun r _ hge m hI => hcongr _ _ _ (fun x hx => ?_) hI
  · refine (hrun.keeps hc).mono fun t ⟨hI, ht⟩ => hq t (hcongr _ _ _ (fun x hx => ?_) hI) (hkeeps ht)
    have hlt : x / g < (Z + g - 1) / g := by
      rw [Nat.div_lt_iff_lt_mul hg]
      exact hx.trans_le (le_ceilDiv_mul Z hg)
    rw [Bool.eq_iff_iff]
    simp only [Schedule.turns, Bool.or_eq_true, Bool.and_eq_true, decide_eq_true_eq, beq_iff_eq, hlt, and_true]
    omega
  · refine (hbody _ _ _ hlt ?_ (hkeeps ht) hj hI).mono fun u hu => hcongr _ _ _ (fun x _ => (hsucc r x).symm) hu
    simp [Schedule.turns, hmod, hdiv]
  · have hge' : Z ≤ r * g + l := hge
    rw [hsucc r x, Bool.eq_iff_iff]
    simp only [Bool.or_eq_true, beq_iff_eq]
    exact ⟨.inl, fun h => h.resolve_right (by omega)⟩

end Loop

/-! ## The loop over the elements of a segment -/

/-- the thread `l` of the group `i`, of `G` groups of `g` threads, before its loop over the `N` elements of a segment -/
structure SweepStart (f : Form) (c : Context) (p : Plan) (ns : LocalNames) (shape : LocalShape) (sw : SweepNames)
    (element : List Stmt) (N G g i l : ℕ) (s : State) : Prop where
  device : c.thread.isSome = true
  rounds : (Schedule.blocks N (G * g)).rounds ≤ c.rounds
  group : s.vars.get? ns.group = some (.word i)
  thread : s.vars.get? ns.thread = some (.word l)
  groups : Throughout f c (p.sweep ns shape sw element) s shape.groupsPerSegment G
  groupSize : Throughout f c (p.sweep ns shape sw element) s .localSize g
  size : Throughout f c (p.sweep ns shape sw element) s p.elements N
  names : [sw.thread, sw.chunk, sw.k, sw.e].Nodup
  kept : ∀ m ∈ [sw.thread, sw.chunk, sw.k], m ∉ blockSets element

section Sweep

variable {p : Plan} {ns : LocalNames} {shape : LocalShape} {sw : SweepNames} {element : List Stmt} {N G g i l : ℕ}

theorem sets_sweep {m : Name} :
    m ∈ blockSets (p.sweep ns shape sw element) ↔
      m = sw.thread ∨ m = sw.chunk ∨ m = sw.k ∨ m = sw.e ∨ m ∈ blockSets element := by
  simp [Plan.sweep, blockSets, Stmt.count, Stmt.countBy, Stmt.bind, Stmt.ifThen, Stmt.uses, Use.among]

theorem stores_sweep (p : Plan) (ns : LocalNames) (shape : LocalShape) (sw : SweepNames) (element : List Stmt) :
    blockStores (p.sweep ns shape sw element) = blockStores element := by
  simp [Plan.sweep, blockStores, Stmt.count, Stmt.countBy, Stmt.bind, Stmt.ifThen, Stmt.uses, Use.among]

/-- **Blocks of a segment.** The threads of the groups of a segment have blocks of its elements. -/
theorem sweep_obeys (ht : i * g + l < G * g)
    (hfit : N + G * g < 2 ^ 63) (h : SweepStart f c p ns shape sw element N G g i l s) :
    Obeys (.blocks N (G * g)) N (i * g + l) f L c (p.sweep ns shape sw element) sw.e element (fun _ => True) s := by
  have hT : 0 < G * g := Nat.zero_lt_of_lt ht
  have hg : 0 < g := Nat.pos_of_mul_pos_left hT
  have hnumber : Word64.fits (i * g + l : ℕ) = true := fits_of_lt ht (by omega)
  have hstart : Word64.fits (i * g : ℕ) = true := Word64.fits_le hnumber (Nat.le_add_right _ _)
  have hthreads : Word64.fits (G * g : ℕ) = true := fits_of_lt (Nat.lt_succ_self _) (by omega)
  have hrounds : Word64.fits ((N + G * g - 1) / (G * g) : ℕ) = true := fits_of_lt (Schedule.rounds_lt N hT) hfit.le
  have hnames := h.names
  simp only [List.nodup_cons, List.mem_cons, List.not_mem_nil, or_false, not_or, List.nodup_nil, not_false_eq_true,
    and_true] at hnames
  obtain ⟨⟨hthreadChunk, hthreadK, hthreadE⟩, ⟨hchunkK, hchunkE⟩, hkE⟩ := hnames
  have hset : Keeps (blockSets (p.sweep ns shape sw element)) (blockStores (p.sweep ns shape sw element)) s
      (s.set sw.thread (.word (i * g + l : ℕ))) := .set (sets_sweep.2 (.inl rfl)) _
  have hkeeps := hset.trans (.set (sets_sweep.2 (.inr (.inl rfl))) (.word ((N + G * g - 1) / (G * g) : ℕ)))
  refine Obeys.append (l := [.bind sw.thread _, .bind sw.chunk _]) ?_
  have hgroup : Computes f c s (.ofName ns.group) i := .ofName h.group (Word64.fits_le hstart (Nat.le_mul_of_pos_right i hg))
  have hthread : Computes f c s (.ofName ns.thread) l := .ofName h.thread (Word64.fits_le hnumber (Nat.le_add_left _ _))
  refine Runs.bindWord ((hgroup.mulNat (h.groupSize s (.refl _ _ _)) hstart).addNat hthread hnumber) ?_
  refine Runs.bindWord ((h.size _ hset).ceilDiv ((h.groups _ hset).mulNat (h.groupSize _ hset) hthreads) hT
    (fits_of_lt (Nat.lt_succ_self _) hfit)) ?_
  refine Runs.nil ⟨rfl, hkeeps, ?_⟩
  refine blockLoop_obeys ht hfit.le h.device h.rounds (.ofName ?_ hnumber ⟨hthreadK, hthreadE, h.kept _ (by simp)⟩)
    (.ofName ?_ hrounds ⟨hchunkK, hchunkE, h.kept _ (by simp)⟩) ?_ hkE (h.kept _ (by simp))
  · rw [State.get?_set, if_neg (Ne.symm hthreadChunk), State.get?_set, if_pos rfl]
  · exact (State.get?_set ..).trans (if_pos rfl)
  · exact Throughout.later (l := [.bind sw.thread _, .bind sw.chunk _]) h.size hkeeps

end Sweep

/-! ## A piece for each operator -/

theorem exists_of_mem_right {α β : Type} {R : α → β → Prop} {l : List α} {l' : List β} (h : List.Forall₂ R l l') {b : β}
    (hb : b ∈ l') : ∃ a ∈ l, R a b := by
  induction h with
  | nil => cases hb
  | @cons a b' l l' hab h ih =>
    rcases List.mem_cons.1 hb with rfl | hb
    · exact ⟨a, List.mem_cons_self .., hab⟩
    · obtain ⟨a', ha', hr⟩ := ih hb
      exact ⟨a', List.mem_cons_of_mem a ha', hr⟩

/-- what the piece of each member does to its own arrays `arr` follows for all of them, as long as the pieces keep `E` -/
theorem pieces_runs {α : Type} {R : α → Stmt → Prop} {parts : List α} {l : List Stmt} (h : List.Forall₂ R parts l)
    (hc : c.thread.isSome = true) (arr : α → List Name) (E : State → Prop) (I I' : α → Memory → Prop)
    (hE : ∀ q ∈ parts, ∀ x t u, R q x → E t → Keeps (x.uses .sets) (x.uses .stores) t u → E u)
    (hI : ∀ q ∈ parts, ∀ m m' W, Memory.Keeps W m m' → (∀ n ∈ arr q, m.Apart W n) → I q m → I q m')
    (hI' : ∀ q ∈ parts, ∀ m m' W, Memory.Keeps W m m' → (∀ n ∈ arr q, m.Apart W n) → I' q m → I' q m')
    (hap : parts.Pairwise fun q q' => ∀ n ∈ arr q', s.memory.Apart (arr q) n)
    (hstores : ∀ q ∈ parts, ∀ x, R q x → x.uses .stores ⊆ arr q)
    (hstep : ∀ q ∈ parts, ∀ x t, R q x → E t → I q t.memory → Runs f L c [x] t fun u => I' q u.memory)
    (hs : E s) (hIs : ∀ q ∈ parts, I q s.memory) (hq : ∀ t, E t → (∀ q ∈ parts, I' q t.memory) → Q t) :
    Runs f L c l s Q := by
  induction h generalizing s Q with
  | nil => exact Runs.nil (hq s hs fun q hq' => absurd hq' List.not_mem_nil)
  | @cons q x parts l hx h ih =>
    have hqin : q ∈ q :: parts := List.mem_cons_self ..
    have hin {q' : α} (h : q' ∈ parts) : q' ∈ q :: parts := List.mem_cons_of_mem q h
    rw [List.pairwise_cons] at hap
    refine Runs.cons (((hstep q hqin x s hx hs (hIs q hqin)).keeps hc).mono ?_)
    rintro t ⟨hI't, ht⟩
    simp only [blockSets, blockStores, blockUses_cons, blockUses_nil, List.append_nil] at ht
    have hmem : Memory.Keeps (arr q) s.memory t.memory := ht.memory.mono (hstores q hqin x hx)
    have hrest : Runs f L c l t fun u => E u ∧ ∀ q' ∈ parts, I' q' u.memory :=
      ih (fun q' h => hE q' (hin h)) (fun q' h => hI q' (hin h)) (fun q' h => hI' q' (hin h))
        (hap.2.imp fun h n hn => (h n hn).keeps ht.memory) (fun q' h => hstores q' (hin h)) (fun q' h => hstep q' (hin h))
        (hE q hqin x s t hx hs ht) (fun q' h => hI q' (hin h) _ _ _ hmem (hap.1 q' h) (hIs q' (hin h)))
        fun u hu hI'u => ⟨hu, hI'u⟩
    refine (hrest.keeps hc).mono fun u ⟨⟨hEu, hI'u⟩, hu⟩ => hq u hEu fun q' hq' => ?_
    rcases List.mem_cons.1 hq' with rfl | hq'
    · refine hI' q' hqin _ _ _ hu.memory (fun n hn w hw p hp hp' => ?_) hI't
      obtain ⟨y, hy, hw⟩ := mem_blockUses.1 hw
      obtain ⟨q'', hq'', hR⟩ := exists_of_mem_right h hy
      rw [hmem.names] at hp hp'
      exact hap.1 q'' hq'' w (hstores q'' (hin hq'') y hR hw) n hn p hp' hp
    · exact hI'u q' hq'

end GpuHistogram
