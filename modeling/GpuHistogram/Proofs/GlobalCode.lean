/-
The host code that accumulates in global memory. It chooses how many copies each operator has and how many threads share
one, makes the copies and the locks, launches the kernel and merges the copies: `globalCode_works`, from what is known of
each step (`allocated_works`, `globalKernel_runs`, `finished_works`).
-/
import GpuHistogram.Proofs.GlobalKernel
import GpuHistogram.Proofs.Strategy

namespace GpuHistogram

open Machine

variable {f : Form} {L : LaunchSpec → List Stmt → Exec Unit} {c : Context} {s t : State} {k k₀ k' g n : ℕ}
  {X A R : List Name}

/-! ## Numbers of copies -/

namespace Machine

variable {T : ℕ} {B : ℤ}

/-- the number of copies of an operator with `B` buckets, for `T` threads -/
def copiesFor (T : ℕ) (B : ℤ) : ℕ := (T + (max 1 B).toNat - 1) / (max 1 B).toNat

/-- the number of threads that share a copy -/
def sharesFor (T : ℕ) (B : ℤ) : ℕ := (T + copiesFor T B - 1) / copiesFor T B

theorem copiesFor_pos (hT : 0 < T) : 0 < copiesFor T B := ceilDiv_pos hT (by omega)

theorem sharesFor_pos (hT : 0 < T) : 0 < sharesFor T B := ceilDiv_pos hT (copiesFor_pos hT)

/-- every thread has a copy -/
theorem copy_lt (B : ℤ) {t : ℕ} (ht : t < T) : t / sharesFor T B < copiesFor T B := by
  have hT : 0 < T := Nat.zero_lt_of_lt ht
  exact Nat.div_lt_of_lt_mul (ht.trans_le (le_ceilDiv_mul T (copiesFor_pos hT)))

end Machine

namespace Histogram.Meaning

variable {M : Meaning} {op : Operator} {threads : ℕ}

/-- the number of copies per segment that an operator has in global memory -/
def copies (M : Meaning) (threads : ℕ) (op : Operator) : ℕ :=
  (threads + max 1 (M.width op * M.segments) - 1) / max 1 (M.width op * M.segments)

/-- the number of threads that share a copy -/
def sharing (M : Meaning) (threads : ℕ) (op : Operator) : ℕ :=
  (threads + M.copies threads op - 1) / M.copies threads op

theorem copies_eq : M.copies threads op = copiesFor threads (M.width op * M.segments : ℕ) := by
  have hmax : (max 1 ((M.width op * M.segments : ℕ) : ℤ)).toNat = max 1 (M.width op * M.segments) := by omega
  rw [copies, copiesFor, hmax]

theorem sharing_eq : M.sharing threads op = sharesFor threads (M.width op * M.segments : ℕ) := by
  rw [sharing, sharesFor, copies_eq]

theorem copies_pos (hthreads : 0 < threads) : 0 < M.copies threads op := by
  rw [copies_eq]
  exact copiesFor_pos hthreads

theorem sharing_pos (hthreads : 0 < threads) : 0 < M.sharing threads op := by
  rw [sharing_eq]
  exact sharesFor_pos hthreads

theorem div_sharing_lt {th : ℕ} (hth : th < threads) : th / M.sharing threads op < M.copies threads op := by
  rw [sharing_eq, copies_eq]
  exact copy_lt _ hth

end Histogram.Meaning

/-- the sizes of a launch of `n` groups of `g` threads are words, and its loops end within the rounds -/
structure Histogram.FitsGlobal (h : Histogram) (M : Histogram.Meaning) (g n rounds : ℕ) : Prop where
  chunks : Word64.fits (M.total + g * n : ℕ) = true
  chunk : M.chunk (g * n) ≤ rounds
  buckets : ∀ op ∈ h.operators, Word64.fits (g * n + max 1 (M.width op * M.segments) : ℕ) = true
  shares : ∀ op ∈ h.operators, Word64.fits (g * n + M.copies (g * n) op : ℕ) = true
  copies : ∀ op ∈ h.operators, Word64.fits (M.segments * M.copies (g * n) op * M.size op : ℕ) = true
  made : ∀ op ∈ h.operators, M.copies (g * n) op ≠ 1 → M.segments ≤ rounds
  merged : ∀ op ∈ h.operators, M.copies (g * n) op ≠ 1 →
    Word64.fits (M.segments * M.size op + g : ℕ) = true ∧ M.copies (g * n) op ≤ rounds + 1

/-- the arrays of copies and of locks that such a launch needs can be allocated -/
structure Histogram.HasRoom (h : Histogram) (M : Histogram.Meaning) (g n locks : ℕ) : Prop where
  copies : ∀ op ∈ h.operators, M.copies (g * n) op ≠ 1 → M.segments * M.copies (g * n) op * M.size op < unallocatable
  locks : h.operators.any Operator.needsLock = true → locks < unallocatable

namespace Plan

variable {p : Plan} {h : Histogram} {M : Histogram.Meaning} {o : Options} {B : Histogram.Contents}

/-! ## Locks -/

/-- **Making the locks.** Nobody holds one. -/
theorem allocateLocks_runs {tb : LockTable} {locks : ℕ} (hc : c.thread = none) (hcount : Computes f c s tb.count locks)
    (hkeep : ∀ t : State, t.vars = s.vars → Computes f c t tb.count locks) (hlocks : locks < unallocatable) :
    Runs f L c (allocateLocks tb) s fun t => t.vars = s.vars ∧ Memory.Extends [tb.name] s.memory t.memory ∧
      t.memory.Column tb.name .i32 locks fun _ => .int 0 .i32 := by
  have hzero (t : State) : Evals f c t (.literal unlocked .i32) (.int 0 .i32) := by
    cases f <;> rfl
  obtain ⟨m, hm, hcol, hk⟩ := (Memory.Column.insert s.memory tb.name .i32 locks).fill (.int 0 .i32)
  exact Runs.alloc hc hcount hlocks (Runs.fill hc .zero (hkeep _ rfl) (hzero _) hm
    (Runs.nil ⟨rfl, .insert hk, hcol.congr fun _ _ => rfl⟩))

/-! ## The sizes of the strategy -/

/-- the numbers of copies -/
theorem counts_works (hst : p.Stage h M o R A X c k₀ k g n s) (hthreads : 0 < g * n) (hfit : h.FitsGlobal M g n c.rounds) :
    Works f L c (p.parts.mapM fun part => Emit.bindSize "num_subhistos" (p.copyCount part)) k s fun counts k' t =>
      (counts.length = p.parts.length ∧
        ∀ x ∈ p.parts.zip counts, Quantity k' X t x.2 (M.copies (g * n) x.1.op)) ∧
      t.memory = s.memory ∧ t.launched = s.launched := by
  refine Works.mapM (fun (q : Part) e k t => Quantity k X t e (M.copies (g * n) q.op)) p.parts
    (fun hP hk hf => hP.frame hk hf) fun q hq k' t hk hf _ _ => ?_
  refine Works.bindSize _ (fun x hx => (hst.below x hx).mono hk) fun f => ?_
  have hd := hst.plan.keep hk fun x hx _ => hf x hx
  have hop := (hst.plan.parts q hq).op_mem
  have hbuckets := hfit.buckets q.op hop
  have hwidth : Quantity k' X t (q.width * p.segments) (M.width q.op * M.segments) :=
    (hd.parts q hq).width.mul hd.segments (Word64.fits_le hbuckets (by omega))
  exact (hd.threads.ceilDiv (Quantity.one.max hwidth) (by omega) hbuckets).computes f c

/-- the numbers of threads that share a copy -/
theorem shares_works {counts : List Expr} (hst : p.Stage h M o R A X c k₀ k g n s) (hthreads : 0 < g * n)
    (hfit : h.FitsGlobal M g n c.rounds) (hlen : counts.length = p.parts.length)
    (hcounts : ∀ x ∈ p.parts.zip counts, Quantity k X s x.2 (M.copies (g * n) x.1.op)) :
    Works f L c (counts.mapM fun c => Emit.bindSize "threads_per_subhisto" (p.threads.ceilDiv c)) k s fun shares k' t =>
      (shares.length = p.parts.length ∧
        ∀ x ∈ p.parts.zip shares, Quantity k' X t x.2 (M.sharing (g * n) x.1.op)) ∧
      t.memory = s.memory ∧ t.launched = s.launched := by
  -- a share belongs to the number of copies that it is computed from
  refine (Works.mapM (fun (e e' : Expr) k' t => ∀ op ∈ h.operators, Quantity k X s e (M.copies (g * n) op) →
    Quantity k' X t e' (M.sharing (g * n) op)) counts (fun hP hk hf op hop he => (hP op hop he).frame hk hf)
    fun e he k' t hk hf _ _ => ?_).mono ?_
  · obtain ⟨i, hi⟩ := List.mem_iff_getElem?.1 he
    have hlt : i < p.parts.length := hlen ▸ (List.getElem?_eq_some_iff.1 hi).1
    have hz : (p.parts.zip counts)[i]? = some (p.parts[i], e) :=
      List.getElem?_zip_eq_some.2 ⟨List.getElem?_eq_getElem hlt, hi⟩
    have hd := hst.plan.keep hk fun x hx _ => hf x hx
    have hop := (hst.plan.parts _ (List.getElem_mem hlt)).op_mem
    have hshare {op : Operator} (hop : op ∈ h.operators) (he : Quantity k X s e (M.copies (g * n) op)) (f : Form) :
        Computes f c t (p.threads.ceilDiv e) (M.sharing (g * n) op : ℕ) :=
      (hd.threads.ceilDiv (he.frame hk hf) (Histogram.Meaning.copies_pos hthreads) (hfit.shares op hop)).computes f c
    refine (Works.bindSize (X := X) "threads_per_subhisto" (fun x hx => (hst.below x hx).mono hk)
      fun f => hshare hop (hcounts _ (List.mem_of_getElem? hz)) f).mono ?_
    rintro e' k'' u - - ⟨he', hm, hl⟩
    refine ⟨fun op' hop' hq => ?_, hm, hl⟩
    -- all operators with so many copies have as many threads for each
    have heq : M.copies (g * n) op' = M.copies (g * n) p.parts[i].op := by
      have h1 := (hq.computes .plain c).evals
      have h2 := ((hcounts _ (List.mem_of_getElem? hz)).computes .plain c).evals
      have h3 := h1.symm.trans h2
      injection h3 with h3
      injection h3 with h3
      exact_mod_cast h3
    rwa [Histogram.Meaning.sharing, heq]
  · rintro shares k' t - - ⟨⟨hlen', hshares⟩, hm, hl⟩
    refine ⟨⟨hlen'.trans hlen, fun x hx => ?_⟩, hm, hl⟩
    obtain ⟨i, hi⟩ := List.mem_iff_getElem?.1 hx
    obtain ⟨hpart, hshare⟩ := List.getElem?_zip_eq_some.1 hi
    have hlt : i < counts.length := hlen ▸ (List.getElem?_eq_some_iff.1 hpart).1
    have hcount := List.getElem?_eq_getElem hlt
    exact hshares (counts[i], x.2) (List.mem_of_getElem? (List.getElem?_zip_eq_some.2 ⟨hcount, hshare⟩)) x.1.op
      (hst.plan.parts _ (List.mem_of_getElem? hpart)).op_mem
      (hcounts (x.1, counts[i]) (List.mem_of_getElem? (List.getElem?_zip_eq_some.2 ⟨hpart, hcount⟩)))

/-! ## The whole code -/

/-- the parts of the kernel, given the methods and the expressions for the copies -/
def globalParts (methods : List UpdateMethod) (counts shares : List Expr) (copies : List Name) : List GlobalPart :=
  (methods.zip (counts.zip (shares.zip copies))).map fun x => ⟨x.1, x.2.1, x.2.2.1, x.2.2.2⟩

theorem mem_globalParts {methods : List UpdateMethod} {counts shares : List Expr} {copies : List Name}
    {q : Part × GlobalPart} (hq : q ∈ p.parts.zip (globalParts methods counts shares copies)) :
    (q.1, q.2.method) ∈ p.parts.zip methods ∧ (q.1, q.2.count) ∈ p.parts.zip counts ∧
      (q.1, q.2.threadsPerCopy) ∈ p.parts.zip shares := by
  obtain ⟨i, hi⟩ := List.mem_iff_getElem?.1 hq
  obtain ⟨hpart, hi⟩ := List.getElem?_zip_eq_some.1 hi
  rw [globalParts, List.getElem?_map, Option.map_eq_some_iff] at hi
  obtain ⟨x, hx, he⟩ := hi
  obtain ⟨hm, hx⟩ := List.getElem?_zip_eq_some.1 hx
  obtain ⟨hc, hx⟩ := List.getElem?_zip_eq_some.1 hx
  obtain ⟨hs, -⟩ := List.getElem?_zip_eq_some.1 hx
  rw [← he]
  exact ⟨List.mem_of_getElem? (List.getElem?_zip_eq_some.2 ⟨hpart, hm⟩),
    List.mem_of_getElem? (List.getElem?_zip_eq_some.2 ⟨hpart, hc⟩),
    List.mem_of_getElem? (List.getElem?_zip_eq_some.2 ⟨hpart, hs⟩)⟩

theorem zip_globalParts {methods : List UpdateMethod} {counts shares : List Expr} {copies : List Name}
    (hm : methods.length = p.parts.length) (hc : counts.length = p.parts.length) (hs : shares.length = p.parts.length)
    (hn : copies.length = p.parts.length) :
    (p.parts.zip (globalParts methods counts shares copies)).map (·.1) = p.parts ∧
      (p.parts.zip (globalParts methods counts shares copies)).map (·.2) = globalParts methods counts shares copies ∧
      (p.parts.zip (globalParts methods counts shares copies)).map (·.2.copy) = copies := by
  have hlen : (globalParts methods counts shares copies).length = p.parts.length := by
    simp [globalParts, hm, hc, hs, hn]
  have hcopies : (globalParts methods counts shares copies).map (·.copy) = copies := by
    have hsn : copies.length ≤ shares.length := by rw [hs, hn]
    have hcn : (shares.zip copies).length ≤ counts.length := by rw [List.length_zip, hc, hs, hn, Nat.min_self]
    have hmn : (counts.zip (shares.zip copies)).length ≤ methods.length := by
      rw [List.length_zip, List.length_zip, hm, hc, hs, hn, Nat.min_self, Nat.min_self]
    rw [globalParts, List.map_map]
    change (methods.zip _).map ((fun y : Name => y) ∘ Prod.snd ∘ Prod.snd ∘ Prod.snd) = copies
    rw [← List.map_map, ← List.map_map, ← List.map_map, List.map_snd_zip hmn, List.map_snd_zip hcn, List.map_snd_zip hsn,
      List.map_id']
  refine ⟨List.map_fst_zip hlen.ge, List.map_snd_zip hlen.le, ?_⟩
  change (p.parts.zip _).map ((fun y : GlobalPart => y.copy) ∘ Prod.snd) = copies
  rw [← List.map_map, List.map_snd_zip hlen.le, hcopies]

theorem globalNames_create (k : ℕ) : ∃ ns : GlobalNames, (GlobalNames.create : Gen GlobalNames) k = some (ns, k + 4) ∧
    ns.all = freshNames ["gtid", "k", "flat", "seg_flat"] k := ⟨_, rfl, rfl⟩

/-- make the locks, if there are any -/
def makeLocks : Option LockTable → Emit Unit
  | some tb => Emit.stmts (allocateLocks tb)
  | none => pure ()

/-- free the locks, if there are any -/
def freeLocks : Option LockTable → Emit Unit
  | some tb => Emit.stmt (.free tb.name .unknown)
  | none => pure ()

/-- the host code that launches the kernel -/
def launchGlobal (p : Plan) (ns : GlobalNames) (parts : List GlobalPart) (chunk : Expr) : Emit Unit := do
  let element ← p.element (.ofName ns.segment) (Expr.ofName ns.flat % p.elements) (p.parts.zip parts) (globalUpdate ns)
  let k ← (p.kernel "_global" "global memory histogram" (p.globalBody ns parts chunk element) [] p.groupCount : Gen Kernel)
  Emit.stmt (k.toStmt .unknown)

/-- the host code once the methods are chosen -/
def globalRest (p : Plan) (table : Option LockTable) (methods : List UpdateMethod) : Emit Unit := do
  let counts ← p.parts.mapM fun part => Emit.bindSize "num_subhistos" (p.copyCount part)
  let shares ← counts.mapM fun c => Emit.bindSize "threads_per_subhisto" (p.threads.ceilDiv c)
  allocate (p.parts.zip counts)
  makeLocks table
  let chunk ← Emit.bindSize "chunk" (p.totalElements.ceilDiv p.threads)
  let ns ← (GlobalNames.create : Gen GlobalNames)
  let copies ← counts.mapM fun _ => (fresh "subhisto_id" : Gen Name)
  p.launchGlobal ns (globalParts methods counts shares copies) chunk
  p.finish (p.parts.zip counts)
  freeLocks table

theorem globalCode_eq (p : Plan) : p.globalCode =
    ((chooseMethods p.operators (LockTable.create (.i64 p.lockCount) .device) : Gen _) : Emit _) >>= fun x =>
      p.globalRest x.1 x.2 := by
  unfold globalCode
  refine bind_congr fun x => ?_
  obtain ⟨table, methods⟩ := x
  cases table <;> simp only [globalRest, launchGlobal, makeLocks, freeLocks, bind_assoc] <;> rfl

/-- what holds of the table of locks: it has a new name, and so many locks -/
structure LocksStand (p : Plan) (h : Histogram) (A X : List Name) (table : Option LockTable) (k₀ k locks : ℕ) (s : State) :
    Prop where
  count : ∀ tb, table = some tb → Quantity k X s tb.count locks
  positive : 0 < locks
  small : table.isSome = true → locks < unallocatable
  young : ∀ x ∈ lockNames table, ¬ x.Before k₀
  fresh : ∀ x ∈ lockNames table, x ∉ p.arrays ++ h.mapNames ++ A

theorem LocksStand.keep {table : Option LockTable} {locks : ℕ} (ht : p.LocksStand h A X table k₀ k locks s) (hk : k ≤ k')
    (hf : Frame k s t) : p.LocksStand h A X table k₀ k' locks t :=
  ⟨fun tb htb => (ht.count tb htb).frame hk hf, ht.positive, ht.small, ht.young, ht.fresh⟩

theorem makeLocks_works {table : Option LockTable} {locks : ℕ} (hc : c.thread = none)
    (ht : p.LocksStand h A X table k₀ k locks s) : Works f L c (makeLocks table) k s fun _ _ t =>
      Memory.Extends (lockNames table) s.memory t.memory ∧ LocksFree table locks t.memory := by
  cases htable : table with
  | none => exact Works.pure ⟨.refl _, fun tb htb => nomatch htb⟩
  | some tb =>
    subst htable
    have hcount := ht.count tb rfl
    refine Works.stmts ((allocateLocks_runs hc (hcount.computes f c)
      (fun t hv => (hcount.keep (Nat.le_refl k) fun x _ => by rw [hv]).computes f c) (ht.small rfl)).mono ?_)
    rintro t ⟨hv, he, hcol⟩
    refine ⟨fun x _ => by rw [hv], he, fun tb' htb => ?_⟩
    obtain rfl := Option.some.inj htb
    exact hcol

/-- freeing the locks leaves all other arrays alone -/
theorem freeLocks_works {table : Option LockTable} (hc : c.thread = none)
    (hthere : ∀ x ∈ lockNames table, s.memory.contains x = true) : Works f L c (freeLocks table) k s fun _ _ t =>
      t.memory.buffers = s.memory.buffers ∧ ∀ x ∉ lockNames table, t.memory.names.get? x = s.memory.names.get? x := by
  cases htable : table with
  | none => exact Works.pure ⟨rfl, fun _ _ => rfl⟩
  | some tb =>
    subst htable
    refine Works.stmt (Runs.free hc (hthere _ (by simp [lockNames])) (Runs.nil ⟨fun _ _ => rfl, rfl, fun x hx => ?_⟩))
    rw [Bindings.get?_erase, if_neg fun he => hx (by simp [lockNames, he])]

/-! ## The kernel -/

section Kernel

variable {table : Option LockTable} {methods : List UpdateMethod} {counts shares : List Expr} {copies : List Name}
  {ns : GlobalNames} {parts : List (Part × GlobalPart)} {chunk : Expr} {locks j : ℕ} {mlen : ℕ → ℕ}
  {gm : ℕ → ℕ → Value} {prior : (q : Part) → ℕ → Tuple q.op.scalars}

/-- what the parts of the kernel stand for -/
theorem stands_globalParts (hst : p.Stage h M o R A X c k₀ k g n s) (hthreads : 0 < g * n)
    (hsuits : ∀ x ∈ p.parts.zip methods, x.2.Suits x.1.op table)
    (hcounts : ∀ x ∈ p.parts.zip counts, Quantity k X s x.2 (M.copies (g * n) x.1.op))
    (hshares : ∀ x ∈ p.parts.zip shares, Quantity k X s x.2 (M.sharing (g * n) x.1.op))
    (hfit : h.FitsGlobal M g n c.rounds)
    (hrows : ∀ op ∈ h.operators, Word64.fits (M.segments * M.copies (g * n) op : ℕ) = true) {q : Part × GlobalPart}
    (hq : q ∈ p.parts.zip (globalParts methods counts shares copies)) :
    GlobalPart.Stands h M table (fun q => M.copies (g * n) q.op) (fun q => M.sharing (g * n) q.op) (g * n) k X s q := by
  obtain ⟨hm, hc, hs⟩ := mem_globalParts hq
  have hin : q.1 ∈ p.parts := (List.of_mem_zip hm).1
  exact ⟨hst.plan.parts _ hin, hsuits _ hm, hcounts _ hc, hshares _ hs, Histogram.Meaning.sharing_pos hthreads,
    fun th hth => Histogram.Meaning.div_sharing_lt hth, hfit.copies _ (hst.plan.parts _ hin).op_mem,
    hrows _ (hst.plan.parts _ hin).op_mem⟩

/-- **The launch.** The kernel gathers all elements. -/
theorem launchGlobal_works
    (hst : GlobalStage p h M o R A X c k₀ k j g n ns parts (fun q => M.copies (g * n) q.op)
      (fun q => M.sharing (g * n) q.op) table locks mlen s)
    (hparts : p.parts.zip (parts.map (·.2)) = parts) (hchunk : Quantity k X s chunk (M.chunk (g * n)))
    (hthreads : 0 < g * n) (hfit : h.FitsGlobal M g n c.rounds) (hc : c.thread = none)
    (hmax : (g : Int) ≤ c.limits.maxGroupSize) (hX : globalTargets h table parts ⊆ X)
    (hA : ∀ x ∈ A, ∃ i b, s.memory.Has x i b)
    (hI : Gathered h M table locks mlen gm parts (fun q => M.copies (g * n) q.op) prior 0 s.memory) :
    Works f (Machine.launch c) c (p.launchGlobal ns (parts.map (·.2)) chunk) j s fun _ _ t => t.vars = s.vars ∧
      Memory.Keeps (globalTargets h table parts) s.memory t.memory ∧
      Gathered h M table locks mlen gm parts (fun q => M.copies (g * n) q.op) prior M.total t.memory := by
  have hfits : ∀ q ∈ parts, ns.updating.Fits h M table k X s q := fun q hq => (hst.stands q hq).fit
  obtain ⟨m, l, k', helement, hb, hnames⟩ := elementBody_spec hst.plan.hist hst.regular hfits (.ofName ns.segment)
    (Expr.ofName ns.flat % p.elements) j
  have hkernel := globalKernel_runs (f := f) ⟨p.hist.name ++ "_global", some k'⟩
    (p.hist.origin.within "global memory histogram") hst hnames hb hchunk hfit.chunks hfit.chunk hthreads hc hmax
    hX hA hI
  unfold launchGlobal
  rw [hparts]
  refine Works.bind (Works.lift helement hb.le (Q := fun x k t => p.globalElement ns m l = x ∧ k' = k ∧ s = t)
    ⟨rfl, rfl, rfl⟩) ?_
  rintro _ _ _ - - ⟨rfl, rfl, rfl⟩
  have hmake : p.kernel "_global" "global memory histogram"
      (p.globalBody ns (parts.map (·.2)) chunk (p.globalElement ns m l)) [] p.groupCount k' =
      (Kernel.make ⟨p.hist.name ++ "_global", some k'⟩
        (p.globalBody ns (parts.map (·.2)) chunk (p.globalElement ns m l)) [] [p.groupCount] [p.groupSize]
        (p.hist.origin.within "global memory histogram"), k' + 1) := rfl
  refine Works.bind (Works.lift (congrArg some hmake) (Nat.le_succ k')
    (Q := fun x k t => Kernel.make ⟨p.hist.name ++ "_global", some k'⟩
        (p.globalBody ns (parts.map (·.2)) chunk (p.globalElement ns m l)) [] [p.groupCount] [p.groupSize]
        (p.hist.origin.within "global memory histogram") = x ∧ k' + 1 = k ∧ s = t) ⟨rfl, rfl, rfl⟩) ?_
  rintro _ _ _ - - ⟨rfl, rfl, rfl⟩
  exact Works.stmt (hkernel.mono fun t ht => ⟨fun x _ => by rw [ht.1], ht.1, ht.2.2⟩)

end Kernel

/-! ## The whole code -/

/-- **Accumulating in global memory.** The host code runs to its end, and the histogram is accumulated. -/
theorem globalRest_works {table : Option LockTable} {methods : List UpdateMethod} {locks : ℕ}
    (hst : p.Stage h M o R A X c k₀ k g n s) (hX : p.arrays ++ h.mapNames ++ lockNames table ⊆ X)
    (hB : h.Given M B A s.memory) (hc : c.thread = none) (hg : 0 < g) (hn : 0 < n)
    (hmax : (g : Int) ≤ c.limits.maxGroupSize) (hmethods : methods.length = p.parts.length)
    (hsuits : ∀ x ∈ p.parts.zip methods, x.2.Suits x.1.op table) (htable : p.LocksStand h A X table k₀ k locks s)
    (hfit : h.FitsGlobal M g n c.rounds)
    (hrows : ∀ op ∈ h.operators, Word64.fits (M.segments * M.copies (g * n) op : ℕ) = true) (hroom : h.HasRoom M g n locks) :
    Works f (Machine.launch c) c (p.globalRest table methods) k s fun _ _ t => h.Accumulated M B t.memory ∧
      ∀ x i b, x.Before k₀ → s.memory.Apart h.written x → s.memory.Has x i b → t.memory.Has x i b := by
  have hthreads : 0 < g * n := Nat.mul_pos hg hn
  have hr := hst.regular
  have hold {x : Name} (hx : x ∈ h.mapNames ++ A) : x ∉ p.arrays :=
    hst.plan.not_array (Plan.Describes.before_written hr (by
      simp only [Histogram.written, List.append_assoc]
      exact List.mem_append_right _ hx)) (map_not_dest hr hx)
  -- the numbers of copies and shares
  refine Works.bind (counts_works hst hthreads hfit) ?_
  rintro counts k₁ s₁ hk₁ hf₁ ⟨⟨hlen, hcounts⟩, hm₁, -⟩
  have hst₁ := hst.keep hk₁ hf₁ fun x _ i => by rw [hm₁]
  refine Works.bind (shares_works hst₁ hthreads hfit hlen hcounts) ?_
  rintro shares k₂ s₂ hk₂ hf₂ ⟨⟨hslen, hshares⟩, hm₂, -⟩
  have hst₂ := hst₁.keep hk₂ hf₂ fun x _ i => by rw [hm₂]
  have hmem : s₂.memory = s.memory := hm₂.trans hm₁
  -- the copies
  refine Works.bind (allocated_works (fun q => M.copies (g * n) q.op) hst₂ (hmem ▸ hB) hc hlen
    (fun x hx => (hcounts x hx).frame hk₂ hf₂) (fun q _ => Histogram.Meaning.copies_pos hthreads)
    fun q hq hone => ⟨hroom.copies q.op (hst.plan.parts q hq).op_mem hone, hfit.made q.op (hst.plan.parts q hq).op_mem hone,
      hrows q.op (hst.plan.parts q hq).op_mem⟩) ?_
  rintro _ k₃ s₃ hk₃ hf₃ ⟨-, ha₃, hframes₃⟩
  have hreadable : Readable A h.destNames p.arrays s₂.memory := fun x hx => by
    rw [hmem]
    exact ⟨(hB.reads x hx).1, hold (List.mem_append_right _ hx), (hB.reads x hx).2.mono (List.subset_append_left _ _)⟩
  have hst₃ := hst₂.frames hk₃ hf₃ hframes₃ hreadable
  have hk₀₃ : k ≤ k₃ := hk₁.trans (hk₂.trans hk₃)
  have hf₀₃ : Frame k s s₃ := (hf₁.trans hf₂ hk₁).trans hf₃ (hk₁.trans hk₂)
  -- the locks
  have htable₃ := htable.keep hk₀₃ hf₀₃
  refine Works.bind (makeLocks_works hc htable₃) ?_
  rintro _ k₄ s₄ hk₄ hf₄ ⟨hext, hfree⟩
  have hfresh : ∀ x ∈ p.arrays ++ h.mapNames ++ A, x ∉ lockNames table := fun x hx hm => htable.fresh x hm hx
  have ha₄ := ha₃.grown hext hfresh
  have hst₄ : p.Stage h M o R A X c k₀ k₄ g n s₄ := hst₃.keep hk₄ hf₄ fun x hx i => by
    obtain ⟨⟨j, b, hb⟩, -⟩ := ha₃.reads x hx
    exact hb.read_eq (hext.has hb (hfresh x (List.mem_append_right _ hx))) i
  -- the chunks
  refine Works.bind (Works.bindSize (X := X) (a := M.chunk (g * n)) "chunk" hst₄.below fun f =>
    ((hst₄.plan.segments.mul hst₄.plan.elements hst.total).ceilDiv hst₄.plan.threads hthreads hfit.chunks).computes f c) ?_
  rintro chunk k₅ s₅ hk₅ hf₅ ⟨hchunk, hm₅, -⟩
  have hst₅ := hst₄.keep hk₅ hf₅ fun x _ i => by rw [hm₅]
  have hk₁₅ : k₁ ≤ k₅ := hk₂.trans (hk₃.trans (hk₄.trans hk₅))
  have hf₁₅ : Frame k₁ s₁ s₅ :=
    ((hf₂.trans hf₃ hk₂).trans hf₄ (hk₂.trans hk₃)).trans hf₅ (hk₂.trans (hk₃.trans hk₄))
  -- the names of the kernel
  obtain ⟨ns, hns, hall⟩ := globalNames_create k₅
  refine Works.bind (Works.lift hns (by omega) (Q := fun x k t => ns = x ∧ k₅ + 4 = k ∧ s₅ = t) ⟨rfl, rfl, rfl⟩) ?_
  rintro _ _ _ - - ⟨rfl, rfl, rfl⟩
  refine Works.bind (Works.silent (mapM_fresh_emit (fun _ => "subhisto_id") counts · _) (by omega)
    (Q := fun x k t => freshNames (counts.map fun _ => "subhisto_id") (k₅ + 4) = x ∧ k₅ + 4 + counts.length = k ∧ s₅ = t)
    ⟨rfl, rfl, rfl⟩) ?_
  rintro _ _ _ - - ⟨rfl, rfl, rfl⟩
  have hcopies : (freshNames (counts.map fun _ => "subhisto_id") (k₅ + 4)).length = p.parts.length := by
    rw [length_freshNames, List.length_map, hlen]
  obtain ⟨hfst, hsnd, hcopy⟩ := zip_globalParts hmethods hlen hslen hcopies
  have hstands (q) (hq : q ∈ p.parts.zip (globalParts methods counts shares
      (freshNames (counts.map fun _ => "subhisto_id") (k₅ + 4)))) :=
    stands_globalParts hst₅ hthreads hsuits (fun x hx => (hcounts x hx).frame hk₁₅ hf₁₅)
      (fun x hx => (hshares x hx).frame (hk₃.trans (hk₄.trans hk₅)) ((hf₃.trans hf₄ hk₃).trans hf₅ (hk₃.trans hk₄))) hfit hrows hq
  rw [← hsnd]
  generalize hparts : p.parts.zip (globalParts methods counts shares (freshNames (counts.map fun _ => "subhisto_id") (k₅ + 4)))
    = parts at hfst hsnd hcopy hstands ⊢
  have htargets : globalTargets h table parts = h.mapNames ++ lockNames table ++ p.copyNames := by
    rw [globalTargets, copyNames, ← hfst, List.flatMap_map]
  have hin {q : Part × GlobalPart} (hq : q ∈ parts) : q.1 ∈ p.parts := hfst ▸ List.mem_map_of_mem (f := Prod.fst) hq
  have hyoungest : ns.all ++ parts.map (·.2.copy) =
      freshNames (["gtid", "k", "flat", "seg_flat"] ++ counts.map fun _ => "subhisto_id") k₅ := by
    rw [hall, hcopy, freshNames_append]
    rfl
  obtain ⟨hunaliased, hapart⟩ := ha₃.targets hext hfresh
  rw [← htargets, ← hm₅] at hunaliased hapart
  have hstage : GlobalStage p h M o R A X c k₀ k₅ (k₅ + 4 + counts.length) g n ns parts (fun q => M.copies (g * n) q.op)
      (fun q => M.sharing (g * n) q.op) table locks B.mapLength s₅ :=
    { hst₅ with
      newer := by omega
      stands := hstands
      nodup := hyoungest ▸ nodup_freshNames _ _
      names := fun x hx => by
        have hx' := within_freshNames (hyoungest ▸ hx)
        rw [List.length_append, List.length_map] at hx'
        exact hx'.mono (Nat.le_refl _) (by simp only [List.length_cons, List.length_nil]; omega)
      mapsLength := hB.mapLength
      lockCount := fun tb htb => ⟨(htable₃.count tb htb).frame (hk₄.trans hk₅) (hf₄.trans hf₅ hk₄), htable.positive⟩
      unaliased := hunaliased
      apart := hapart }
  have hgathered : Gathered h M table locks B.mapLength B.mapValue parts (fun q => M.copies (g * n) q.op) (fun q => B.dest q.op)
      0 s₅.memory := by
    rw [hm₅]
    refine ⟨fun q hq => ⟨_, (ha₄.ready _ (hin hq)).copies, fun hm a ha => ?_⟩, hfree, ?_⟩
    · exact Copies.merged_spread hm.neutral (Nat.pos_of_mul_pos_left (Nat.zero_lt_of_lt ha))
        (Histogram.Meaning.copies_pos hthreads) _ a
    · intro i mo hmo
      have hmo' : mo.dest.name ∈ h.mapNames := List.mem_map_of_mem (List.mem_of_getElem? hmo)
      have hcol : s₂.memory.Column _ _ _ _ := hmem ▸ hB.mapsStored i mo hmo
      refine hext.column (hcol.frames hframes₃ (hold (List.mem_append_left _ hmo')) ?_) (hfresh _ (by simp [hmo']))
      rw [hmem]
      exact hB.unaliased.apart' hmo'
  have hXX : globalTargets h table parts ⊆ X := by
    rw [htargets]
    intro x hx
    simp only [List.mem_append] at hx
    rcases hx with (hx | hx) | hx
    · exact hX (by simp [hx])
    · exact hX (by simp [hx])
    · exact hX (by simp [copyNames_subset p hx])
  have hreads₅ (x) (hx : x ∈ A) : ∃ i b, s₅.memory.Has x i b := by
    rw [hm₅]
    exact (ha₄.reads x hx).1
  -- the kernel
  refine Works.bind (launchGlobal_works hstage (by rw [hsnd, hparts]) hchunk hthreads hfit hc hmax hXX hreads₅ hgathered) ?_
  rintro _ k₆ s₆ hk₆ hf₆ ⟨hv₆, hkeep₆, hgathered₆⟩
  rw [htargets] at hkeep₆
  -- what has been gathered is in the copies
  have hT : ∀ q : Part, ∃ T : ℕ → Tuple q.op.scalars, q ∈ p.parts →
      s₆.memory.Table q.subs.subs q.op.scalars (M.segments * M.copies (g * n) q.op * M.size q.op) T ∧
      (M.Merges q.op → ∀ a < M.segments * M.size q.op,
        Copies.merged (M.combine q.op) (M.copies (g * n) q.op) (M.size q.op) T a =
          M.gathered q.op q.contribution (B.dest q.op) a M.total) := fun q => by
    by_cases hq : q ∈ p.parts
    · obtain ⟨x, hx, rfl⟩ := List.mem_map.1 (hfst ▸ hq)
      exact (hgathered₆.copies x hx).imp fun _ h _ => h
    · exact ⟨fun _ => M.neutral q.op, fun h => absurd h hq⟩
  choose T hT using hT
  rw [hm₅] at hkeep₆
  have ha₆ := ha₃.worked hext hfresh hkeep₆ fun q hq => (hT q hq).1
  have hk₅₆ : k₅ ≤ k₆ := by omega
  have hf₅₆ : Frame k₅ s₅ s₆ := fun x _ => by rw [hv₆]
  have hst₆ : p.Stage h M o R A X c k₀ k₆ g n s₆ := hst₅.keep hk₅₆ hf₅₆ fun x hx i =>
    (htargets ▸ hstage.apart x hx).read_eq (hm₅.symm ▸ hkeep₆) i
  -- the merge
  refine Works.bind (finished_works (B := B) hst₆ hc hg hmax (fun x hx => hX (by simp [hx])) hlen
    (fun x hx => (hcounts x hx).frame (hk₁₅.trans hk₅₆) (hf₁₅.trans hf₅₆ hk₁₅))
    (fun q _ => Histogram.Meaning.copies_pos hthreads) (fun q hq => hfit.copies _ (hst.plan.parts q hq).op_mem)
    (fun q hq => hfit.merged _ (hst.plan.parts q hq).op_mem) ha₆ (fun q hq => (hT q hq).2) hgathered₆.maps) ?_
  rintro _ k₇ s₇ - - ⟨hcomputed, hframes₇, -⟩
  -- the locks are freed
  have hlockHas {x : Name} (hx : x ∈ lockNames table) : ∃ i b, s₇.memory.Has x i b := by
    obtain ⟨i, b, hb⟩ : ∃ i b, s₆.memory.Has x i b := by
      cases htb : table with
      | none => simp [lockNames, htb] at hx
      | some tb =>
        obtain ⟨i, b, hb, -⟩ := hgathered₆.locks tb htb
        obtain rfl : x = tb.name := by simpa [lockNames, htb] using hx
        exact ⟨i, b, hb⟩
    refine ⟨i, b, (hframes₇ x i b (fun hm => htable.fresh x hx (by simp [hm])) ?_ hb).1⟩
    refine Memory.Apart.keeps (m := s₄.memory) ?_ hkeep₆
    exact Memory.Apart.symm (fun w hw => ha₃.apart_new hext hfresh w (by simp [hw])) hx
  refine (freeLocks_works hc fun x hx => ?_).mono ?_
  · obtain ⟨i, b, hb⟩ := hlockHas hx
    exact hb.contains
  · rintro _ k₈ s₈ - - ⟨hbuffers, hnames₈⟩
    have hwritten {x : Name} (hx : x ∈ h.written) : x ∉ lockNames table := fun hm =>
      htable.young x hm (Plan.Describes.before_written hr (List.mem_append_left _ hx))
    refine ⟨hcomputed.of_names hbuffers fun x hx => hnames₈ x (hwritten hx), fun x i b hx hap hb => ?_⟩
    have hlock : x ∉ lockNames table := fun hm => htable.young x hm hx
    have hb₇ := other_kept hst.plan hr hB (hmem ▸ hframes₃) hext (fun y hy => hfresh y (by simp [hy]))
      (fun y hy => hfresh y (by simp [hy])) hkeep₆ hframes₇ hx hlock hap hb
    exact ⟨(hnames₈ x hlock).trans hb₇.name, by rw [hbuffers]; exact hb₇.buffer⟩

/-- **The strategy.** Histograms are accumulated in global memory, whatever the methods of their operators are. -/
theorem globalCode_works {locks : ℕ} (hst : p.Stage h M o R A (p.reserved A) c k₀ k g n s) (hB : h.Given M B A s.memory)
    (hc : c.thread = none) (hg : 0 < g) (hn : 0 < n) (hmax : (g : Int) ≤ c.limits.maxGroupSize)
    (hlocks : o.lockCount = locks) (hpos : 0 < locks) (hlockFits : Word64.fits (locks : ℕ) = true)
    (hfit : h.FitsGlobal M g n c.rounds)
    (hrows : ∀ op ∈ h.operators, Word64.fits (M.segments * M.copies (g * n) op : ℕ) = true) (hroom : h.HasRoom M g n locks) :
    Works f (Machine.launch c) c p.globalCode k s fun _ _ t => h.Accumulated M B t.memory ∧
      ∀ x i b, x.Before k₀ → s.memory.Apart h.written x → s.memory.Has x i b → t.memory.Has x i b := by
  obtain ⟨table, methods, k₁, hrun, hk₁, hlen, hext, hsuits⟩ :=
    chooseMethodsFrom_spec (.i64 p.lockCount) .device p.operators none k
  have hneeds := needsLock_of_chooseMethods (LockTable.create (.i64 p.lockCount) .device) p.operators k
  rw [hrun] at hneeds
  rw [globalCode_eq]
  refine Works.bind (Works.lift (congrArg some hrun) hk₁ (Q := fun x k t => (table, methods) = x ∧ k₁ = k ∧ s = t)
    ⟨rfl, rfl, rfl⟩) ?_
  rintro _ _ _ - - ⟨rfl, rfl, rfl⟩
  have hlock {x : Name} (hx : x ∈ lockNames table) : x.Within k k₁ ∧ ∀ tb, table = some tb → tb.count = .i64 p.lockCount := by
    rcases hext with rfl | ⟨-, y, hy, rfl⟩
    · cases hx
    · obtain rfl : x = y := by simpa [lockNames] using hx
      exact ⟨hy, fun tb htb => by cases htb; rfl⟩
  have hops : p.operators = h.operators := hst.plan.operators_eq hst.regular
  have hst' : p.Stage h M o R A (p.reserved A ++ lockNames table) c k₀ k₁ g n s :=
    hst.widen hk₁ (List.subset_append_left _ _) fun x hx => (List.mem_append.1 hx).imp_right fun hx => (hlock hx).1
  refine globalRest_works hst' ?_ hB hc hg hn hmax ?_ ?_
    ⟨fun tb htb => ?_, hpos, fun hsome => ?_, fun x hx => ?_, fun x hx hm => ?_⟩ hfit hrows hroom
  · exact List.append_subset.2 ⟨List.subset_append_of_subset_left _ (arrays_reserved hst.plan), List.subset_append_right _ _⟩
  · rw [hlen, operators, List.length_map]
  · intro x hx
    refine hsuits (x.1.op, x.2) ?_
    rw [operators, List.zip_map_left]
    exact List.mem_map.2 ⟨x, hx, rfl⟩
  · have htb : table = some tb := htb
    have hname : tb.name ∈ lockNames table := by simp [lockNames, htb]
    rw [(hlock hname).2 tb htb, hst.plan.lockCount, hlocks]
    exact .literal hlockFits
  · exact hroom.locks (hops ▸ hneeds hsome)
  · exact fun hb => (hlock hx).1.not_before (hb.mono hst.older)
  · refine (hlock hx).1.not_before (hst.below x ?_)
    exact (List.mem_append.1 hm).elim (fun hm => arrays_reserved hst.plan hm) fun hm => reads_reserved hm

end Plan

end GpuHistogram
