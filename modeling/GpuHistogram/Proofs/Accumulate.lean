/-
What the code of one element does to the copies of all operators. The kernels of both strategies differ in where the
copies are and in which copy a thread uses (`Updating`), but for each the code of an element combines what the element
brings into one copy of every operator, and changes nothing else of them: `element_absorbs`.
-/
import GpuHistogram.Proofs.Element
import GpuHistogram.Proofs.Method

namespace GpuHistogram

open Machine

/-! ## Sizes -/

/-- no dimension of the histogram is empty -/
structure Histogram.Meaning.Proper (M : Histogram.Meaning) (h : Histogram) : Prop where
  segmentDims : ∀ d ∈ M.segmentDims, 0 < d
  elements : 0 < M.elements
  width : ∀ op ∈ h.operators, 0 < M.width op
  shape : ∀ op ∈ h.operators, ∀ d ∈ M.shape op, 0 < d

namespace Histogram.Meaning.Proper

variable {M : Histogram.Meaning} {h : Histogram} {op : Operator}

theorem segments (hM : M.Proper h) : 0 < M.segments := prod_pos hM.segmentDims

theorem bucketSize (hM : M.Proper h) (hop : op ∈ h.operators) : 0 < M.bucketSize op := prod_pos (hM.shape op hop)

theorem size (hM : M.Proper h) (hop : op ∈ h.operators) : 0 < M.size op :=
  Nat.mul_pos (hM.width op hop) (hM.bucketSize hop)

end Histogram.Meaning.Proper

/-- the numbers and names that a part of a plan stands for -/
structure Part.Stands (q : Part) (h : Histogram) (M : Histogram.Meaning) (k : ℕ) (X : List Name) (s : State) : Prop where
  input : (q.op, q.contribution) ∈ h.inputs
  width : Quantity k X s q.width (M.width q.op)
  bucketSize : Quantity k X s q.bucketSize (M.bucketSize q.op)
  shape : Sizes k X s q.op.shape (M.shape q.op)
  dests : q.subs.dests = q.op.dests
  subs : q.subs.subs.length = q.op.dests.length
  neutral : q.subs.neutral = q.op.neutral
  segments : Quantity k X s q.subs.segments M.segments
  size : Quantity k X s q.subs.size (M.size q.op)

namespace Part

variable {q : Part} {h : Histogram} {M : Histogram.Meaning} {k k' : ℕ} {X X' : List Name} {s t : State}

theorem Stands.op_mem (hq : q.Stands h M k X s) : q.op ∈ h.operators := Histogram.Regular.op_mem hq.input

theorem Stands.keep (hq : q.Stands h M k X s) (hk : k ≤ k')
    (ht : ∀ n : Name, n.Before k → n ∉ X → t.vars.get? n = s.vars.get? n) : q.Stands h M k' X t := by
  have hkeep {e : Expr} {a : ℕ} (h : Quantity k X s e a) : Quantity k' X t e a :=
    h.keep hk fun n hn => ht n (h.scalars n hn).1 (h.scalars n hn).2
  exact ⟨hq.input, hkeep hq.width, hkeep hq.bucketSize, hq.shape.imp fun _ _ => hkeep, hq.dests, hq.subs, hq.neutral,
    hkeep hq.segments, hkeep hq.size⟩

theorem Stands.widen (hq : q.Stands h M k X s) (hX : ∀ n ∈ X', n ∈ X ∨ ¬ n.Before k) : q.Stands h M k X' s :=
  ⟨hq.input, hq.width.widen hX, hq.bucketSize.widen hX, hq.shape.imp fun _ _ he => he.widen hX, hq.dests, hq.subs,
    hq.neutral, hq.segments.widen hX, hq.size.widen hX⟩

/-- the place of the current tuple of a bucket in a copy -/
def address (q : Part) (copy bucket : Expr) : Expr :=
  (copy * q.width + bucket) * q.bucketSize + q.op.bucketIndex

/-- the place is a number below the end of the copy -/
theorem Stands.address_computes {f : Form} {c : Context} {copy bucket : Expr} {a b r len : ℕ} (hq : q.Stands h M k X s)
    (hshape : ∀ d ∈ M.shape q.op, 0 < d) (hdims : q.op.bucketIndices.length = q.op.shape.length) (hcopy : Computes f c s copy a)
    (hbucket : Computes f c s bucket b) (hb : b < M.width q.op) (hr : r < M.bucketSize q.op)
    (hvals : Holds s q.op.bucketIndices (words (digits (M.shape q.op) r))) (hlen : (a + 1) * M.size q.op ≤ len)
    (hfit : Word64.fits (len : ℕ) = true) :
    Computes f c s (q.address copy bucket) ((a * M.width q.op + b) * M.bucketSize q.op + r : ℕ) ∧
      (a * M.width q.op + b) * M.bucketSize q.op + r < len := by
  have hpos : 0 < M.bucketSize q.op := prod_pos hshape
  have hrow : a * M.width q.op + b < (a + 1) * M.width q.op := by
    rw [add_mul, one_mul]
    omega
  have hplace : (a * M.width q.op + b) * M.bucketSize q.op + r < len := by
    calc (a * M.width q.op + b) * M.bucketSize q.op + r
        < (a * M.width q.op + b + 1) * M.bucketSize q.op := by rw [add_mul _ 1, one_mul]; omega
      _ ≤ (a + 1) * M.width q.op * M.bucketSize q.op := Nat.mul_le_mul_right _ hrow
      _ = (a + 1) * M.size q.op := by rw [Histogram.Meaning.size, mul_assoc]
      _ ≤ len := hlen
  have hstart : (a * M.width q.op + b) * M.bucketSize q.op ≤ len := by omega
  have hcopies : a * M.width q.op + b ≤ len := (Nat.le_mul_of_pos_right _ hpos).trans hstart
  have hindex : Computes f c s q.op.bucketIndex r := by
    have hsizes : AllCompute f c s (q.op.bucketDims.map (·.2)) (M.shape q.op) := by
      rw [q.op.bucketDims_sizes hdims]
      exact hq.shape.imp fun _ _ he => he.computes f c
    have h := flatIndex_names q.op.bucketDims hsizes (digits_lt hshape r) hq.bucketSize.fits
      (by rwa [q.op.bucketDims_names hdims])
    have hmod : r % (M.shape q.op).prod = r := Nat.mod_eq_of_lt hr
    rwa [ordinal_digits, hmod] at h
  refine ⟨?_, hplace⟩
  have h1 := hcopy.mulNat (hq.width.computes f c) (Word64.fits_le hfit (by omega))
  have h2 := (h1.addNat hbucket (Word64.fits_le hfit hcopies)).mulNat (hq.bucketSize.computes f c)
    (Word64.fits_le hfit hstart)
  exact h2.addNat hindex (Word64.fits_le hfit hplace.le)

end Part

/-! ## One operator -/

/-- how the operators of a plan are updated: by which method, in which arrays, and in which copy of them -/
structure Updating (α : Type) where
  space : Space
  method : α → UpdateMethod
  targets : Part × α → List Name
  copy : Part × α → Expr

section Updating

variable {α : Type} {U : Updating α} {h : Histogram} {M : Histogram.Meaning} {f : Form}
  {L : LaunchSpec → List Stmt → Exec Unit} {c : Context} {s t : State} {k₀ k k' i j : ℕ} {X A R : List Name}
  {q : Part × α} {u : Stmt} {table : Option LockTable} {locks : ℕ}

/-- the code that combines the values of an element into a bucket -/
def Updating.update (U : Updating α) (part : Part) (a : α) (bucket : Expr) : Gen Stmt :=
  part.op.updateCode (U.method a) U.space (U.targets (part, a)) (part.address (U.copy (part, a)) bucket)
    part.contribution.values

/-- the locks of the table are there, and nobody holds one -/
def LocksFree (table : Option LockTable) (locks : ℕ) (m : Memory) : Prop :=
  ∀ tb, table = some tb → m.Column tb.name .i32 locks fun _ => .int 0 .i32

theorem LocksFree.keeps {m m' : Memory} {W : List Name} (hl : LocksFree table locks m) (hk : Memory.Keeps W m m')
    (hW : ∀ n ∈ lockNames table, m.Apart W n) : LocksFree table locks m' :=
  fun tb htb => (hl tb htb).keeps hk (hW _ (by simp [lockNames, htb]))

/-- the way of being updated fits a part -/
structure Updating.Fits (U : Updating α) (h : Histogram) (M : Histogram.Meaning) (table : Option LockTable) (k : ℕ)
    (X : List Name) (s : State) (q : Part × α) : Prop where
  part : q.1.Stands h M k X s
  method : (U.method q.2).Suits q.1.op table
  targets : (U.targets q).length = q.1.op.dests.length

/-- the numbers and names that a part with its way of being updated stands for: the copy that is updated is the one of a
number, among the copies that the targets consist of -/
structure Updating.Stands (U : Updating α) (h : Histogram) (M : Histogram.Meaning) (table : Option LockTable) (k : ℕ)
    (X : List Name) (copy len : Part × α → ℕ) (s : State) (q : Part × α) : Prop extends U.Fits h M table k X s q where
  which : Quantity k X s (U.copy q) (copy q)
  rows : ∃ n, copy q < n ∧ len q = n * M.size q.1.op
  fits : Word64.fits (len q : ℕ) = true

theorem Updating.Stands.below {copy len : Part × α → ℕ} (hq : U.Stands h M table k X copy len s q) :
    (copy q + 1) * M.size q.1.op ≤ len q := by
  obtain ⟨n, hn, hlen⟩ := hq.rows
  rw [hlen]
  exact Nat.mul_le_mul_right _ hn

theorem Updating.Fits.isUpdate (hq : U.Fits h M table k X s q) (hr : h.Regular k₀ R A) {bucket : Expr}
    (hu : U.update q.1 q.2 bucket i = some (u, k')) :
    q.1.op.IsUpdate U.space (U.targets q) (q.1.address (U.copy q) bucket) q.1.contribution.values i (U.method q.2) u k' := by
  obtain ⟨u', k'', hu', his⟩ := updateCode_spec q.1.op hq.method U.space (q.1.address (U.copy q) bucket) hq.targets
    ((hr.values_length hq.part.input).trans q.1.op.length_scalars) i
  have h := hu.symm.trans hu'
  rw [Option.some.injEq, Prod.mk.injEq] at h
  obtain ⟨rfl, rfl⟩ := h
  exact his

theorem Updating.Fits.exists_update (hq : U.Fits h M table k X s q) (hr : h.Regular k₀ R A) (bucket : Expr)
    (i : ℕ) : ∃ u k', U.update q.1 q.2 bucket i = some (u, k') ∧ i ≤ k' := by
  obtain ⟨u, k', hu, his⟩ := updateCode_spec q.1.op hq.method U.space (q.1.address (U.copy q) bucket) hq.targets
    ((hr.values_length hq.part.input).trans q.1.op.length_scalars) i
  exact ⟨u, k', hu, his.le⟩

/-- the update of an operator sets fresh variables and parameters -/
theorem Updating.Fits.sets (hq : U.Fits h M table k X s q) (hr : h.Regular k₀ R A) {bucket : Expr}
    (hu : U.update q.1 q.2 bucket i = some (u, k')) {n : Name} (hn : n ∈ u.uses .sets) :
    n.Within i k' ∨ n ∈ q.1.op.combiner.names :=
  (hq.isUpdate hr hu).sets (hr.combiner _ hq.part.op_mem) hn

/-- the update of an operator stores to its targets and to the locks -/
theorem Updating.Fits.stores (hq : U.Fits h M table k X s q) (hr : h.Regular k₀ R A) {bucket : Expr}
    (hu : U.update q.1 q.2 bucket i = some (u, k')) {n : Name} (hn : n ∈ u.uses .stores) :
    n ∈ U.targets q ∨ n ∈ lockNames table :=
  (hq.isUpdate hr hu).stores (hr.combiner _ hq.part.op_mem) hq.method hn

variable {copy len : Part × α → ℕ}

/-- **One operator.** What the element brings is combined into the copy. -/
theorem Updating.Stands.absorbs {T : ℕ → Tuple q.1.op.scalars} {e : ℕ}
    (hq : U.Stands h M table j X copy len s q) (hr : h.Regular k₀ R A) (hshape : ∀ d ∈ M.shape q.1.op, 0 < d)
    (hkj : k₀ ≤ j) (hji : j ≤ i)
    (hX : ∀ n ∈ h.locals, n ∈ X) (hM : h.Means M j X A s) (hc : c.thread.isSome = true)
    (hlim : 0 < c.rounds ∧ ∀ d ∈ M.shape q.1.op, d ≤ c.rounds) (he : e < M.total)
    (hu : U.update q.1 q.2 (.ofName (bucketName i)) (i + 1) = some (u, k'))
    (hlocks : ∀ tb, table = some tb → (∀ u, Sees j X A s u → Computes f c u tb.count locks) ∧ 0 < locks)
    (hst : Sees j X A s t) (hvals : Holds t h.indexNames (words (M.indices e)))
    (hA : ∀ n ∈ A, t.memory.Apart (lockNames table ++ U.targets q) n)
    (hun : ∀ n ∈ lockNames table, t.memory.Apart (U.targets q) n)
    (hT : t.memory.Table (U.targets q) q.1.op.scalars (len q) T) (hfree : LocksFree table locks t.memory) :
    Runs f L c (Plan.bucketUpdate q.1 (bucketName i) u) t fun v =>
      v.memory.Table (U.targets q) q.1.op.scalars (len q)
        (Copies.absorb (M.combine q.1.op) (M.size q.1.op) (copy q) (M.brings q.1.op q.1.contribution e) T) ∧
      LocksFree table locks v.memory := by
  have hop := hq.part.op_mem
  have hin := hq.part.input
  have hpos : 0 < M.bucketSize q.1.op := prod_pos hshape
  have hdims := hr.dims hop
  have htyped := hr.typed hop
  have hsets {n : Name} (hn : n ∈ u.uses .sets) := hq.sets hr hu hn
  have hstores {n : Name} (hn : n ∈ u.uses .stores) := hq.stores hr hu hn
  have hlocal {n : Name} (hn : n ∈ q.1.op.bucketIndices ++ q.1.op.combiner.names) : n ∈ X ∧ n.Before k₀ :=
    ⟨hX n (Histogram.Regular.mem_locals hop hn), hr.before_local (Histogram.Regular.mem_locals hop hn)⟩
  have hnd := hr.operator_nodup hop
  have hyoung {n : Name} (hn : n.Within (i + 1) k') : ¬ n.Before j := fun hb => hn.not_before (hb.mono (by omega))
  -- the names that change while the buckets are updated
  have hV {V : List Name} (hV : ∀ n ∈ V, n = bucketName i ∨ n ∈ q.1.op.bucketIndices ∨ n.Within (i + 1) k' ∨
      n ∈ q.1.op.combiner.names) : ∀ n ∈ V, n.Before j → n ∈ X := by
    intro n hn hb
    rcases hV n hn with rfl | hn | hn | hn
    · exact absurd hb (not_before_bucketName hji)
    · exact (hlocal (List.mem_append_left _ hn)).1
    · exact absurd hb (hyoung hn)
    · exact (hlocal (List.mem_append_right _ hn)).1
  have hsees {V W : List Name} {v w : State} (hv : Sees j X A s v) (hvw : Keeps V W v w)
      (hVs : ∀ n ∈ V, n = bucketName i ∨ n ∈ q.1.op.bucketIndices ∨ n.Within (i + 1) k' ∨ n ∈ q.1.op.combiner.names)
      (hA' : ∀ n ∈ A, v.memory.Apart W n) : Sees j X A s w := hv.keeps hvw (Nat.le_refl j) (hV hVs) hA'
  obtain ⟨hb, hfit⟩ := hM.bucket (q.1.op, q.1.contribution) hin e he f c t hst hvals
  have hW : ∀ n ∈ u.uses .stores, n ∈ lockNames table ++ U.targets q := fun n hn => by
    rcases hstores hn with hn | hn <;> simp [hn]
  have hquantity {e : Expr} {a : ℕ} {v : State} (h : Quantity j X s e a) (hv : Sees j X A s v) := h.sees hv
  refine bucketUpdate_runs (k := j) (X := X) (w := M.width q.1.op)
    (fun r m => m.Table (U.targets q) q.1.op.scalars (len q) (Copies.absorbRange (M.combine q.1.op)
      ((copy q * M.width q.1.op + (M.bucket q.1.contribution e).toNat) * M.bucketSize q.1.op) r
      (M.value q.1.op q.1.contribution e) T) ∧ LocksFree table locks m)
    hc hdims hb hfit (hquantity hq.part.width hst) (hq.part.shape.sees hst) hshape hlim.2
    (fun n hn => (hlocal (List.mem_append_left _ hn)).1) hnd.of_append_left (not_before_bucketName hji) ?_ ?_ ?_ ?_ ?_
  · exact fun hm => not_before_bucketName (hkj.trans hji) (hlocal (List.mem_append_left _ hm)).2
  · intro n hn
    rcases hsets hn with hn | hn
    · exact ⟨fun hm => hn.not_before ((hlocal (List.mem_append_left _ hm)).2.mono (by omega)),
        fun he => hn.not_before (he ▸ (Name.within_mk (k := i) "bucket" (Nat.le_refl i) (Nat.lt_succ_self i)).before),
        fun hb => absurd hb (hyoung hn)⟩
    · exact ⟨fun hm => List.disjoint_of_nodup_append hnd hm hn,
        fun he => not_before_bucketName (hkj.trans hji) (he ▸ (hlocal (List.mem_append_right _ hn)).2),
        fun _ => (hlocal (List.mem_append_right _ hn)).1⟩
  · rintro r v hlt hb0 hbw hv hbv hdig ⟨hTv, hfreev⟩
    have hsv : Sees j X A s v := hsees hst hv (fun n hn => by
      simp only [List.mem_cons, List.mem_append] at hn
      rcases hn with hn | hn | hn
      · exact .inl hn
      · exact .inr (.inl hn)
      · exact .inr (.inr (hsets hn))) fun n hn => (hA n hn).mono hW
    have hvalsv : Holds v h.indexNames (words (M.indices e)) := by
      refine hvals.keeps hv fun n hn hm => ?_
      have hbefore : n.Before k₀ := hr.before_local (List.mem_append_left _ hn)
      simp only [List.mem_cons, List.mem_append] at hm
      rcases hm with rfl | hm | hm
      · exact not_before_bucketName (hkj.trans hji) hbefore
      · exact hr.not_indexName hop (List.mem_append_left _ hm) hn
      · rcases hsets hm with hm | hm
        · exact hyoung hm (hbefore.mono hkj)
        · exact hr.not_indexName hop (List.mem_append_right _ hm) hn
    have hAv : ∀ n ∈ A, v.memory.Apart (lockNames table ++ U.targets q) n := fun n hn => (hA n hn).keeps hv.memory
    obtain ⟨b, hbeq⟩ := Int.eq_ofNat_of_zero_le hb0
    have hbn : b < M.width q.1.op := by rw [hbeq] at hbw; exact_mod_cast hbw
    have hbucket : Computes f c v (.ofName (bucketName i)) b := hbeq ▸ .ofName hbv hfit
    obtain ⟨haddr, hplace⟩ := (hq.part.keep (Nat.le_refl j) hsv.vars).address_computes hshape hdims
      ((hquantity hq.which hsv).computes f c) hbucket hbn hlt hdig hq.below hq.fits
    have hnames {V : List Name} (hV' : ∀ n ∈ V, n.Within (i + 1) k' ∨ n ∈ q.1.op.combiner.names) :
        ∀ n ∈ V, n = bucketName i ∨ n ∈ q.1.op.bucketIndices ∨ n.Within (i + 1) k' ∨ n ∈ q.1.op.combiner.names :=
      fun n hn => .inr (.inr (hV' n hn))
    have hother {V : List Name} (hV' : ∀ n ∈ V, n.Within (i + 1) k' ∨ n ∈ q.1.op.combiner.names) :
        ∀ n ∈ V, n ∉ h.indexNames ∧ n ∉ q.1.op.bucketIndices := by
      intro n hn
      rcases hV' n hn with hn | hn
      · exact ⟨fun hm => hyoung hn ((hr.before_local (List.mem_append_left _ hm)).mono hkj),
          fun hm => hyoung hn ((hlocal (List.mem_append_left _ hm)).2.mono hkj)⟩
      · exact ⟨hr.not_indexName hop (List.mem_append_right _ hn), fun hm => List.disjoint_of_nodup_append hnd hm hn⟩
    rw [hbeq, Int.toNat_natCast] at hTv ⊢
    refine (hq.isUpdate hr hu).runs locks (M.combine q.1.op) hq.method rfl htyped
      (fun n hn => (hlocal (List.mem_append_right _ hn)).2.mono (by omega)) (hr.integers _ hop)
      (fun i e sc he hsc => Histogram.Regular.ty_of_map (hr.results _ hop) he hsc)
      (hr.values_length hin)
      (fun i e sc he hsc => Histogram.Regular.ty_of_map (hr.values _ hin) he hsc) hlim.1 hTv hplace haddr ?_ ?_ ?_ ?_
      (y := M.value q.1.op q.1.contribution e r)
    · intro V w hV' hw
      exact hM.value (q.1.op, q.1.contribution) hin e he r hlt f c w
        (hsees hsv hw (hnames hV') fun n hn _ hm => absurd hm List.not_mem_nil)
        (hvalsv.keeps hw fun n hn hm => (hother hV' n hm).1 hn)
        (hdig.keeps hw fun n hn hm => (hother hV' n hm).2 hn)
    · intro V w hV' hw
      exact hM.combine _ hop f c w (hsees hsv hw (hnames hV') hAv)
    · intro tb htb
      obtain ⟨hcount, hlpos⟩ := hlocks tb htb
      refine ⟨(hun _ (by simp [lockNames, htb])).keeps hv.memory, hlpos, hfreev tb htb, fun V w hV' hw => ?_⟩
      exact hcount w (hsees hsv hw (hnames hV') fun n hn _ hm => absurd hm List.not_mem_nil)
    · intro w hTw hfreew
      refine ⟨?_, hfreew⟩
      rwa [Copies.absorbRange_succ]
  · rw [Copies.absorbRange_zero]
    exact ⟨hT, hfree⟩
  · intro v hJ _
    split_ifs at hJ with hr'
    · obtain ⟨b, hbeq⟩ := Int.eq_ofNat_of_zero_le hr'.1
      refine ⟨?_, hJ.2⟩
      have hb' : b < M.width q.1.op := by rw [hbeq] at hr'; exact_mod_cast hr'.2
      have hTv := hJ.1
      rw [hbeq, Int.toNat_natCast, ← Histogram.Meaning.bucketSize, ← Copies.absorb_bucket hpos hb'] at hTv
      unfold Histogram.Meaning.brings
      simpa only [Histogram.Meaning.size, hbeq, Nat.cast_inj] using hTv
    · refine ⟨?_, hJ.2⟩
      simp only [Copies.absorbRange_zero] at hJ
      rcases Nat.eq_zero_or_pos (M.size q.1.op) with hsize | hsize
      · -- there are no buckets, so the targets are empty
        obtain ⟨n, -, hlen⟩ := hq.rows
        exact hJ.1.congr fun a ha => absurd ha (by rw [hlen, hsize, mul_zero]; exact Nat.not_lt_zero a)
      rw [Copies.absorb_none hsize]
      · exact hJ.1
      · intro x hx
        unfold Histogram.Meaning.brings
        rw [if_neg]
        intro heq
        have hlt : x / M.bucketSize q.1.op < M.width q.1.op := Nat.div_lt_of_lt_mul (by rwa [mul_comm])
        exact hr' ⟨heq ▸ Int.natCast_nonneg _, by rw [heq]; exact_mod_cast hlt⟩

/-! ## One element -/

/-- a map result as it is when some elements are stored, and as it was for the others -/
def mapContent (h : Histogram) (M : Histogram.Meaning) (gm : ℕ → ℕ → Value) (stored : ℕ → Prop) [DecidablePred stored]
    (i e : ℕ) : Value :=
  match h.maps[i]? with
  | some mo => if stored e then (M.mapped mo e).convert mo.dest.elem else gm i e
  | none => gm i e

/-- the map results of some elements are stored, the others are as they were -/
def MapsStored (h : Histogram) (M : Histogram.Meaning) (len : ℕ → ℕ) (gm : ℕ → ℕ → Value) (stored : ℕ → Prop)
    [DecidablePred stored] (m : Memory) : Prop :=
  ∀ (i : ℕ) mo, h.maps[i]? = some mo → m.Column mo.dest.name mo.dest.elem (len i) (mapContent h M gm stored i)

theorem MapsStored.keeps {mlen : ℕ → ℕ} {gm : ℕ → ℕ → Value} {stored : ℕ → Prop} [DecidablePred stored] {m m' : Memory}
    {W : List Name} (hm : MapsStored h M mlen gm stored m) (hk : Memory.Keeps W m m')
    (hW : ∀ n ∈ h.mapNames, m.Apart W n) : MapsStored h M mlen gm stored m' :=
  fun i mo hmo => (hm i mo hmo).keeps hk (hW _ (List.mem_map_of_mem (List.mem_of_getElem? hmo)))

/-- **One element.** The code of an element stores its map results and combines what it brings into one copy of every
operator. -/
theorem element_absorbs {p : Plan} {parts : List (Part × α)} {l : List Stmt} {segment index : Expr} {n : Name} {sg e : ℕ}
    {T : (q : Part × α) → ℕ → Tuple q.1.op.scalars} {mlen : ℕ → ℕ} {gm : ℕ → ℕ → Value} {stored : ℕ → Prop}
    [DecidablePred stored] (hr : h.Regular k₀ R A) (hshapes : ∀ op ∈ h.operators, ∀ d ∈ M.shape op, 0 < d) (hkj : k₀ ≤ j)
    (hX : ∀ n ∈ h.locals, n ∈ X)
    (hM : h.Means M j X A s) (hc : c.thread.isSome = true)
    (hlim : 0 < c.rounds ∧ ∀ op ∈ h.operators, ∀ d ∈ M.shape op, d ≤ c.rounds)
    (hhist : p.hist = h) (hnames : p.segmentDims.map (·.1) ++ [n] = h.indexNames)
    (hdims : Sizes j X s (p.segmentDims.map (·.2)) M.segmentDims) (helements : Quantity j X s p.elements M.elements)
    (hfit : Word64.fits (M.total : ℕ) = true) (hsg : sg < M.segments) (he : e < M.elements)
    (hsegment : Quantity j X s segment sg) (hindex : Quantity j X s index e) (hlen : ∀ i < h.maps.length, M.total ≤ mlen i)
    (hb : Bucketed U.update parts j l k') (hparts : ∀ q ∈ parts, U.Stands h M table j X copy len s q)
    (hlocks : ∀ tb, table = some tb → (∀ u, Sees j X A s u → Computes f c u tb.count locks) ∧ 0 < locks)
    (hun : s.memory.Unaliased (h.mapNames ++ lockNames table ++ parts.flatMap U.targets))
    (hA : ∀ n ∈ A, s.memory.Apart (h.mapNames ++ lockNames table ++ parts.flatMap U.targets) n)
    (hmaps : MapsStored h M mlen gm stored s.memory)
    (hT : ∀ q ∈ parts, s.memory.Table (U.targets q) q.1.op.scalars (len q) (T q)) (hfree : LocksFree table locks s.memory) :
    Runs f L c (defineIndices segment p.segmentDims ++ [.bind n index]
      ++ p.mapStores (segment * p.elements + .ofName n) ++ l) s fun t =>
      (∀ q ∈ parts, t.memory.Table (U.targets q) q.1.op.scalars (len q) (Copies.absorb (M.combine q.1.op) (M.size q.1.op)
        (copy q) (M.brings q.1.op q.1.contribution (sg * M.elements + e)) (T q))) ∧
      LocksFree table locks t.memory ∧
      MapsStored h M mlen gm (fun a => a = sg * M.elements + e ∨ stored a) t.memory := by
  have hnext : sg * M.elements + e < (sg + 1) * M.elements := by
    rw [add_mul, one_mul]
    omega
  have hlt : sg * M.elements + e < M.total := hnext.trans_le (Nat.mul_le_mul_right _ hsg)
  have hindexNames {n : Name} (hn : n ∈ h.indexNames) : n ∈ X ∧ n.Before j :=
    ⟨hX n (List.mem_append_left _ hn), (hr.before_local (List.mem_append_left _ hn)).mono hkj⟩
  have hsub {q : Part × α} (hq : q ∈ parts) :
      lockNames table ++ U.targets q ⊆ h.mapNames ++ lockNames table ++ parts.flatMap U.targets := fun m hm => by
    rcases List.mem_append.1 hm with hm | hm
    · simp [hm]
    · exact List.mem_append_right _ (List.mem_flatMap.2 ⟨q, hq, hm⟩)
  have hpositive : ∀ d ∈ M.segmentDims, 0 < d := pos_of_prod_pos (Nat.zero_lt_of_lt hsg)
  refine element_runs (k := j) (j := j) (h := h) (M := M) (X := X) (A := A) hc hdims hpositive helements
    hfit hhist hnames (fun m hm => hindexNames hm) hr.indexNames_nodup hM (.refl j X A s) hsg he
    (fun t ht => (hsegment.keeps ht fun m hm _ => (hindexNames hm).1).computes f c)
    (fun t ht => (hindex.keeps ht fun m hm _ => (hindexNames hm).1).computes f c) hmaps hlen hb (Nat.le_refl j)
    U.targets (lockNames table) (fun q m => m.Table (U.targets q) q.1.op.scalars (len q) (T q))
    (fun q m => m.Table (U.targets q) q.1.op.scalars (len q) (Copies.absorb (M.combine q.1.op) (M.size q.1.op)
        (copy q) (M.brings q.1.op q.1.contribution (sg * M.elements + e)) (T q))) (LocksFree table locks) hun hA ?_
    (fun q _ m m' W hk hW hTq => hTq.keeps hk hW) (fun q _ m m' W hk hW hTq => hTq.keeps hk hW)
    (fun m m' W hk hW hl => hl.keeps hk hW) ?_ ?_ ?_ hT hfree ?_
  · intro q hq m hm
    have hop := (hparts q hq).part.op_mem
    have hml := Histogram.Regular.mem_locals hop hm
    exact ⟨hX m hml, (hr.before_local hml).mono hkj, hr.not_indexName hop hm⟩
  · intro q hq i u k'' hi hu m hm hb
    rcases (hparts q hq).sets hr hu hm with hm | hm
    · exact absurd (hb.mono (by omega)) hm.not_before
    · exact List.mem_append_right _ hm
  · intro q hq i u k'' hi hu m hm
    exact (hparts q hq).stores hr hu hm
  · intro q hq i u k'' t hi hu hst hvals hk hTq hfreet
    have hop := (hparts q hq).part.op_mem
    have hnamest := hk.names
    have hstands : U.Stands h M table j X copy len t q :=
      ⟨⟨(hparts q hq).part.keep (Nat.le_refl j) hst.vars, (hparts q hq).method, (hparts q hq).targets⟩,
        (hparts q hq).which.sees hst, (hparts q hq).rows, (hparts q hq).fits⟩
    refine hstands.absorbs hr (hshapes _ hop) hkj hi hX (hM.later hst (Nat.le_refl j)) hc ⟨hlim.1, hlim.2 _ hop⟩ hlt hu
      (fun tb htb => ⟨fun v hv => (hlocks tb htb).1 v (hst.trans hv (Nat.le_refl j)), (hlocks tb htb).2⟩) (.refl j X A t) hvals
      (fun m hm => ((hA m hm).keeps hk).mono (hsub hq)) (fun m hm => ?_) hTq hfreet
    refine Memory.Apart.keeps (m := s.memory) ?_ hk
    rw [List.append_assoc] at hun
    exact (hun.right.apart hm).mono fun w hw => List.mem_flatMap.2 ⟨q, hq, hw⟩
  · intro t hTt hfreet hcols
    refine ⟨hTt, hfreet, fun i mo hmo => (hcols i mo hmo).congr fun a _ => ?_⟩
    by_cases ha : a = sg * M.elements + e
    · simp only [ha, Function.update_self, mapContent, hmo, true_or, if_true]
    · rw [Function.update_of_ne ha]
      simp only [mapContent, hmo, ha, false_or]

end Updating

end GpuHistogram
