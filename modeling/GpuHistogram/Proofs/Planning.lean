/-
Planning. The host computes the sizes of a histogram and names its arrays of copies. `Plan.Describes` says what a plan
stands for: every size of it is a number of the meaning, and its parts are the operators with their contributions.
`plan_works` is the theorem that the generated code gets there.
-/
import GpuHistogram.Histogram.Compile
import GpuHistogram.Proofs.Accumulate

namespace GpuHistogram

open Machine

variable {f : Form} {L : LaunchSpec → List Stmt → Exec Unit} {c : Context} {s t : State} {k k' : ℕ} {X A R : List Name}

/-- a histogram that is accepted is compiled for all options -/
theorem Histogram.compile_eq_ok {h : Histogram} {o : Options} {gen : Gen Program} :
    h.compile o = .ok gen ↔ h.validate = .ok () ∧ h.generate o = gen := by
  unfold compile
  refine ⟨fun hgen => ?_, ?_⟩
  · obtain ⟨_, hv, hgen⟩ := except_bind_eq_ok.1 hgen
    exact ⟨hv, except_pure_eq_ok.1 hgen⟩
  · rintro ⟨hv, rfl⟩
    rw [hv]
    rfl

/-! ## Sizes of the histogram -/

theorem Expr.IsSize.fits {e : Expr} {a : ℕ} (h : e.IsSize s R a) : Word64.fits (a : Int) = true := h.1

theorem Expr.IsSize.unique {e : Expr} {a b : ℕ} (h : e.IsSize s R a) (h' : e.IsSize s R b) : a = b := by
  obtain ⟨-, ⟨o, rfl⟩ | ⟨n, o, rfl, -, hn⟩⟩ := h
  · obtain ⟨-, ⟨o', he⟩ | ⟨n, o', he, -⟩⟩ := h'
    · injection he with he
      exact Int.natCast_inj.1 he
    · cases he
  · obtain ⟨-, ⟨o', he⟩ | ⟨n', o', he, -, hn'⟩⟩ := h'
    · cases he
    · cases he
      rw [hn] at hn'
      injection hn' with hn'
      injection hn' with hn'
      exact Int.natCast_inj.1 hn'

theorem Expr.IsSize.quantity {e : Expr} {a : ℕ} (h : e.IsSize s R a) (hR : ∀ n ∈ R, n.Before k ∧ n ∉ X) :
    Quantity k X s e a := by
  obtain ⟨hfit, ⟨o, rfl⟩ | ⟨n, o, rfl, hn, hv⟩⟩ := h
  · exact ⟨fun f c => ⟨rfl, by cases f <;> exact Word.literal hfit .i64 rfl o⟩, trivial⟩
  · have hword (c : Context) : Word c s (.var n .i64 o) a := ⟨by rw [eval, hv], hfit, fun _ _ _ he => by cases he⟩
    exact ⟨fun f c => ⟨rfl, by cases f <;> exact hword c⟩, rfl, (hR n hn).1, (hR n hn).2, by rw [hv]; rfl⟩

theorem Expr.IsSize.transfer {e : Expr} {a : ℕ} (h : e.IsSize s R a) (hR : ∀ n ∈ R, t.vars.get? n = s.vars.get? n) :
    e.IsSize t R a :=
  ⟨h.1, h.2.imp_right fun ⟨n, o, he, hn, hv⟩ => ⟨n, o, he, hn, by rw [hR n hn, hv]⟩⟩

/-- a size that may be fixed is the number it is fixed to, or the one chosen when the program is run -/
theorem fixedOrOpen_computes {fixed : Option Int} {id : String} {a : ℕ} (hc : c.thread = none)
    (ha : (fixed.orElse fun _ => c.sizes id) = some (a : Int)) (hfit : Word64.fits (a : Int) = true) :
    Computes f c s (Histogram.fixedOrOpen fixed id) a := by
  cases fixed with
  | some v =>
    obtain rfl : v = a := by simpa using ha
    exact .literal hfit
  | none =>
    have hsize : c.sizes id = some (a : Int) := ha
    have hword : Word c s (.size id .unknown) a := by
      refine ⟨?_, hfit, fun _ _ _ he => by cases he⟩
      rw [eval, evalSize, hc, hsize]
      exact congrArg Except.ok (Value.ofInt_i64 hfit)
    exact ⟨rfl, by cases f <;> exact hword⟩

theorem Quantity.foldl_add {es : List Expr} {ds : List ℕ} (h : Sizes k X s es ds) {e : Expr} {a : ℕ}
    (ha : Quantity k X s e a) (hfit : Word64.fits (a + ds.sum : ℕ) = true) :
    Quantity k X s (es.foldl (· + ·) e) (a + ds.sum) := by
  induction h generalizing e a with
  | nil => simpa using ha
  | @cons e' d es ds he hes ih =>
    rw [List.sum_cons, ← add_assoc] at hfit ⊢
    exact ih (ha.add he (Word64.fits_le hfit (by omega))) hfit

/-- the sum of sizes -/
theorem Quantity.sum {es : List Expr} {ds : List ℕ} (h : Sizes k X s es ds) (hfit : Word64.fits (ds.sum : ℕ) = true) :
    Quantity k X s (.sum es) ds.sum := by
  cases h with
  | nil => exact .zero
  | cons he hes =>
    rw [List.sum_cons] at hfit ⊢
    exact foldl_add hes he hfit

/-! ## The parts -/

/-- code is generated, but none is written -/
theorem Works.silent {α : Type} {E : Emit α} {a : α} {Q : α → ℕ → State → Prop} (h : ∀ l, E l k = some ((a, l), k'))
    (hk : k ≤ k') (hq : Q a k' s) : Works f L c E k s Q :=
  ⟨a, [], k', s, fun l => by rw [h, List.append_nil], hk, by rw [f.block_nil, execAll_nil], .refl k s, hq⟩

/-- the number and names that parts are made of -/
abbrev PartInput := Operator × Contribution × Expr × Expr

/-- the generator of a part -/
def makePart (segments : Expr) : PartInput → Emit Part := fun (op, c, width, bucketSize) =>
  return Part.mk op c width bucketSize (← (Subhistograms.create op segments width bucketSize : Gen _))

theorem makeParts_spec (segments : Expr) (l : List PartInput) (k : ℕ) : ∃ parts k',
    (∀ l₀, (l.mapM (makePart segments)) l₀ k = some ((parts, l₀), k')) ∧ k ≤ k' ∧
    parts.map (fun q => (q.op, q.contribution, q.width, q.bucketSize)) = l ∧
    (∀ q ∈ parts, q.subs.dests = q.op.dests ∧ q.subs.neutral = q.op.neutral ∧ q.subs.segments = segments ∧
      q.subs.size = q.width * q.bucketSize ∧ q.subs.subs.length = q.op.dests.length) ∧
    (parts.flatMap fun q => q.subs.subs).Nodup ∧ ∀ n ∈ parts.flatMap fun q => q.subs.subs, n.Within k k' := by
  induction l generalizing k with
  | nil =>
    exact ⟨[], k, fun _ => rfl, Nat.le_refl k, rfl, (fun _ h => absurd h List.not_mem_nil), List.nodup_nil,
      fun _ h => absurd h List.not_mem_nil⟩
  | cons x l ih =>
    obtain ⟨op, c, width, bucketSize⟩ := x
    obtain ⟨parts, k', hrun, hk, hmap, hparts, hnd, hin⟩ := ih (k + op.dests.length)
    let names := freshNames (op.dests.map fun d => d.name.text ++ "_sub") k
    let q : Part := ⟨op, c, width, bucketSize, ⟨op.dests, names, op.neutral, segments, width * bucketSize⟩⟩
    have hhead (l₀ : List Stmt) : makePart segments (op, c, width, bucketSize) l₀ k =
        some ((q, l₀), k + op.dests.length) := by
      have h := mapM_fresh (fun d : Destination => d.name.text ++ "_sub") op.dests k
      change (let r := (op.dests.mapM fun d => fresh (d.name.text ++ "_sub")) k
        some ((Part.mk op c width bucketSize ⟨op.dests, r.1, op.neutral, segments, width * bucketSize⟩, l₀), r.2)) = _
      rw [h]
    have hnames {n : Name} (hn : n ∈ names) : n.Within k (k + op.dests.length) := by
      have h := within_freshNames hn
      rwa [List.length_map] at h
    refine ⟨q :: parts, k', fun l₀ => ?_, by omega, by rw [List.map_cons, hmap], fun x hx => ?_, ?_, fun n hn => ?_⟩
    · rw [List.mapM_cons]
      change ((makePart segments (op, c, width, bucketSize) l₀ k).bind fun r =>
        ((l.mapM (makePart segments)) r.1.2 r.2).bind fun r' => some ((r.1.1 :: r'.1.1, r'.1.2), r'.2)) = _
      rw [hhead, Option.bind_some, hrun, Option.bind_some]
    · rcases List.mem_cons.1 hx with rfl | hx
      · exact ⟨rfl, rfl, rfl, rfl, by simp [q, names, length_freshNames]⟩
      · exact hparts x hx
    · rw [List.flatMap_cons]
      refine List.nodup_append.2 ⟨nodup_freshNames _ _, hnd, fun n hn m hm he => ?_⟩
      exact (hin m hm).not_before (he ▸ (hnames hn).before)
    · rw [List.flatMap_cons] at hn
      rcases List.mem_append.1 hn with hn | hn
      · exact (hnames hn).mono (Nat.le_refl k) hk
      · exact (hin n hn).mono (Nat.le_add_right _ _) (Nat.le_refl _)

/-! ## The plan -/

/-- what a plan stands for, in a launch of `n` groups of `g` threads; `X` are the names that are no sizes -/
structure Plan.Describes (p : Plan) (h : Histogram) (M : Histogram.Meaning) (o : Options) (k₀ k : ℕ) (X : List Name)
    (g n : ℕ) (s : State) : Prop where
  hist : p.hist = h
  lockCount : p.lockCount = o.lockCount
  groupSize : Quantity k X s p.groupSize g
  groupCount : Quantity k X s p.groupCount n
  threads : Quantity k X s p.threads (g * n)
  dims : p.segmentDims.map (·.1) = h.segmentDims.map (·.1)
  sizes : Sizes k X s (p.segmentDims.map (·.2)) M.segmentDims
  segments : Quantity k X s p.segments M.segments
  elements : Quantity k X s p.elements M.elements
  inputs : p.parts.map (fun q => (q.op, q.contribution)) = h.inputs
  parts : ∀ q ∈ p.parts, q.Stands h M k X s
  nodup : (p.parts.flatMap fun q => q.subs.subs).Nodup
  young : ∀ n ∈ p.parts.flatMap fun q => q.subs.subs, n.Within k₀ k

namespace Plan.Describes

variable {p : Plan} {h : Histogram} {M : Histogram.Meaning} {o : Options} {k₀ g n : ℕ} {X' : List Name}

theorem keep (hd : p.Describes h M o k₀ k X g n s) (hk : k ≤ k')
    (ht : ∀ n : Name, n.Before k → n ∉ X → t.vars.get? n = s.vars.get? n) : p.Describes h M o k₀ k' X g n t := by
  have hkeep {e : Expr} {a : ℕ} (h : Quantity k X s e a) : Quantity k' X t e a :=
    h.keep hk fun n hn => ht n (h.scalars n hn).1 (h.scalars n hn).2
  exact ⟨hd.hist, hd.lockCount, hkeep hd.groupSize, hkeep hd.groupCount, hkeep hd.threads, hd.dims,
    hd.sizes.imp fun _ _ => hkeep, hkeep hd.segments, hkeep hd.elements, hd.inputs,
    fun q hq => (hd.parts q hq).keep hk ht, hd.nodup, fun n hn => (hd.young n hn).mono (Nat.le_refl _) hk⟩

theorem widen (hd : p.Describes h M o k₀ k X g n s) (hX : ∀ n ∈ X', n ∈ X ∨ ¬ n.Before k) :
    p.Describes h M o k₀ k X' g n s :=
  ⟨hd.hist, hd.lockCount, hd.groupSize.widen hX, hd.groupCount.widen hX, hd.threads.widen hX, hd.dims,
    hd.sizes.imp fun _ _ he => he.widen hX, hd.segments.widen hX, hd.elements.widen hX, hd.inputs,
    fun q hq => (hd.parts q hq).widen hX, hd.nodup, hd.young⟩

theorem mem_inputs (hd : p.Describes h M o k₀ k X g n s) {q : Part} (hq : q ∈ p.parts) :
    (q.op, q.contribution) ∈ h.inputs := (hd.parts q hq).input

theorem exists_part (hd : p.Describes h M o k₀ k X g n s) {x : Operator × Contribution} (hx : x ∈ h.inputs) :
    ∃ q ∈ p.parts, (q.op, q.contribution) = x := by
  rw [← hd.inputs] at hx
  exact List.mem_map.1 hx

end Plan.Describes

section Plan

variable {h : Histogram} {M : Histogram.Meaning} {o : Options} {k₀ g n : ℕ}

/-- the names that a histogram does not use for sizes -/
def Histogram.reserved (h : Histogram) (A : List Name) : List Name :=
  h.locals ++ (h.destNames ++ h.mapNames ++ A)

theorem Histogram.Regular.read (hr : h.Regular k₀ R A) : ∀ n ∈ R, n.Before k₀ ∧ n ∉ h.reserved A :=
  fun n hn => ⟨hr.before n (List.mem_append_right _ hn), hr.not_mem_of_read hn⟩

theorem Histogram.Regular.reserved_before (hr : h.Regular k₀ R A) : ∀ n ∈ h.reserved A, n.Before k₀ :=
  fun n hn => hr.before n (List.mem_append_left _ hn)

/-- the dimensions of the segments -/
theorem segmentDims_works (hr : h.Regular k₀ R A) (hk : k₀ ≤ k)
    (hsizes : List.Forall₂ (Expr.IsSize s R) (h.segmentDims.map (·.2)) M.segmentDims) :
    Works f L c (h.segmentDims.mapM fun (n, size) => return (n, ← Emit.bindSize "segment_dim" size)) k s fun dims k' t =>
      (dims.map (·.1) = h.segmentDims.map (·.1) ∧ Sizes k' (h.reserved A) t (dims.map (·.2)) M.segmentDims) ∧
      t.memory = s.memory ∧ t.launched = s.launched := by
  have hread : ∀ n ∈ R, n.Before k ∧ n ∉ h.reserved A := fun n hn => ⟨(hr.read n hn).1.mono hk, (hr.read n hn).2⟩
  refine (Works.mapM (fun (a b : Name × Expr) k' t => b.1 = a.1 ∧
      ∀ m, a.2.IsSize s R m → Quantity k' (h.reserved A) t b.2 m) h.segmentDims
    (fun {a b k k' s' t} hP hk hf => ⟨hP.1, fun m hm => (hP.2 m hm).frame hk hf⟩)
    fun a ha k' t hk' hf _ _ => ?_).mono ?_
  · obtain ⟨i, hi⟩ := List.mem_iff_getElem?.1 ha
    have hi' : (h.segmentDims.map (·.2))[i]? = some a.2 := by rw [List.getElem?_map, hi]; rfl
    have hlt : i < M.segmentDims.length := by
      rw [← hsizes.length_eq]
      exact (List.getElem?_eq_some_iff.1 hi').1
    have hsize : a.2.IsSize s R M.segmentDims[i] := by
      have h := hsizes.get (i := i) (List.getElem?_eq_some_iff.1 hi').1 hlt
      rwa [List.get_eq_getElem, (List.getElem?_eq_some_iff.1 hi').2] at h
    have hq : Quantity k' (h.reserved A) t a.2 M.segmentDims[i] := (hsize.quantity hread).frame hk' hf
    refine Works.bind (Works.bindSize "segment_dim" (X := h.reserved A)
      (fun n hn => (hr.reserved_before n hn).mono (hk.trans hk')) fun f => hq.computes f c) ?_
    rintro e k'' u hk'' hf' ⟨he, hm, hl⟩
    exact Works.pure ⟨⟨rfl, fun m hm => hsize.unique hm ▸ he⟩, hm, hl⟩
  · rintro dims k' t - - ⟨⟨hlen, hdims⟩, hm, hl⟩
    refine ⟨⟨List.ext_getElem? fun i => ?_, List.forall₂_iff_get.2 ⟨?_, fun i hi hi' => ?_⟩⟩, hm, hl⟩
    · rw [List.getElem?_map, List.getElem?_map]
      by_cases hi : i < dims.length
      · have hz : (h.segmentDims.zip dims)[i]? = some (h.segmentDims.get ⟨i, hlen ▸ hi⟩, dims[i]) :=
          List.getElem?_zip_eq_some.2 ⟨List.getElem?_eq_getElem (hlen ▸ hi), List.getElem?_eq_getElem hi⟩
        rw [List.getElem?_eq_getElem hi, List.getElem?_eq_getElem (hlen ▸ hi), Option.map_some, Option.map_some,
          (hdims _ (List.mem_of_getElem? hz)).1, List.get_eq_getElem]
      · rw [List.getElem?_eq_none (by omega), List.getElem?_eq_none (by omega)]
    · rw [← hsizes.length_eq, List.length_map, List.length_map, hlen]
    · have hd : i < dims.length := by simpa using hi
      have hz : (h.segmentDims.zip dims)[i]? = some (h.segmentDims.get ⟨i, hlen ▸ hd⟩, dims[i]) :=
        List.getElem?_zip_eq_some.2 ⟨List.getElem?_eq_getElem (hlen ▸ hd), List.getElem?_eq_getElem hd⟩
      have hsize := hsizes.get (i := i) (by simpa [hlen] using hd) hi'
      simp only [List.get_eq_getElem, List.getElem_map] at hsize ⊢
      exact (hdims _ (List.mem_of_getElem? hz)).2 _ hsize

/-- **Planning.** The code that computes the sizes runs, and the plan stands for what the histogram means. -/
theorem plan_works (hr : h.Regular k₀ R A) (he : h.HasValues M c s R) (hspace : ProductsFit M.segmentDims)
    (hshapes : ∀ op ∈ h.operators, ProductsFit (M.shape op)) (hsizes : ∀ op ∈ h.operators, Word64.fits (M.size op : ℕ) = true)
    (hc : c.thread = none)
    (hg : (o.groupSize.orElse fun _ => c.sizes h.groupSizeId) = some (g : Int))
    (hn : (o.groupCount.orElse fun _ => c.sizes h.groupCountId) = some (n : Int)) (hg0 : 0 < g) (hn0 : 0 < n)
    (hthreads : Word64.fits (g * n : ℕ) = true) :
    Works f L c (h.plan o) k₀ s fun p k t =>
      p.Describes h M o k₀ k (h.reserved A ++ p.parts.flatMap fun q => q.subs.subs) g n t ∧
      t.memory = s.memory ∧ t.launched = s.launched := by
  have hX {k : ℕ} (hk : k₀ ≤ k) : ∀ n ∈ h.reserved A, n.Before k := fun n hn => (hr.reserved_before n hn).mono hk
  have hsize {e : Expr} {a k : ℕ} {t : State} (he : e.IsSize s R a) (hk : k₀ ≤ k) (hf : Frame k₀ s t) :
      Quantity k (h.reserved A) t e a := (he.quantity hr.read).frame hk hf
  unfold Histogram.plan
  refine Works.bind (Works.bindSize "group_size" (hX (Nat.le_refl _)) fun f =>
    fixedOrOpen_computes hc hg (Word64.fits_le hthreads (Nat.le_mul_of_pos_right _ hn0))) ?_
  rintro e₁ k₁ t₁ hk₁ hf₁ ⟨h₁, hm₁, hl₁⟩
  refine Works.bind (Works.bindSize "num_groups" (hX hk₁) fun f =>
    fixedOrOpen_computes hc hn (Word64.fits_le hthreads (Nat.le_mul_of_pos_left _ hg0))) ?_
  rintro e₂ k₂ t₂ hk₂ hf₂ ⟨h₂, hm₂, hl₂⟩
  have hk₀₂ := hk₁.trans hk₂
  refine Works.bind (Works.bindSize "total_threads" (hX hk₀₂) fun f =>
    (((h₁.frame hk₂ hf₂).mul h₂ hthreads).computes f c)) ?_
  rintro e₃ k₃ t₃ hk₃ hf₃ ⟨h₃, hm₃, hl₃⟩
  have hk₀₃ := hk₀₂.trans hk₃
  have hF₃ : Frame k₀ s t₃ := (hf₁.trans hf₂ hk₁).trans hf₃ hk₀₂
  refine Works.bind (segmentDims_works (M := M) hr hk₀₃ (he.segmentDims.imp fun _ _ hi =>
    hi.transfer fun n hn => hF₃ n (hr.read n hn).1)) ?_
  rintro dims k₄ t₄ hk₄ hf₄ ⟨⟨hnames, h₄⟩, hm₄, hl₄⟩
  have hk₀₄ := hk₀₃.trans hk₄
  refine Works.bind (Works.bindSize "segments" (hX hk₀₄) fun f =>
    (Quantity.product h₄ hspace).computes f c) ?_
  rintro e₅ k₅ t₅ hk₅ hf₅ ⟨h₅, hm₅, hl₅⟩
  have hk₀₅ := hk₀₄.trans hk₅
  have hF₅ : Frame k₀ s t₅ := (hF₃.trans hf₄ hk₀₃).trans hf₅ hk₀₄
  obtain ⟨x, hx⟩ : ∃ x, h.elementDim? = some x := by
    unfold Histogram.elementDim?
    exact Option.isSome_iff_exists.1 (by simpa using (Histogram.validate_ok hr.valid).1)
  rw [hx]
  refine Works.bind (Works.bindSize "segment_size" (hX hk₀₅) fun f => (hsize (he.elements x hx) hk₀₅ hF₅).computes f c) ?_
  rintro e₆ k₆ t₆ hk₆ hf₆ ⟨h₆, hm₆, hl₆⟩
  have hk₀₆ := hk₀₅.trans hk₆
  have hF₆ := hF₅.trans hf₆ hk₀₅
  refine Works.bind (Works.mapM (fun op e k t => Quantity k (h.reserved A) t e (M.width op)) h.operators
    (fun hP hk hf => hP.frame hk hf) fun op hop k t hk hf hm hl => Works.bindSize "width" (hX (hk₀₆.trans hk)) fun f =>
      (hsize (he.width op hop) (hk₀₆.trans hk) (hF₆.trans hf hk₀₆)).computes f c) ?_
  rintro widths k₇ t₇ hk₇ hf₇ ⟨⟨hwlen, hwidths⟩, hm₇, hl₇⟩
  have hk₀₇ := hk₀₆.trans hk₇
  have hF₇ := hF₆.trans hf₇ hk₀₆
  have hbucket {op : Operator} (hop : op ∈ h.operators) {k : ℕ} {t : State} (hk : k₀ ≤ k) (hf : Frame k₀ s t) :
      Quantity k (h.reserved A) t op.bucketSize (M.bucketSize op) :=
    Quantity.product ((he.shape op hop).imp fun _ _ hi => hsize hi hk hf) (hshapes op hop)
  refine Works.bind (Works.mapM (fun op e k t => Quantity k (h.reserved A) t e (M.bucketSize op)) h.operators
    (fun hP hk hf => hP.frame hk hf) fun op hop k t hk hf hm hl => Works.bindSize "vector_size" (hX (hk₀₇.trans hk)) fun f =>
      (hbucket hop (hk₀₇.trans hk) (hF₇.trans hf hk₀₇)).computes f c) ?_
  rintro buckets k₈ t₈ hk₈ hf₈ ⟨⟨hblen, hbuckets⟩, hm₈, hl₈⟩
  have hk₀₈ := hk₀₇.trans hk₈
  have hF₈ := hF₇.trans hf₈ hk₀₇
  obtain ⟨parts, k₉, hrun, hk₉, hmap, hparts, hnd, hin⟩ :=
    makeParts_spec e₅ (h.operators.zip (h.contributions.zip (widths.zip buckets))) k₈
  have hmem : t₈.memory = s.memory := hm₈.trans (hm₇.trans (hm₆.trans (hm₅.trans (hm₄.trans (hm₃.trans (hm₂.trans hm₁))))))
  have hlaunched : t₈.launched = s.launched :=
    hl₈.trans (hl₇.trans (hl₆.trans (hl₅.trans (hl₄.trans (hl₃.trans (hl₂.trans hl₁))))))
  refine Works.bind (Q := fun ps k t => parts = ps ∧ k₉ = k ∧ t₈ = t) (Works.silent hrun hk₉ ⟨rfl, rfl, rfl⟩) ?_
  rintro _ _ _ - - ⟨rfl, rfl, rfl⟩
  refine Works.pure ⟨?_, hmem, hlaunched⟩
  -- the names of the new arrays are younger than all sizes
  have hf₂₈ : Frame k₂ t₂ t₈ := (hf₃.trans (hf₄.trans (hf₅.trans (hf₆.trans (hf₇.trans hf₈ hk₇) hk₆) hk₅) hk₄) hk₃)
  have hf₃₈ : Frame k₃ t₃ t₈ := (hf₄.trans (hf₅.trans (hf₆.trans (hf₇.trans hf₈ hk₇) hk₆) hk₅) hk₄)
  have hf₅₈ : Frame k₅ t₅ t₈ := hf₆.trans (hf₇.trans hf₈ hk₇) hk₆
  have hk₅₈ : k₅ ≤ k₈ := hk₆.trans (hk₇.trans hk₈)
  have hk₄₈ : k₄ ≤ k₈ := hk₅.trans hk₅₈
  have hk₃₈ : k₃ ≤ k₈ := hk₄.trans hk₄₈
  have hk₂₈ : k₂ ≤ k₈ := hk₃.trans hk₃₈
  have hsegments : Quantity k₈ (h.reserved A) t₈ e₅ M.segments := h₅.frame hk₅₈ hf₅₈
  have hinputs : parts.map (fun q => (q.op, q.contribution)) = h.inputs := by
    have hsized : h.contributions.length ≤ (widths.zip buckets).length := by
      rw [List.length_zip, hwlen, hblen, hr.contributions_length, Nat.min_self]
    have h := congrArg (List.map fun x : PartInput => (x.1, x.2.1)) hmap
    rw [List.map_map] at h
    rw [Histogram.inputs, ← List.map_fst_zip hsized, List.zip_map_right]
    exact h
  have hstands : ∀ q ∈ parts, q.Stands h M k₈ (h.reserved A) t₈ := by
    intro q hq
    have hz : (q.op, q.contribution, q.width, q.bucketSize) ∈
        h.operators.zip (h.contributions.zip (widths.zip buckets)) := hmap ▸ List.mem_map.2 ⟨q, hq, rfl⟩
    obtain ⟨i, hi⟩ := List.mem_iff_getElem?.1 hz
    obtain ⟨hop, hi⟩ := List.getElem?_zip_eq_some.1 hi
    obtain ⟨hcon, hi⟩ := List.getElem?_zip_eq_some.1 hi
    obtain ⟨hw, hb⟩ := List.getElem?_zip_eq_some.1 hi
    have hopmem : q.op ∈ h.operators := List.mem_of_getElem? hop
    have hwidth : Quantity k₈ (h.reserved A) t₈ q.width (M.width q.op) :=
      (hwidths (q.op, q.width) (List.mem_of_getElem? (List.getElem?_zip_eq_some.2 ⟨hop, hw⟩))).frame hk₈ hf₈
    have hbuck : Quantity k₈ (h.reserved A) t₈ q.bucketSize (M.bucketSize q.op) :=
      hbuckets (q.op, q.bucketSize) (List.mem_of_getElem? (List.getElem?_zip_eq_some.2 ⟨hop, hb⟩))
    obtain ⟨hdests, hneutral, hseg, hsz, hlen⟩ := hparts q hq
    exact ⟨List.mem_of_getElem? (List.getElem?_zip_eq_some.2 ⟨hop, hcon⟩), hwidth, hbuck,
      (he.shape q.op hopmem).imp fun _ _ hi => hsize hi hk₀₈ hF₈, hdests, hlen, hneutral, hseg ▸ hsegments,
      hsz ▸ hwidth.mul hbuck (hsizes _ hopmem)⟩
  have hwide {e : Expr} {a : ℕ} (h' : Quantity k₈ (h.reserved A) t₈ e a) :
      Quantity k₉ (h.reserved A ++ parts.flatMap fun q => q.subs.subs) t₈ e a :=
    (h'.widen fun n hn => (List.mem_append.1 hn).imp_right fun hm => (hin n hm).not_before).keep hk₉ fun _ _ => rfl
  exact
    { hist := rfl, lockCount := rfl
      groupSize := hwide ((h₁.frame hk₂ hf₂).frame hk₂₈ hf₂₈)
      groupCount := hwide (h₂.frame hk₂₈ hf₂₈)
      threads := hwide (h₃.frame hk₃₈ hf₃₈)
      dims := hnames
      sizes := h₄.imp fun _ _ hd => hwide ((hd.frame hk₅ hf₅).frame hk₅₈ hf₅₈)
      segments := hwide hsegments
      elements := hwide (h₆.frame (hk₇.trans hk₈) (hf₇.trans hf₈ hk₇))
      inputs := hinputs
      parts := fun q hq => ((hstands q hq).widen fun n hn =>
        (List.mem_append.1 hn).imp_right fun hm => (hin n hm).not_before).keep hk₉ fun _ _ _ => rfl
      nodup := hnd
      young := fun n hn => (hin n hn).mono hk₀₈ (Nat.le_refl _) }

end Plan

end GpuHistogram
