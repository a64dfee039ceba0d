/-
What a strategy is given and what it has to achieve. `Histogram.Given` says what the arrays hold before the code of a
histogram runs, `Histogram.Computed` what they hold afterwards: every place of a destination the tuple it held, combined
with the values of exactly the elements that go there, and every map result at the number of its element. How a histogram
is computed, by how many threads and in how many copies, does not show in it.

Both strategies make copies before their kernels and merge them afterwards: `allocated_works`, `finished_works`. In between
the copies are `Plan.Allocated`: they are kept apart by their names and by their buffers from what else is used.
-/
import GpuHistogram.Proofs.Kernels

namespace GpuHistogram

open Machine

variable {f : Form} {L : LaunchSpec → List Stmt → Exec Unit} {c : Context} {s t : State} {k k₀ k' g n : ℕ}
  {X X' A R : List Name} {m m' : Memory}

namespace Histogram

variable {h : Histogram} {M : Meaning}

/-- the arrays that a histogram writes -/
def written (h : Histogram) : List Name := h.destNames ++ h.mapNames

/-- what arrays hold: the tuples of the destinations, and the lengths and values of the arrays for map results -/
structure Contents where
  dest : (op : Operator) → ℕ → Tuple op.scalars
  mapLength : ℕ → ℕ
  mapValue : ℕ → ℕ → Value

variable {B : Contents}

/-- the arrays of a histogram before it is computed: they hold `B` and share no buffers, nor do they share one with an
array that is read -/
structure Given (h : Histogram) (M : Meaning) (B : Contents) (A : List Name) (m : Memory) : Prop where
  dests : ∀ op ∈ h.operators, m.Table (op.dests.map (·.name)) op.scalars (M.segments * M.size op) (B.dest op)
  maps : ∀ (i : ℕ) mo, h.maps[i]? = some mo → m.Column mo.dest.name mo.dest.elem (B.mapLength i) (B.mapValue i)
  mapLength : ∀ i < h.maps.length, M.total ≤ B.mapLength i
  unaliased : m.Unaliased h.written
  reads : ∀ x ∈ A, (∃ p b, m.Has x p b) ∧ m.Apart h.written x

/-- the arrays of a histogram after it is computed -/
structure Computed (h : Histogram) (M : Meaning) (B : Contents) (m : Memory) : Prop where
  dests : ∀ x ∈ h.inputs, m.Table (x.1.dests.map (·.name)) x.1.scalars (M.segments * M.size x.1) fun a =>
    M.gathered x.1 x.2 (B.dest x.1) a M.total
  maps : ∀ (i : ℕ) mo, h.maps[i]? = some mo → m.Column mo.dest.name mo.dest.elem (B.mapLength i) fun a =>
    if a < M.total then (M.mapped mo a).convert mo.dest.elem else B.mapValue i a

/-- the arrays of a histogram after its code has run: the map results are stored, and a destination is computed if the tuples
of its operator may be combined in any copies -/
structure Accumulated (h : Histogram) (M : Meaning) (B : Contents) (m : Memory) : Prop where
  dests : ∀ x ∈ h.inputs, ∃ T, m.Table (x.1.dests.map (·.name)) x.1.scalars (M.segments * M.size x.1) T ∧
    (M.Merges x.1 → ∀ a < M.segments * M.size x.1, T a = M.gathered x.1 x.2 (B.dest x.1) a M.total)
  maps : ∀ (i : ℕ) mo, h.maps[i]? = some mo → m.Column mo.dest.name mo.dest.elem (B.mapLength i) fun a =>
    if a < M.total then (M.mapped mo a).convert mo.dest.elem else B.mapValue i a

theorem Accumulated.computed (ha : h.Accumulated M B m) (hm : ∀ op ∈ h.operators, M.Merges op) : h.Computed M B m where
  dests := fun x hx => by
    obtain ⟨T, hT, hvals⟩ := ha.dests x hx
    exact hT.congr fun a ha => hvals (hm _ (Regular.op_mem hx)) a ha
  maps := ha.maps

theorem Given.mapsStored (hB : h.Given M B A m) : MapsStored h M B.mapLength B.mapValue (· < 0) m :=
  fun i mo hmo => (hB.maps i mo hmo).congr fun a _ => by simp [mapContent, hmo]

theorem Accumulated.of_mapsStored {m : Memory} (hm : MapsStored h M B.mapLength B.mapValue (· < M.total) m) {i : ℕ}
    {mo : MapOutput} (hmo : h.maps[i]? = some mo) : m.Column mo.dest.name mo.dest.elem (B.mapLength i) fun a =>
      if a < M.total then (M.mapped mo a).convert mo.dest.elem else B.mapValue i a :=
  (hm i mo hmo).congr fun a _ => by simp only [mapContent, hmo]

/-- the names of all arrays but those of the histogram may change, as when others are freed -/
theorem Accumulated.of_names (ha : h.Accumulated M B m) (hb : m'.buffers = m.buffers)
    (hn : ∀ x ∈ h.written, m'.names.get? x = m.names.get? x) : h.Accumulated M B m' := by
  have hhas {x : Name} (hx : x ∈ h.written) {i : ℕ} {b : Buffer} (hb' : m.Has x i b) : m'.Has x i b :=
    ⟨(hn x hx).trans hb'.name, by rw [hb]; exact hb'.buffer⟩
  refine ⟨fun x hx => ?_, fun i mo hmo => ?_⟩
  · obtain ⟨T, hT, hvals⟩ := ha.dests x hx
    have hdest {y : Name} (hy : y ∈ x.1.dests.map (·.name)) : y ∈ h.written :=
      List.mem_append_left _ (List.mem_flatMap.2 ⟨x.1, Regular.op_mem hx, hy⟩)
    refine ⟨T, ⟨hT.length_eq, fun i n sc hi hsc => ?_, hT.unaliased.imp_of_mem fun hy hy' hyy j hj => ?_⟩, hvals⟩
    · obtain ⟨j, b, hb', hrest⟩ := hT.column i n sc hi hsc
      exact ⟨j, b, hhas (hdest (List.mem_of_getElem? hi)) hb', hrest⟩
    · rw [hn _ (hdest hy)] at hj
      rw [hn _ (hdest hy')]
      exact hyy j hj
  · obtain ⟨j, b, hb', hrest⟩ := ha.maps i mo hmo
    exact ⟨j, b, hhas (List.mem_append_right _ (List.mem_map_of_mem (List.mem_of_getElem? hmo))) hb', hrest⟩

/-- what expressions mean does not depend on younger variables -/
theorem Means.widen (hM : h.Means M k X A s) (hX : ∀ x ∈ X', x ∈ X ∨ ¬ x.Before k) : h.Means M k X' A s := by
  have hsees {t : State} (ht : Sees k X' A s t) : Sees k X A s t :=
    ⟨fun x hx hxX => ht.vars x hx fun hm => (hX x hm).elim hxX fun hb => hb hx, ht.arrays⟩
  exact ⟨fun x hx e he f c t ht => hM.bucket x hx e he f c t (hsees ht), fun x hx e he r hr f c t ht =>
    hM.value x hx e he r hr f c t (hsees ht), fun mo hmo e he f c t ht => hM.mapped mo hmo e he f c t (hsees ht),
    fun op hop f c t ht => hM.combine op hop f c t (hsees ht), fun op hop f c t ht => hM.neutral op hop f c t (hsees ht)⟩

theorem Scope.widen (hs : h.Scope k R A X s) (hXX : X ⊆ X') (hX : ∀ x ∈ X', x ∈ X ∨ ¬ x.Before k) : h.Scope k R A X' s :=
  ⟨fun x hx => hXX (hs.locals x hx), fun x hx => hXX (hs.arrays x hx), fun x hx =>
    ⟨(hs.reads x hx).1, fun hm => (hX x hm).elim (hs.reads x hx).2.1 fun hb => hb (hs.reads x hx).1, (hs.reads x hx).2.2⟩⟩

end Histogram

namespace Plan

variable {p : Plan} {h : Histogram} {M : Histogram.Meaning} {o : Options} {B : Histogram.Contents} {count : Part → ℕ}
  {T T' : (q : Part) → ℕ → Tuple q.op.scalars}

/-! ## The stage later on -/

theorem Stage.keep (hst : p.Stage h M o R A X c k₀ k g n s) (hk : k ≤ k') (hf : Frame k s t)
    (hA : ∀ x ∈ A, ∀ i, t.memory.read x i = s.memory.read x i) : p.Stage h M o R A X c k₀ k' g n t where
  regular := hst.regular
  shapes := hst.shapes
  older := hst.older.trans hk
  plan := hst.plan.keep hk fun x hx _ => hf x hx
  scope := hst.scope.keep hk hf
  below := fun x hx => (hst.below x hx).mono hk
  means := hst.means.later ⟨fun x hx _ => hf x hx, hA⟩ hk
  total := hst.total
  rounds := hst.rounds

/-- what a host step that makes new arrays or works on others leaves of an array -/
theorem Stage.frames {W W' : List Name} (hst : p.Stage h M o R A X c k₀ k g n s) (hk : k ≤ k') (hf : Frame k s t)
    (hframes : Memory.Frames W W' s.memory t.memory) (hA : Readable A W W' s.memory) : p.Stage h M o R A X c k₀ k' g n t :=
  hst.keep hk hf (hA.sees (X := X) hf hframes).arrays

/-- more names that are no sizes, as they are younger -/
theorem Stage.widen (hst : p.Stage h M o R A X c k₀ k g n s) (hk : k ≤ k') (hXX : X ⊆ X')
    (hX : ∀ x ∈ X', x ∈ X ∨ x.Within k k') : p.Stage h M o R A X' c k₀ k' g n s := by
  have hX' : ∀ x ∈ X', x ∈ X ∨ ¬ x.Before k := fun x hx => (hX x hx).imp_right Name.Within.not_before
  exact
    { regular := hst.regular
      shapes := hst.shapes
      older := hst.older.trans hk
      plan := (hst.plan.widen hX').keep hk fun _ _ _ => rfl
      scope := (hst.scope.widen hXX hX').keep hk fun _ _ => rfl
      below := fun x hx => (hX x hx).elim (fun hx => (hst.below x hx).mono hk) Name.Within.before
      means := (hst.means.widen hX').later (.refl _ _ _ _) hk
      total := hst.total
      rounds := hst.rounds }

/-! ## The arrays of the parts -/

/-- the arrays of copies of a plan -/
def copyNames (p : Plan) : List Name := p.parts.flatMap (·.subs.subs)

/-- the names of a plan that are no sizes -/
def reserved (p : Plan) (A : List Name) : List Name := p.hist.reserved A ++ p.copyNames

namespace Describes

theorem operators_eq (hd : p.Describes h M o k₀ k X g n s) (hr : h.Regular k₀ R A) : p.parts.map (·.op) = h.operators := by
  have heq := congrArg (List.map Prod.fst) hd.inputs
  rw [List.map_map, Histogram.inputs, List.map_fst_zip hr.contributions_length.ge] at heq
  exact heq

theorem flatMap_destNames (hd : p.Describes h M o k₀ k X g n s) (hr : h.Regular k₀ R A) :
    p.parts.flatMap Part.destNames = h.destNames := by
  rw [Histogram.destNames, ← hd.operators_eq hr, List.flatMap_map]
  rfl

theorem destNames_subset (hd : p.Describes h M o k₀ k X g n s) {q : Part} (hq : q ∈ p.parts) : q.destNames ⊆ h.destNames :=
  fun _ hx => List.mem_flatMap.2 ⟨q.op, (hd.parts q hq).op_mem, hx⟩

/-- the names of the arrays of a part are those of its destinations, or younger than the histogram -/
theorem arrays_cases (hd : p.Describes h M o k₀ k X g n s) {q : Part} (hq : q ∈ p.parts) {x : Name} (hx : x ∈ q.arrays) :
    x.Within k₀ k ∧ x ∈ q.subs.subs ∨ x ∈ q.destNames :=
  (List.mem_append.1 hx).imp_left fun hx => ⟨hd.young x (List.mem_flatMap.2 ⟨q, hq, hx⟩), hx⟩

theorem not_copy (hd : p.Describes h M o k₀ k X g n s) {q : Part} (hq : q ∈ p.parts) {x : Name} (hx : x.Before k₀) :
    x ∉ q.subs.subs := fun hm => (hd.young x (List.mem_flatMap.2 ⟨q, hq, hm⟩)).not_before hx

theorem before_written (hr : h.Regular k₀ R A) {x : Name} (hx : x ∈ h.written ++ A) : x.Before k₀ :=
  hr.before x (List.mem_append_left _ (List.mem_append_right _ hx))

/-- the arrays of different parts have different names -/
theorem distinct (hd : p.Describes h M o k₀ k X g n s) (hr : h.Regular k₀ R A) : p.parts.Pairwise Part.Distinct := by
  have hcopies := List.pairwise_flatMap.1 hd.nodup
  have hdests : (p.parts.flatMap Part.destNames).Nodup := by
    rw [hd.flatMap_destNames hr]
    exact hr.distinct.of_append_left.of_append_right.of_append_left.of_append_left
  have hdests := List.pairwise_flatMap.1 hdests
  refine (hcopies.2.and hdests.2).imp_of_mem fun {q q'} hq hq' hpair x hx hx' => ?_
  have hold {q : Part} (hq : q ∈ p.parts) (hx : x ∈ q.destNames) : x.Before k₀ :=
    before_written hr (by simp [Histogram.written, hd.destNames_subset hq hx])
  rcases hd.arrays_cases hq' hx with ⟨hyoung, hx⟩ | hx
  · rcases hd.arrays_cases hq hx' with ⟨-, hx'⟩ | hx'
    · exact hpair.1 x hx' x hx rfl
    · exact hyoung.not_before (hold hq hx')
  · rcases hd.arrays_cases hq hx' with ⟨hyoung, -⟩ | hx'
    · exact hyoung.not_before (hold hq' hx)
    · exact hpair.2 x hx' x hx rfl

/-- no destination is an array of copies of its part -/
theorem dest_not_copy (hd : p.Describes h M o k₀ k X g n s) (hr : h.Regular k₀ R A) {q : Part} (hq : q ∈ p.parts) :
    ∀ x ∈ q.destNames, x ∉ q.subs.subs := fun x hx =>
  hd.not_copy hq (before_written hr (by simp [Histogram.written, hd.destNames_subset hq hx]))

end Describes

/-! ## Making and merging the copies -/

/-- the arrays of the parts of a plan -/
def arrays (p : Plan) : List Name := p.parts.flatMap Part.arrays

theorem copyNames_subset (p : Plan) : p.copyNames ⊆ p.arrays := fun x hx => by
  obtain ⟨q, hq, hx⟩ := List.mem_flatMap.1 hx
  exact List.mem_flatMap.2 ⟨q, hq, List.mem_append_left _ hx⟩

/-- the arrays of copies are made: they hold `T`, and share no buffers with what else the histogram uses -/
structure Allocated (p : Plan) (h : Histogram) (M : Histogram.Meaning) (A : List Name) (count : Part → ℕ)
    (T : (q : Part) → ℕ → Tuple q.op.scalars) (m : Memory) : Prop where
  ready : ∀ q ∈ p.parts, q.Ready M.segments (M.size q.op) (count q) (T q) m
  separate : p.parts.Pairwise (Part.Separate m)
  maps : ∀ x ∈ h.mapNames, (∃ i b, m.Has x i b) ∧ m.Apart p.arrays x
  mapsUnaliased : m.Unaliased h.mapNames
  reads : ∀ x ∈ A, (∃ i b, m.Has x i b) ∧ m.Apart (p.arrays ++ h.mapNames) x

namespace Allocated

variable (ha : p.Allocated h M A count T m)
include ha

theorem has {x : Name} (hx : x ∈ p.arrays) : ∃ i b, m.Has x i b := by
  obtain ⟨q, hq, hx⟩ := List.mem_flatMap.1 hx
  exact (ha.ready q hq).has hx

/-- what changes no names, and leaves the destinations of all parts with copies alone -/
theorem keeps {W : List Name} (hk : Memory.Keeps W m m')
    (hT : ∀ q ∈ p.parts, m'.Table q.subs.subs q.op.scalars (M.segments * count q * M.size q.op) (T' q))
    (hW : ∀ q ∈ p.parts, count q ≠ 1 → ∀ x ∈ q.destNames, m.Apart W x) : p.Allocated h M A count T' m' where
  ready := fun q hq => (ha.ready q hq).keeps hk (hT q hq) (hW q hq)
  separate := ha.separate.imp fun hqq x hx => (hqq x hx).keeps hk
  maps := fun x hx => by
    obtain ⟨⟨i, b, hb⟩, hap⟩ := ha.maps x hx
    obtain ⟨b', hb', -⟩ := hk.shape hb.buffer
    exact ⟨⟨i, b', by rw [hk.names, hb.name], hb'⟩, hap.keeps hk⟩
  mapsUnaliased := by
    have hun := ha.mapsUnaliased
    rwa [Memory.Unaliased, ← hk.names] at hun
  reads := fun x hx => by
    obtain ⟨⟨i, b, hb⟩, hap⟩ := ha.reads x hx
    obtain ⟨b', hb', -⟩ := hk.shape hb.buffer
    exact ⟨⟨i, b', by rw [hk.names, hb.name], hb'⟩, hap.keeps hk⟩

/-- a new array changes nothing -/
theorem grown {ns : List Name} (he : Memory.Extends ns m m') (hp : ∀ x ∈ p.arrays ++ h.mapNames ++ A, x ∉ ns) :
    p.Allocated h M A count T m' := by
  simp only [List.mem_append] at hp
  have hname {x : Name} (hx : x ∈ p.arrays) : m'.names.get? x = m.names.get? x := he.names x (hp x (.inl (.inl hx)))
  have hin {q : Part} (hq : q ∈ p.parts) {x : Name} (hx : x ∈ q.arrays) : x ∈ p.arrays := List.mem_flatMap.2 ⟨q, hq, hx⟩
  refine ⟨fun q hq => (ha.ready q hq).frames (W := []) he.frames fun x hx => ⟨?_, fun _ hw => absurd hw List.not_mem_nil⟩,
    ha.separate.imp_of_mem fun hq hq' hqq x hx => (hqq x hx).of_names (hname (hin hq' hx)) fun w hw => hname (hin hq hw),
    fun x hx => ?_, ha.mapsUnaliased.imp_of_mem fun {x y} hx hy hxy i hi => ?_, fun x hx => ?_⟩
  · rw [List.append_nil]
    exact hp x (.inl (.inl (hin hq hx)))
  · obtain ⟨⟨i, b, hb⟩, hap⟩ := ha.maps x hx
    exact ⟨⟨i, b, he.has hb (hp x (.inl (.inr hx)))⟩, hap.of_names (he.names x (hp x (.inl (.inr hx)))) fun w hw => hname hw⟩
  · rw [he.names x (hp x (.inl (.inr hx)))] at hi
    rw [he.names y (hp y (.inl (.inr hy)))]
    exact hxy i hi
  · obtain ⟨⟨i, b, hb⟩, hap⟩ := ha.reads x hx
    refine ⟨⟨i, b, he.has hb (hp x (.inr hx))⟩, hap.of_names (he.names x (hp x (.inr hx))) fun w hw => ?_⟩
    exact (List.mem_append.1 hw).elim hname fun hw => he.names w (hp w (.inl (.inr hw)))

/-- the destinations of a part with copies share no buffer with what kernels write -/
theorem dest_apart {q : Part} (hq : q ∈ p.parts) (hone : count q ≠ 1) :
    ∀ x ∈ q.destNames, m.Apart (h.mapNames ++ p.copyNames) x := by
  intro x hx w hw i hi hi'
  have hxa : x ∈ q.arrays := List.mem_append_right _ hx
  rcases List.mem_append.1 hw with hw | hw
  · exact (ha.maps w hw).2 x (List.mem_flatMap.2 ⟨q, hq, hxa⟩) i hi' hi
  · obtain ⟨q', hq', hw⟩ := List.mem_flatMap.1 hw
    by_cases hqq : q' = q
    · subst hqq
      exact (ha.ready _ hq).apart hone x hx w hw i hi hi'
    · have hsym : Std.Symm (Part.Separate m) := ⟨fun _ _ h x hx w hw i hi hi' => h w hw x hx i hi' hi⟩
      exact (ha.separate.forall hq' hq hqq) x hxa w (List.mem_append_left _ hw) i hi hi'

/-- the arrays that kernels write share no buffers -/
theorem unaliased : m.Unaliased (h.mapNames ++ p.copyNames) := by
  refine List.pairwise_append.2 ⟨ha.mapsUnaliased, List.pairwise_flatMap.2 ⟨fun q hq => (ha.ready q hq).copies.unaliased,
    ha.separate.imp fun hqq x hx y hy i hi hi' => ?_⟩, fun x hx y hy i hi hi' => ?_⟩
  · exact hqq y (List.mem_append_left _ hy) x (List.mem_append_left _ hx) i hi' hi
  · obtain ⟨q, hq, hy⟩ := List.mem_flatMap.1 hy
    exact (ha.maps x hx).2 y (List.mem_flatMap.2 ⟨q, hq, List.mem_append_left _ hy⟩) i hi hi'

/-- a new array shares no buffer with what the histogram uses -/
theorem apart_new {ns : List Name}
    (he : Memory.Extends ns m m') (hp : ∀ x ∈ p.arrays ++ h.mapNames ++ A, x ∉ ns) :
    ∀ x ∈ p.arrays ++ h.mapNames ++ A, m'.Apart ns x := by
  intro x hx
  obtain ⟨i, b, hb⟩ : ∃ i b, m.Has x i b := by
    rcases List.mem_append.1 hx with hx | hx
    · exact (List.mem_append.1 hx).elim ha.has fun hx => (ha.maps x hx).1
    · exact (ha.reads x hx).1
  exact he.apart hb (hp x hx)

/-- the arrays that kernels write share no buffers with new ones, nor do those that are read -/
theorem targets {ns : List Name}
    (he : Memory.Extends ns m m') (hp : ∀ x ∈ p.arrays ++ h.mapNames ++ A, x ∉ ns) :
    m'.Unaliased (h.mapNames ++ ns ++ p.copyNames) ∧ ∀ x ∈ A, m'.Apart (h.mapNames ++ ns ++ p.copyNames) x := by
  have ha' := ha.grown he hp
  have hcopy := copyNames_subset p
  have hnew {x : Name} (hx : x ∈ p.arrays ++ h.mapNames ++ A) : m'.Apart ns x := ha.apart_new he hp x hx
  obtain ⟨hmaps, hcopies, hcross⟩ := List.pairwise_append.1 ha'.unaliased
  refine ⟨List.pairwise_append.2 ⟨List.pairwise_append.2 ⟨hmaps, he.unaliased, fun x hx y hy i hi hi' => ?_⟩, hcopies,
    fun x hx y hy i hi hi' => ?_⟩, fun x hx w hw i hi hi' => ?_⟩
  · exact hnew (by simp [hx]) y hy i hi hi'
  · rcases List.mem_append.1 hx with hx | hx
    · exact hcross x hx y hy i hi hi'
    · exact hnew (by simp [hcopy hy]) x hx i hi' hi
  · rcases List.mem_append.1 hw with hw | hw
    · rcases List.mem_append.1 hw with hw | hw
      · exact (ha'.reads x hx).2 w (List.mem_append_right _ hw) i hi hi'
      · exact hnew (by simp [hx]) w hw i hi hi'
    · exact (ha'.reads x hx).2 w (List.mem_append_left _ (hcopy hw)) i hi hi'

/-- **A kernel.** New arrays are made, and nothing but these, the copies and the map results is written. -/
theorem worked {m₁ m₂ : Memory} {ns : List Name} (he : Memory.Extends ns m m₁)
    (hp : ∀ x ∈ p.arrays ++ h.mapNames ++ A, x ∉ ns) (hk : Memory.Keeps (h.mapNames ++ ns ++ p.copyNames) m₁ m₂)
    (hT : ∀ q ∈ p.parts, m₂.Table q.subs.subs q.op.scalars (M.segments * count q * M.size q.op) (T' q)) :
    p.Allocated h M A count T' m₂ := by
  have ha' := ha.grown he hp
  refine ha'.keeps hk hT fun q hq hone x hx w hw => ?_
  simp only [List.mem_append] at hw
  rcases hw with (hw | hw) | hw
  · exact ha'.dest_apart hq hone x hx w (List.mem_append_left _ hw)
  · have hxa : x ∈ p.arrays := List.mem_flatMap.2 ⟨q, hq, List.mem_append_right _ hx⟩
    exact ha.apart_new he hp x (by simp [hxa]) w hw
  · exact ha'.dest_apart hq hone x hx w (List.mem_append_right _ hw)

end Allocated

/-- names drawn one for each member of a list -/
theorem mapM_fresh_emit {α : Type} (label : α → String) (xs : List α) (l : List Stmt) (k : ℕ) :
    (xs.mapM fun x => ((fresh (label x) : Gen Name) : Emit Name)) l k =
      some ((freshNames (xs.map label) k, l), k + xs.length) := by
  induction xs generalizing k with
  | nil => rfl
  | cons x xs ih =>
    rw [List.mapM_cons]
    change ((xs.mapM fun x => ((fresh (label x) : Gen Name) : Emit Name)) l (k + 1)).bind
      (fun r => some (((⟨label x, some k⟩ : Name) :: r.1.1, r.1.2), r.2)) = _
    rw [ih]
    simp only [Option.bind_some, List.map_cons, freshNames, List.length_cons, Option.some.injEq, Prod.mk.injEq, true_and]
    omega

/-- a list of the parts with the expressions for the numbers of their copies -/
theorem map_fst_zip_parts {p : Plan} {counts : List Expr} (hlen : counts.length = p.parts.length) :
    (p.parts.zip counts).map (·.1) = p.parts := List.map_fst_zip hlen.ge

theorem flatMap_zip_parts {p : Plan} {counts : List Expr} (hlen : counts.length = p.parts.length) (f : Part → List Name) :
    (p.parts.zip counts).flatMap (fun a => f a.1) = p.parts.flatMap f := by
  rw [← map_fst_zip_parts hlen, List.flatMap_map, map_fst_zip_parts hlen]

theorem pairwise_zip_parts {p : Plan} {counts : List Expr} (hlen : counts.length = p.parts.length) {r : Part → Part → Prop} :
    (p.parts.zip counts).Pairwise (fun a b => r a.1 b.1) ↔ p.parts.Pairwise r := by
  rw [← List.pairwise_map (f := Prod.fst) (R := r), map_fst_zip_parts hlen]

theorem exists_zip_parts {p : Plan} {counts : List Expr} (hlen : counts.length = p.parts.length) {q : Part}
    (hq : q ∈ p.parts) : ∃ e, (q, e) ∈ p.parts.zip counts := by
  rw [← map_fst_zip_parts hlen] at hq
  obtain ⟨x, hx, rfl⟩ := List.mem_map.1 hq
  exact ⟨x.2, hx⟩

namespace Describes

/-- what a histogram reads and writes has no name of an array of copies, and none of a destination unless it is one -/
theorem not_array (hd : p.Describes h M o k₀ k X g n s) {x : Name} (hx : x.Before k₀) (hdest : x ∉ h.destNames) :
    x ∉ p.arrays := fun hm => by
  obtain ⟨q, hq, hm⟩ := List.mem_flatMap.1 hm
  rcases hd.arrays_cases hq hm with ⟨hyoung, -⟩ | hm
  · exact hyoung.not_before hx
  · exact hdest (hd.destNames_subset hq hm)

end Describes

theorem reads_reserved {p : Plan} : A ⊆ p.reserved A := fun x hx => by
  unfold reserved Histogram.reserved
  simp [hx]

/-- the names of the arrays that a histogram works on are no sizes -/
theorem arrays_reserved (hd : p.Describes h M o k₀ k X g n s) : p.arrays ++ h.mapNames ⊆ p.reserved A := by
  intro x hx
  unfold reserved Histogram.reserved
  rw [hd.hist]
  simp only [List.mem_append] at hx ⊢
  rcases hx with hx | hx
  · obtain ⟨q, hq, hx⟩ := List.mem_flatMap.1 hx
    rcases List.mem_append.1 hx with hx | hx
    · exact .inr (List.mem_flatMap.2 ⟨q, hq, hx⟩)
    · exact .inl (.inr (.inl (.inl (hd.destNames_subset hq hx))))
  · exact .inl (.inr (.inl (.inr hx)))

theorem map_not_dest (hr : h.Regular k₀ R A) {x : Name} (hx : x ∈ h.mapNames ++ A) : x ∉ h.destNames := fun hm => by
  have hnd := hr.distinct.of_append_left.of_append_right
  rw [List.append_assoc] at hnd
  exact List.disjoint_of_nodup_append hnd hm hx

/-- **Making the copies.** Every segment is merged into what its destination holds. -/
theorem allocated_works {counts : List Expr} (count : Part → ℕ) (hst : p.Stage h M o R A X c k₀ k g n s) (hB : h.Given M B A s.memory)
    (hc : c.thread = none) (hlen : counts.length = p.parts.length)
    (hcount : ∀ x ∈ p.parts.zip counts, Quantity k X s x.2 (count x.1)) (hpos : ∀ q ∈ p.parts, 0 < count q)
    (hmade : ∀ q ∈ p.parts, count q ≠ 1 → M.segments * count q * M.size q.op < unallocatable ∧ M.segments ≤ c.rounds ∧
      Word64.fits (M.segments * count q : ℕ) = true) :
    Works f L c (allocate (p.parts.zip counts)) k s fun _ _ t => t.launched = s.launched ∧
      p.Allocated h M A count (fun q => Copies.spread (count q) (M.size q.op) (M.neutral q.op) (B.dest q.op)) t.memory ∧
      Memory.Frames h.destNames p.arrays s.memory t.memory := by
  have hr := hst.regular
  have hd := hst.plan
  have hin {x : Part × Expr} (hx : x ∈ p.parts.zip counts) : x.1 ∈ p.parts := (List.of_mem_zip hx).1
  have hdests := flatMap_zip_parts hlen Part.destNames
  have harrays := flatMap_zip_parts hlen Part.arrays
  rw [hd.flatMap_destNames hr] at hdests
  have hapart {x : Name} (hx : x ∈ h.mapNames) : s.memory.Apart h.destNames x := hB.unaliased.apart' hx
  have hold {x : Name} (hx : x ∈ h.mapNames ++ A) : x ∉ p.arrays :=
    hd.not_array (Plan.Describes.before_written hr (by
      simp only [Histogram.written, List.append_assoc]
      exact List.mem_append_right _ hx)) (map_not_dest hr hx)
  have hmapHas {x : Name} (hx : x ∈ h.mapNames) : ∃ i b, s.memory.Has x i b := by
    obtain ⟨mo, hmo, rfl⟩ := List.mem_map.1 hx
    obtain ⟨i, hi⟩ := List.mem_iff_getElem?.1 hmo
    obtain ⟨j, b, hb, -⟩ := hB.maps i mo hi
    exact ⟨j, b, hb⟩
  refine (allocate_works count (D := fun q => B.dest q.op) (M := M) hr hc (p.parts.zip counts)
    (fun x hx => ⟨hd.parts _ (hin hx), hcount x hx, hpos _ (hin hx), hmade _ (hin hx),
      (List.pairwise_flatMap.1 hd.nodup).1 _ (hin hx), fun y hy => (hd.young y (List.mem_flatMap.2 ⟨_, hin hx, hy⟩)).not_before⟩)
    hst.means (fun x hx => hB.dests _ (hd.parts _ (hin hx)).op_mem) ((pairwise_zip_parts hlen).2 (hd.distinct hr)) ?_ ?_).mono ?_
  · refine (pairwise_zip_parts (r := fun a b => ∀ x ∈ b.destNames, s.memory.Apart a.destNames x) hlen).2 ?_
    have hun : s.memory.Unaliased h.destNames := (List.pairwise_append.1 hB.unaliased).1
    rw [← hd.flatMap_destNames hr] at hun
    exact (List.pairwise_flatMap.1 hun).2.imp fun hqq x hx w hw i hi hi' => hqq w hw x hx i hi' hi
  · rw [hdests, harrays]
    exact fun x hx => ⟨(hB.reads x hx).1, hold (List.mem_append_right _ hx),
      (hB.reads x hx).2.mono (List.subset_append_left _ _)⟩
  · rintro _ k' t - - ⟨hl, hready, hframes, hsep⟩
    rw [hdests, harrays] at hframes
    have hmapKept {x : Name} (hx : x ∈ h.mapNames) : ∃ i b, s.memory.Has x i b ∧ t.memory.Has x i b ∧ t.memory.Apart p.arrays x := by
      obtain ⟨i, b, hb⟩ := hmapHas hx
      have h := hframes x i b (hold (List.mem_append_left _ hx)) (hapart hx) hb
      exact ⟨i, b, hb, h⟩
    have hname {x : Name} (hx : x ∈ h.mapNames) : t.memory.names.get? x = s.memory.names.get? x := by
      obtain ⟨i, b, hb, hb', -⟩ := hmapKept hx
      rw [hb.name, hb'.name]
    refine ⟨hl, ⟨fun q hq => ?_, (pairwise_zip_parts hlen).1 hsep, fun x hx => ?_, ?_, fun x hx => ?_⟩, hframes⟩
    · obtain ⟨e, he⟩ := exists_zip_parts hlen hq
      exact hready _ he
    · obtain ⟨i, b, -, hb, hap⟩ := hmapKept hx
      exact ⟨⟨i, b, hb⟩, hap⟩
    · refine (List.pairwise_append.1 hB.unaliased).2.1.imp_of_mem fun hx hy hxy i hi => ?_
      rw [hname hx] at hi
      rw [hname hy]
      exact hxy i hi
    · obtain ⟨⟨i, b, hb⟩, hap⟩ := hB.reads x hx
      obtain ⟨hb', hap'⟩ := hframes x i b (hold (List.mem_append_right _ hx)) (hap.mono (List.subset_append_left _ _)) hb
      refine ⟨⟨i, b, hb'⟩, fun w hw => ?_⟩
      rcases List.mem_append.1 hw with hw | hw
      · exact hap' w hw
      · exact (hap.mono (List.subset_append_right _ _)).of_names (by rw [hb.name, hb'.name]) (fun w hw => hname hw) w hw

/-- **Merging the copies.** When every copy is what has been gathered of all elements, so are the destinations. -/
theorem finished_works {counts : List Expr} (hst : p.Stage h M o R A X c k₀ k g n s) (hc : c.thread = none) (hg : 0 < g)
    (hmax : (g : Int) ≤ c.limits.maxGroupSize) (hX : p.arrays ⊆ X) (hlen : counts.length = p.parts.length)
    (hcount : ∀ x ∈ p.parts.zip counts, Quantity k X s x.2 (count x.1)) (hpos : ∀ q ∈ p.parts, 0 < count q)
    (hfits : ∀ q ∈ p.parts, Word64.fits (M.segments * count q * M.size q.op : ℕ) = true)
    (hmerged : ∀ q ∈ p.parts, count q ≠ 1 → Word64.fits (M.segments * M.size q.op + g : ℕ) = true ∧ count q ≤ c.rounds + 1)
    (ha : p.Allocated h M A count T s.memory)
    (hT : ∀ q ∈ p.parts, M.Merges q.op → ∀ a < M.segments * M.size q.op,
      Copies.merged (M.combine q.op) (count q) (M.size q.op) (T q) a = M.gathered q.op q.contribution (B.dest q.op) a M.total)
    (hmaps : MapsStored h M B.mapLength B.mapValue (· < M.total) s.memory) :
    Works f (Machine.launch c) c (p.finish (p.parts.zip counts)) k s fun _ _ t => h.Accumulated M B t.memory ∧
      Memory.Frames p.arrays p.arrays s.memory t.memory ∧
      ∀ x i, t.memory.names.get? x = some i → s.memory.names.get? x = some i := by
  have hr := hst.regular
  have hd := hst.plan
  have hin {x : Part × Expr} (hx : x ∈ p.parts.zip counts) : x.1 ∈ p.parts := (List.of_mem_zip hx).1
  have harrays := flatMap_zip_parts hlen Part.arrays
  have hold {x : Name} (hx : x ∈ h.mapNames ++ A) : x ∉ p.arrays :=
    hd.not_array (Plan.Describes.before_written hr (by
      simp only [Histogram.written, List.append_assoc]
      exact List.mem_append_right _ hx)) (map_not_dest hr hx)
  refine (finish_works count (T := T) hr hc hg hmax hst.older (p.parts.zip counts)
    (fun x hx => ⟨hd.parts _ (hin hx), hcount x hx, hpos _ (hin hx), hfits _ (hin hx), hmerged _ (hin hx),
      (List.pairwise_flatMap.1 hd.nodup).1 _ (hin hx), hd.dest_not_copy hr (hin hx),
      fun y hy => hX (List.mem_flatMap.2 ⟨_, hin hx, hy⟩)⟩)
    hd.groupSize hst.scope hst.means (fun x hx => ha.ready _ (hin hx)) ((pairwise_zip_parts hlen).2 (hd.distinct hr))
    ((pairwise_zip_parts hlen).2 ha.separate) ?_).mono ?_
  · rw [harrays]
    exact fun x hx => ⟨(ha.reads x hx).1, hold (List.mem_append_right _ hx),
      (ha.reads x hx).2.mono (List.subset_append_left _ _)⟩
  · rintro _ k' t - - ⟨hTt, hframes, hshrink⟩
    rw [harrays] at hframes
    refine ⟨⟨fun x hx => ?_, fun i mo hmo => Histogram.Accumulated.of_mapsStored (fun i mo hmo => ?_) hmo⟩, hframes, hshrink⟩
    · obtain ⟨q, hq, rfl⟩ := hd.exists_part hx
      obtain ⟨e, he⟩ := exists_zip_parts hlen hq
      exact ⟨_, hTt _ he, hT q hq⟩
    · have hmo' : mo.dest.name ∈ h.mapNames := List.mem_map_of_mem (List.mem_of_getElem? hmo)
      exact (hmaps i mo hmo).frames hframes (hold (List.mem_append_left _ hmo')) (ha.maps _ hmo').2

/-- **Other arrays.** What shares no buffer with the arrays that the histogram writes is kept: while copies are made, by a
kernel, and while they are merged. -/
theorem other_kept {m₀ m m₁ m₂ m₃ : Memory} {ns : List Name} (hd : p.Describes h M o k₀ k X g n s) (hr : h.Regular k₀ R A)
    (hB : h.Given M B A m₀) (hmade : Memory.Frames h.destNames p.arrays m₀ m) (he : Memory.Extends ns m m₁)
    (hp : ∀ x ∈ h.mapNames, x ∉ ns) (hp' : ∀ x ∈ p.arrays, x ∉ ns)
    (hk : Memory.Keeps (h.mapNames ++ ns ++ p.copyNames) m₁ m₂) (hmerged : Memory.Frames p.arrays p.arrays m₂ m₃)
    {x : Name} {i : ℕ} {b : Buffer} (hx : x.Before k₀) (hxn : x ∉ ns) (hap : m₀.Apart h.written x) (hb : m₀.Has x i b) :
    m₃.Has x i b := by
  have harr : x ∉ p.arrays := hd.not_array hx fun hm => hap x (List.mem_append_left _ hm) i hb.name hb.name
  obtain ⟨hb₁, hap₁⟩ := hmade x i b harr (hap.mono (List.subset_append_left _ _)) hb
  have hb₂ := he.has hb₁ hxn
  have hap₂ : m₁.Apart p.arrays x := hap₁.of_names (he.names x hxn) fun w hw => he.names w (hp' w hw)
  -- the names of the map results are the same all along
  have hmap {w : Name} (hw : w ∈ h.mapNames) : m₁.names.get? w = m₀.names.get? w := by
    obtain ⟨mo, hmo, rfl⟩ := List.mem_map.1 hw
    obtain ⟨a, ha⟩ := List.mem_iff_getElem?.1 hmo
    obtain ⟨j, b', hw', -⟩ := hB.maps a mo ha
    have hwr : mo.dest.name ∈ h.written ++ A := by simp [Histogram.written, hw]
    have hw₁ := (hmade _ j b' (hd.not_array (Describes.before_written hr hwr) (map_not_dest hr (by simp [hw])))
      (hB.unaliased.apart' hw) hw').1
    rw [(he.has hw₁ (hp _ hw)).name, hw'.name]
  have htouched : m₁.Apart (h.mapNames ++ ns ++ p.copyNames) x := by
    intro w hw
    simp only [List.mem_append] at hw
    rcases hw with (hw | hw) | hw
    · exact (hap.mono (List.subset_append_right _ _)).of_names (by rw [hb₂.name, hb.name]) (fun w hw => hmap hw) w hw
    · exact he.apart hb₁ hxn w hw
    · exact hap₂ w (copyNames_subset p hw)
  exact (hmerged x i b harr (hap₂.keeps hk) (hk.has hb₂ htouched)).1

end Plan

end GpuHistogram
