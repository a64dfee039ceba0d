/-
The choice of a placement in two linked programs. If the bytes of a histogram are known, the first program is compiled for
one placement; the second compares the same numbers when it runs, and comes to the same placement as long as nothing
overflows (`knownCode_finishes`). If they are not known both programs leave the choice to the run (`deferredCode_finishes`).

Both branches of the second program are generated. Only one of them runs, so what was drawn for the other one corresponds to
nothing; the link for a branch starts from the names that were there before either.
-/
import GpuHistogram.Proofs.LinkedLocal

namespace GpuHistogram

open Machine

/-! ## Branches -/

theorem Emit.collect_bind {α : Type} {E : Emit Unit} {F : List Stmt → Emit α} {l r : List Stmt} {k k' : ℕ} {a : α}
    (h : ((Emit.collect E : Gen (List Stmt)) >>= F : Emit α) l k = some ((a, r), k')) :
    ∃ b k₁, E [] k = some (((), b), k₁) ∧ F b l k₁ = some ((a, r), k') := by
  obtain ⟨⟨⟨b, l₁⟩, k₁⟩, hb, hF⟩ := Option.bind_eq_some_iff.1 h
  obtain ⟨⟨b', k₂⟩, hE, he⟩ := Option.bind_eq_some_iff.1 hb
  cases he
  obtain ⟨⟨⟨_, b'⟩, k₂⟩, hE, he⟩ := Option.bind_eq_some_iff.1 hE
  cases he
  exact ⟨_, _, hE, hF⟩

namespace Machine.Link

variable {α β : Type} {H : Hosts} {K L M : Link H} {n m : Name} {s t : State} {e e' i i' j j' c c' : Expr} {l l' r r' : List Stmt}
  {p q : Plan} {h : Histogram} {x y x₁ y₁ x₂ y₂ : Emit Unit} {o o' : Options} {g v : Int}

theorem Below.of_le {j k : ℕ} (h : L ≤ M) (hM : M.Below j k) : L.Below j k :=
  ⟨hM.start, hM.start', fun hr => hM.rel (rel_mono h hr), fun hv => hM.value (value_mono h hv)⟩

theorem Concludes.nil : L.Concludes [] [] := (Extends.refl L).brings.concludes le_rfl

namespace Finishes

theorem pure : L.Finishes (Pure.pure ()) (Pure.pure ()) := Tracks.finishes (.pure (P := fun _ _ _ => True) trivial)

/-- both hosts guard the same code by the same condition -/
theorem guard (he : L.Same e e') (h : L.Finishes x y) :
    L.Finishes (do
      let branch ← Emit.collect x
      Emit.stmt (.ifThen e branch)) (do
      let branch ← Emit.collect y
      Emit.stmt (.ifThen e' branch)) := by
  intro j k l₁ l₂ r₁ r₂ j' k' hb hx hy
  obtain ⟨a, j₁, ha, hx⟩ := Emit.collect_bind hx
  obtain ⟨b, k₁, hb', hy⟩ := Emit.collect_bind hy
  cases hx
  cases hy
  obtain ⟨l, l', rfl, rfl, hl⟩ := h j k [] [] a b _ _ hb ha hb'
  exact ⟨_, _, rfl, rfl, .ifElse he hl .nil⟩

/-- the second host guards the code by a condition that the first program has found true -/
theorem guarded (he : ∀ s t, L.Ready s t → eval (H.second.within none) t e'.fold = .ok (.bool true)) (h : L.Finishes x y) :
    L.Finishes x (do
      let branch ← Emit.collect y
      Emit.stmt (.ifThen e' branch)) := by
  intro j k l₁ l₂ r₁ r₂ j' k' hb hx hy
  obtain ⟨b, k₁, hb', hy⟩ := Emit.collect_bind hy
  cases hy
  obtain ⟨l, l', rfl, rfl, hl⟩ := h j k l₁ [] r₁ b _ _ hb hx hb'
  exact ⟨_, _, rfl, rfl, .decided he hl⟩

/-- both hosts choose between the same code by the same condition -/
theorem choose {P : Link H → Unit → Unit → Prop} (he : L.Same e e') (h₁ : L.Tracks x₁ y₁ P) (h₂ : L.Finishes x₂ y₂) :
    L.Finishes (do
      let thn ← Emit.collect x₁
      let els ← Emit.collect x₂
      Emit.stmt (.ifElse e thn els .unknown)) (do
      let thn ← Emit.collect y₁
      let els ← Emit.collect y₂
      Emit.stmt (.ifElse e' thn els .unknown)) := by
  intro j k l₁ l₂ r₁ r₂ j' k' hb hx hy
  obtain ⟨a, j₁, ha, hx⟩ := Emit.collect_bind hx
  obtain ⟨a₂, j₂, ha₂, hx⟩ := Emit.collect_bind hx
  obtain ⟨b, k₁, hb₁, hy⟩ := Emit.collect_bind hy
  obtain ⟨b₂, k₂, hb₂, hy⟩ := Emit.collect_bind hy
  cases hx
  cases hy
  obtain ⟨M, l, l', hM, hbelow, rfl, rfl, hl, -⟩ := h₁ j k [] [] () () a b _ _ hb ha hb₁
  obtain ⟨r, r', rfl, rfl, hr⟩ := h₂ j₁ k₁ [] [] a₂ b₂ _ _ (.of_le hM hbelow) ha₂ hb₂
  exact ⟨_, _, rfl, rfl, .ifElse he (hl.concludes hM) hr⟩

/-- the second host comes to the choice that the first program has made -/
theorem chosen {d : Bool} (he : ∀ s t, L.Ready s t → eval (H.second.within none) t e'.fold = .ok (.bool d))
    (h : L.Finishes x (if d then y₁ else y₂)) (hy₁ : ∀ l, Ascends (y₁ l)) :
    L.Finishes x (do
      let thn ← Emit.collect y₁
      let els ← Emit.collect y₂
      Emit.stmt (.ifElse e' thn els .unknown)) := by
  intro j k l₁ l₂ r₁ r₂ j' k' hb hx hy
  obtain ⟨b, k₁, hb₁, hy⟩ := Emit.collect_bind hy
  obtain ⟨b₂, k₂, hb₂, hy⟩ := Emit.collect_bind hy
  cases hy
  suffices hl : ∃ l, r₁ = l₁ ++ l ∧ L.Concludes l (if d then b else b₂) by
    obtain ⟨l, rfl, hl⟩ := hl
    exact ⟨l, _, rfl, rfl, .decided he hl⟩
  cases d with
  | true =>
    obtain ⟨l, l', rfl, rfl, hl⟩ := h j k l₁ [] r₁ b _ _ hb hx hb₁
    exact ⟨l, rfl, hl⟩
  | false =>
    have hlater := hb.mono le_rfl (hy₁ [] k _ _ hb₁)
    obtain ⟨l, l', rfl, rfl, hl⟩ := h j k₁ l₁ [] r₁ b₂ _ _ hlater hx hb₂
    exact ⟨l, rfl, hl⟩

end Finishes

/-! ## What the choice rests on -/

theorem lockBytes_same (hp : L.SamePlan h p q) : L.SameNumber p.lockBytes q.lockBytes := by
  unfold Plan.lockBytes
  rw [operators_eq hp]
  split_ifs with hlock
  · have hbytes : L.SameNumber (.i64 4) (.i64 4) := .literal rfl
    exact (hp.groupSize.sameSize.mul ⟨hbytes, id⟩).number
  · exact .literal (k := 0) rfl

/-- a limit of the device: known to the first program, asked for by the second -/
theorem bindLimit {label label' : String} (z : Capability) (hv : Word64.fits v = true) (hz : H.second.limits.get z = v) :
    L.Tracks (Emit.bindSize label (.i64 v)) (Emit.bindSize label' (.capability z .unknown)) fun M x y =>
      x = .i64 v ∧ ∃ m, y = .ofName m ∧ M.value m = some v := by
  refine .bindValue rfl rfl hv fun s t _ => ?_
  change evalCapability (H.second.within none) z .unknown = _
  simp only [evalCapability, Context.within, hz, Value.ofInt_i64 hv]

/-- the copies that the bytes of a group pay for are not known to the second program -/
theorem localCopies_open (hp : L.SamePlan h p q) (hi : i.constant? = none) : (Placement.localCopies q.groupSize i e).constant? = none := by
  refine Expr.constant?_ceilDiv_open (.inl ?_)
  rw [Option.eq_none_iff_forall_ne_some]
  intro v hv
  rcases Expr.constant?_mul hv with ⟨a, b, ha, -⟩ | ⟨-, ha | hb⟩
  · cases hp.groupSize.unknown.symm.trans ha
  · cases hp.groupSize.unknown.symm.trans ha
  · cases hi.symm.trans hb

/-! ## Choices that are left to the run -/

variable (hp : L.SamePlan h p q) (hg : p.groupSize = .i64 g) (hb : L.Fixed e e') (hi : L.Loose (fun _ => True) i i')

include hp hg hb hi

theorem localCopies_same : L.SameNumber (Placement.localCopies p.groupSize i e) (Placement.localCopies q.groupSize i' e') := by
  have hbytes : L.SameNumber (p.groupSize * i) (q.groupSize * i') :=
    hp.groupSize.number.op2 .mul rfl hi.number fun _ => ⟨.inl hp.groupSize.zeros, .inr ⟨g, by rw [hg]; rfl⟩⟩
  exact hbytes.ceilDiv hb.number

theorem localFits_same (hopen : e.constant? = none) (hj : L.Loose (fun _ => True) j j') :
    L.Same (Placement.localFits e p.groupSize i j p.lockBytes) (Placement.localFits e' q.groupSize i' j' q.lockBytes) := by
  have hzero : L.SameNumber 0 0 := .literal (k := 0) rfl
  have hcopies := localCopies_same hp hg hb hi
  have hcopies₀ : Zeros (Placement.localCopies p.groupSize i e) (Placement.localCopies q.groupSize i' e') := fun h => by
    cases (Expr.constant?_ceilDiv_open (.inr hopen)).symm.trans h
  have hbytes : L.SameNumber (e * Placement.localCopies p.groupSize i e) (e' * Placement.localCopies q.groupSize i' e') :=
    (hb.sameSize.mul ⟨hcopies, hcopies₀⟩).number
  have hsum : L.SameNumber (p.lockBytes + e * Placement.localCopies p.groupSize i e)
      (q.lockBytes + e' * Placement.localCopies q.groupSize i' e') := (lockBytes_same hp).op2 .add rfl hbytes nofun
  have hwithin : L.Same (.op2 .le _ _) (.op2 .le _ _) := hsum.compare .le rfl hj.number
  have hthreads : L.Same (.op2 .le _ _) (.op2 .le _ _) := (hb.number.ceilDiv hi.number).compare .le rfl hp.groupSize.number
  have hpositive : L.Same ((i.gt 0).and (p.groupSize.gt 0)) ((i'.gt 0).and (q.groupSize.gt 0)) :=
    Same.and (hi.number.compare .gt rfl hzero) (hp.groupSize.number.compare .gt rfl hzero)
      (truth_compare rfl _ _) (truth_compare rfl _ _)
  refine hpositive.and (hwithin.and hthreads ?_ ?_) ?_ ?_
  · exact truth_compare rfl _ _
  · exact truth_compare rfl _ _
  · exact .and (truth_compare rfl _ _) (truth_compare rfl _ _)
  · exact .and (truth_compare rfl _ _) (truth_compare rfl _ _)

theorem bindCopies (hopen : e.constant? = none) :
    L.Tracks (Emit.bindSize "local_subhistos" (Placement.localCopies p.groupSize i e))
      (Emit.bindSize "local_subhistos" (Placement.localCopies q.groupSize i' e')) fun M x y => M.Loose (0 < ·) x y := by
  have hwords : (Placement.localCopies p.groupSize i e).Words :=
    (Expr.words_ceilDiv).2 ⟨⟨hp.groupSize.words, hi.words⟩, hb.strict.words⟩
  refine .bindLoose (localCopies_same hp hg hb hi) hwords (localCopies_open hp hi.unknown) fun v hv => ?_
  cases (Expr.constant?_ceilDiv_open (.inr hopen)).symm.trans hv

omit hi in
/-- a choice that both programs leave to the run -/
theorem deferredCode_finishes (hnames : h.Names H.Shared) (hdim : h.elementDim? ≠ none) (hopen : e.constant? = none)
    {d : DeviceLimits} (ho : o.device = some d) (ho' : o'.device = none) (hd : H.second.limits = d)
    (ht : Word64.fits d.localMemoryPerThread = true) (hm : Word64.fits d.maxLocalMemory = true) :
    L.Finishes (p.deferredCode o e) (q.deferredCode o' e') := by
  unfold Plan.deferredCode Plan.memoryLimits
  rw [ho, ho']
  refine .guard (hb.number.compare .ne rfl (.literal (k := 0) rfl)) ?_
  refine .bind (bindLimit .localMemoryPerThread ht (by rw [hd]; rfl)) fun L₁ i i' h₁ hi => ?_
  refine .bind (bindLimit .maxLocalMemory hm (by rw [hd]; rfl)) fun L₂ j j' h₂ hj => ?_
  obtain ⟨rfl, n, rfl, hn⟩ := hi
  obtain ⟨rfl, m, rfl, hm⟩ := hj
  replace hp := hp.mono (h₁.trans h₂)
  replace hb := hb.mono (h₁.trans h₂)
  have hi : L₂.Loose (fun _ => True) _ _ := .value (value_mono h₂ hn) trivial
  have hlocal := localCode_tracks hp hnames hdim fun M hM => bindCopies (hp.mono hM) hg (hb.mono hM) (hi.mono hM) hopen
  exact .choose (localFits_same hp hg hb hi hopen (.value hm trivial)) hlocal (globalCode_tracks hp hnames hdim).finishes

omit hp hg hb hi

/-! ## Choices that are made in advance -/

/-- the second program computes the number -/
def Stands (L : Link H) (e : Expr) (v : Int) : Prop :=
  ∀ s t, L.Linked s t → L.Holds (fun _ => True) t → Computes .folded (H.second.within none) t e v

theorem Stands.mono (h : L ≤ M) (he : L.Stands e v) : M.Stands e v := fun s t hs ht => he s t (hs.mono h) (ht.mono h)

theorem SameNumber.stands (he : L.SameNumber e e') (hv : e.constant? = some v) : L.Stands e' v := fun _ _ => he.computes_known hv

theorem stands_ofName (hm : L.value m = some v) : L.Stands (.ofName m) v := fun _ _ _ ht =>
  .ofName (ht m v trivial hm) (L.fits hm)

/-- the choice that the second program comes to is the one that the first has made -/
theorem choice_stands {x : Placement.Costs} (hw : x.Words) (h0 : 0 < x.histBytes) (hg : 0 < x.groupSize) (hl : 0 ≤ x.lockBytes)
    (hmod : 0 < x.threadBytes → x.Moderate) (hb : L.Stands e x.histBytes) (hgs : L.Stands c x.groupSize)
    (hi : L.Stands i x.threadBytes) (hj : L.Stands j x.maxLocalMemory) (hlb : L.Stands c' x.lockBytes) :
    (Placement.choose? x = some .globalMemory ∧ ∀ s t, L.Linked s t → L.Holds (fun _ => True) t →
      Evals .folded (H.second.within none) t (Placement.localFits e c i j c') (.bool false)) ∨
    (Placement.choose? x = some (.localMemory x.copies) ∧ 0 < x.copies ∧ Word64.fits x.copies = true ∧
      L.Stands (Placement.localCopies c i e) x.copies ∧ ∀ s t, L.Linked s t → L.Holds (fun _ => True) t →
        Evals .folded (H.second.within none) t (Placement.localFits e c i j c') (.bool true)) := by
  by_cases ht : 0 < x.threadBytes
  · have hfit : Word64.fits x.groupBytes = true := by
      have hle := hmod ht x.groupBytes (List.mem_cons_self ..)
      have hpos := Placement.Costs.groupBytes_pos hg ht
      rw [Word64.fits_iff]
      unfold Word64.greatest at hle
      omega
    have hpaid := Placement.Costs.paidCopies_of_fits hfit
    have hchoose := Placement.choose?_of_pos hw h0 ht hg hl
    have hcopies := (Placement.quotients hw h0.ne' ht hg).2.2.2
    rw [hpaid] at hchoose hcopies
    have hdecides (s t : State) (hs : L.Linked s t) (hh : L.Holds (fun _ => True) t) :=
      Placement.localFits_of_pos (hb s t hs hh) (hgs s t hs hh) (hi s t hs hh) (hj s t hs hh) (hlb s t hs hh) h0 hg ht hl (hmod ht)
    by_cases hd : x.lockBytes + x.histBytes * x.copies ≤ x.maxLocalMemory ∧ x.threads ≤ x.groupSize
    · rw [if_pos hd] at hchoose
      refine .inr ⟨hchoose, ceil_pos (Placement.Costs.groupBytes_pos hg ht) h0, hcopies, fun s t hs hh => (hdecides s t hs hh).1,
        fun s t hs hh => ?_⟩
      exact decide_eq_true hd ▸ (hdecides s t hs hh).2
    · rw [if_neg hd] at hchoose
      exact .inl ⟨hchoose, fun s t hs hh => decide_eq_false hd ▸ (hdecides s t hs hh).2⟩
  · exact .inl ⟨Placement.choose?_of_nonpos h0.ne' (.inl (not_lt.1 ht)), fun s t hs hh =>
      Placement.localFits_of_nonpos (hgs s t hs hh) (hi s t hs hh) (.inl (not_lt.1 ht))⟩

/-- what the choice rests on is known, and the limits are those of the device -/
theorem costs?_eq_some {x : Placement.Costs} (h : p.costs? o e = some x) :
    e.constant? = some x.histBytes ∧ p.groupSize.constant? = some x.groupSize ∧ p.lockBytes.constant? = some x.lockBytes ∧
      ∀ d, o.device = some d → x.threadBytes = d.localMemoryPerThread ∧ x.maxLocalMemory = d.maxLocalMemory := by
  unfold Plan.costs? at h
  obtain ⟨v, hv, h⟩ := Option.bind_eq_some_iff.1 h
  obtain ⟨d, hd, h⟩ := Option.bind_eq_some_iff.1 h
  obtain ⟨g, hg, h⟩ := Option.bind_eq_some_iff.1 h
  obtain ⟨b, hb, h⟩ := Option.bind_eq_some_iff.1 h
  cases h
  refine ⟨hv, hg, hb, fun d' hd' => ?_⟩
  cases hd.symm.trans hd'
  exact ⟨rfl, rfl⟩

/-- a choice is left to the run where the bytes are not known, or else the device is not -/
theorem code_eq_deferred {r : Plan} (h : e.constant? = none ∨ e.constant? ≠ some 0 ∧ o.device = none) :
    r.code o e = r.deferredCode o e := by
  have hcosts : r.costs? o e = none := by
    unfold Plan.costs?
    rcases h with h | ⟨-, h⟩ <;> rw [h]
    · rfl
    · cases e.constant? <;> rfl
  have hzero : e.constant? ≠ some 0 := by
    rcases h with h | h
    · intro hzero
      cases h.symm.trans hzero
    · exact h.1
  unfold Plan.code
  rw [hcosts]
  split
  · next h => cases h
  · next h => exact absurd h hzero
  · rfl

/-- the second host comes to the placement that the first program has been compiled for -/
theorem placement_finishes (hp : L.SamePlan h p q) (hnames : h.Names H.Shared) (hdim : h.elementDim? ≠ none)
    {x : Placement.Costs} (hx : p.costs? o e = some x) (hw : x.Words) (hpos : 0 < x.histBytes) (hg : 0 < x.groupSize)
    (hl : 0 ≤ x.lockBytes) (hmod : 0 < x.threadBytes → x.Moderate) (hb : L.Stands e' x.histBytes) (hi : L.Stands i x.threadBytes)
    (hopen : i.constant? = none) (hj : L.Stands j x.maxLocalMemory) :
    L.Finishes (p.code o e) (do
      let thn ← Emit.collect (q.localCode (Placement.localCopies q.groupSize i e'))
      let els ← Emit.collect q.globalCode
      Emit.stmt (.ifElse (Placement.localFits e' q.groupSize i j q.lockBytes) thn els .unknown)) := by
  obtain ⟨-, hgroup, hlocks, -⟩ := costs?_eq_some hx
  have hchoice := choice_stands hw hpos hg hl hmod hb (hp.groupSize.number.stands hgroup) hi hj ((lockBytes_same hp).stands hlocks)
  unfold Plan.code
  rw [hx]
  rcases hchoice with ⟨hchoose, hfalse⟩ | ⟨hchoose, hcopies, hfits, hstands, htrue⟩
  · simp only [hchoose]
    refine .chosen (d := false) (fun s t hI => hfalse s t hI.linked hI.holds) ?_ fun l => Plan.localCode_ascends _ l
    exact (globalCode_tracks hp hnames hdim).finishes
  · simp only [hchoose]
    refine .chosen (d := true) (fun s t hI => htrue s t hI.linked hI.holds) ?_ fun l => Plan.localCode_ascends _ l
    refine (localCode_tracks hp hnames hdim fun M hM => ?_).finishes
    refine (Tracks.bindValue rfl (localCopies_open (hp.mono hM) hopen) hfits fun s t hI => ?_).imp ?_
    · rw [castIfNeeded_of_ty ((hstands.mono hM) s t hI.linked hI.holds).ty]
      exact ((hstands.mono hM) s t hI.linked hI.holds).evals
    · rintro N _ _ - ⟨rfl, z, rfl, hz⟩
      exact .value hz hcopies

/-- a choice that the first program has made in advance -/
theorem knownCode_finishes (hp : L.SamePlan h p q) (hnames : h.Names H.Shared) (hdim : h.elementDim? ≠ none)
    (hb : L.Fixed e e') {x : Placement.Costs} (hx : p.costs? o e = some x) (hw : x.Words) (hg : 0 < x.groupSize)
    (h0 : 0 ≤ x.histBytes) (hl : 0 ≤ x.lockBytes) (hmod : 0 < x.threadBytes → x.Moderate) (ho : o.device = some H.second.limits)
    (ho' : o'.device = none) : L.Finishes (p.code o e) (q.code o' e') := by
  obtain ⟨hv, -, -, hlimits⟩ := costs?_eq_some hx
  obtain ⟨ht, hm⟩ := hlimits _ ho
  have hv' : e'.constant? = some x.histBytes := hb.strict.twins.constant?.trans hv
  by_cases hzero : x.histBytes = 0
  · have hskip : Placement.choose? x = some .skip := if_pos hzero
    have hnone : q.costs? o' e' = none := by
      unfold Plan.costs?
      rw [hv', ho']
      rfl
    unfold Plan.code
    rw [hx, hnone, hv', hzero]
    simp only [hskip]
    exact .pure
  have hpos : 0 < x.histBytes := lt_of_le_of_ne h0 (Ne.symm hzero)
  have hbytes : L.Stands e' x.histBytes := hb.number.stands hv
  have hcond (s t : State) (hI : L.Ready s t) : eval (H.second.within none) t (e'.ne 0).fold = .ok (.bool true) := by
    have hne : Evals .folded (H.second.within none) t (e'.ne 0) (.bool (x.histBytes ≠ 0)) :=
      .ne (hbytes s t hI.linked hI.holds) .zero
    rwa [decide_eq_true hzero] at hne
  rw [code_eq_deferred (.inr ⟨fun h => hzero (Option.some.inj (hv'.symm.trans h)), ho'⟩)]
  unfold Plan.deferredCode Plan.memoryLimits
  rw [ho']
  refine .guarded hcond ?_
  -- the first program binds neither limit
  change L.Finishes (Emit.bindSize "thread_bytes" (.i64 x.threadBytes) >>= fun _ =>
    Emit.bindSize "max_local_memory" (.i64 x.maxLocalMemory) >>= fun _ => p.code o e) _
  refine .bind (bindLimit .localMemoryPerThread hw.threadBytes ht.symm) fun L₁ _ i h₁ hi => ?_
  refine .bind (bindLimit .maxLocalMemory hw.maxLocalMemory hm.symm) fun L₂ _ j h₂ hj => ?_
  obtain ⟨-, n, rfl, hn⟩ := hi
  obtain ⟨-, m, rfl, hm⟩ := hj
  have hL₂ := h₁.trans h₂
  exact placement_finishes (hp.mono hL₂) hnames hdim hx hw hpos hg hl hmod (hbytes.mono hL₂)
    (stands_ofName (value_mono h₂ hn)) rfl (stands_ofName hm)

/-- the bytes of the locks are not negative where they are known -/
theorem lockBytes_nonneg (hg : p.groupSize = .i64 g) (h0 : 0 ≤ g) {b : Int} (hb : p.lockBytes.constant? = some b) : 0 ≤ b := by
  unfold Plan.lockBytes at hb
  split_ifs at hb
  · rw [hg] at hb
    rcases Expr.constant?_mul hb with ⟨x, y, hx, hy, rfl⟩ | ⟨rfl, -⟩
    · cases hx
      cases hy
      exact Int.mul_nonneg h0 (by decide)
    · exact le_rfl
  · cases hb
    exact le_rfl

/-- **Choices.** Whether or not the first program chooses in advance, the second comes to the same placement. -/
theorem code_finishes (hp : L.SamePlan h p q) (hnames : h.Names H.Shared) (hdim : h.elementDim? ≠ none) (hb : L.Fixed e e')
    (hg : p.groupSize = .i64 g) (hgpos : 0 < g) (hfit : p.operators.any Operator.needsLock = true → Word64.fits (g * 4) = true)
    (h0 : ∀ v, e.constant? = some v → 0 ≤ v) (hmod : ∀ x, p.costs? o e = some x → 0 < x.threadBytes → x.Moderate)
    {d : DeviceLimits} (ho : o.device = some d) (ho' : o'.device = none) (hd : H.second.limits = d)
    (ht : Word64.fits d.localMemoryPerThread = true) (hm : Word64.fits d.maxLocalMemory = true) :
    L.Finishes (p.code o e) (q.code o' e') := by
  cases hv : e.constant? with
  | none =>
    have hv' : e'.constant? = none := hb.strict.twins.constant?.trans hv
    rw [code_eq_deferred (.inl hv), code_eq_deferred (.inl hv')]
    exact deferredCode_finishes hp hg hb hnames hdim hv ho ho' hd ht hm
  | some v =>
    obtain ⟨b, hlocks⟩ := p.lockBytes_known hg hfit
    have hx : p.costs? o e = some ⟨v, g, d.localMemoryPerThread, d.maxLocalMemory, b⟩ := by
      unfold Plan.costs?
      rw [hv, ho, hg, hlocks]
      rfl
    have hlockWords : p.lockBytes.Words := by
      unfold Plan.lockBytes
      split_ifs
      · exact ⟨hp.groupSize.words, rfl⟩
      · exact rfl
    have hw : Placement.Costs.Words ⟨v, g, d.localMemoryPerThread, d.maxLocalMemory, b⟩ :=
      { histBytes := hb.strict.words.constant? hv
        groupSize := hp.groupSize.words.constant? (by rw [hg]; rfl)
        threadBytes := ht
        maxLocalMemory := hm
        lockBytes := hlockWords.constant? hlocks }
    exact knownCode_finishes hp hnames hdim hb hx hw hgpos (h0 v hv) (lockBytes_nonneg hg hgpos.le hlocks) (hmod _ hx)
      (ho.trans (congrArg some hd.symm)) ho'

end Machine.Link

end GpuHistogram
