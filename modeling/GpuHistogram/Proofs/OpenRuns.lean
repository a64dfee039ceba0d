/-
A choice made by the run does what a choice made in advance does. `Histogram.open_runs_as_fixed`: where the program that is
compiled for sizes of its launches and for a device runs on that device, the program that is told neither runs there as
well, once the same sizes are chosen. It launches the same kernels and leaves the same contents in the arrays that were
there before.

The host code of the two programs is related step by step (`hostCode_concludes`). They start from the same state, in which
only names from before both compilations are bound, so each corresponds to itself (`base_ready`).
-/
import GpuHistogram.Proofs.LinkedChoices
import GpuHistogram.Proofs.Placements

namespace GpuHistogram

open Machine

/-- all is fixed: the sizes of the launches, and the device -/
def Options.fixed (o : Options) (g n : Int) (d : DeviceLimits) : Options :=
  { o with groupSize := some g, groupCount := some n, device := some d }

/-- all is left to the run -/
def Options.unfixed (o : Options) : Options := { o with groupSize := none, groupCount := none, device := none }

/-- where the placement is decided in advance and threads have local memory, nothing that the decision computes overflows -/
def Histogram.Moderate (h : Histogram) (o : Options) (k : ℕ) : Prop := ∀ p l k' c, h.plan o [] k = some ((p, l), k') →
  p.costs? o (Plan.histBytes p.parts) = some c → 0 < c.threadBytes → c.Moderate

/-- the machine, with both sizes of the histogram chosen -/
def Histogram.chooseSizes (h : Histogram) (m : GpuHistogram.Machine) (g n : Int) : GpuHistogram.Machine :=
  (m.chooseSize h.groupSizeId g).chooseSize h.groupCountId n

namespace Machine

/-- every name that the state binds satisfies `Q` -/
structure State.Names (Q : Name → Prop) (s : State) : Prop where
  vars : ∀ n v, s.vars.get? n = some v → Q n
  arrays : ∀ n p, s.memory.names.get? n = some p → Q n

namespace Link

variable {H : Hosts} {L : Link H} {s t : State} {n : Name}

/-- a state with names from before only is linked to itself -/
theorem base_ready (hs : s.Sound) (hn : s.Names H.Shared) : (base H).Ready s s := by
  have hsame {α : Type} {get : Name → Option α} (hget : ∀ n a, get n = some a → H.Shared n) {O : Link H} {n m : Name}
      (hr : O.rel n m) : get n = get m := by
    rcases O.fresh hr with ⟨rfl, -⟩ | ⟨hn, hm⟩
    · rfl
    · rw [Option.eq_none_iff_forall_ne_some.2 fun a ha => hn (hget n a ha).1,
        Option.eq_none_iff_forall_ne_some.2 fun a ha => hm (hget m a ha).2]
  refine fun O _ => ⟨⟨⟨⟨hsame hn.arrays, rfl, hs.elements⟩, rfl⟩, ⟨hsame hn.vars, fun hr hw hv => ?_, hs.vars⟩⟩, ?_⟩
  · exact absurd (hn.vars _ _ hv).1 (O.word_fresh hw)
  · rintro m v - ⟨⟩

/-- arrays that both programs have from before have the same elements -/
theorem Arrays.values {a b : Memory} (h : L.Arrays a b) (hn : H.Shared n) : b.values n = a.values n := by
  unfold Memory.values Memory.lookup
  rw [h.get (L.shared hn), h.buffers]

/-- **Host code.** The code for fixed sizes and a known device, and the code that asks for them. -/
theorem hostCode_concludes {h : Histogram} {o : Options} {g n : Int} {p q : Program} {j' k' : ℕ}
    (hp : h.generate (o.fixed g n H.second.limits) H.start = some (p, j')) (hq : h.generate o.unfixed H.start' = some (q, k'))
    (hv : h.validate = .ok ()) (hnames : h.Names H.Shared) (hw : h.Words) (ho : (o.fixed g n H.second.limits).Words)
    (hn : h.NonNegative) (hg : 0 < g) (hcount : 0 < n)
    (hlocks : h.operators.any Operator.needsLock = true → Word64.fits (g * 4) = true)
    (hmod : h.Moderate (o.fixed g n H.second.limits) H.start)
    (hsize : H.second.sizes h.groupSizeId = some g) (hcounts : H.second.sizes h.groupCountId = some n) :
    ∃ l l', p.body = foldBlock l ∧ q.body = foldBlock l' ∧ (base H).Concludes l l' := by
  obtain ⟨p, l₁, j₁, e, l₂, j₂, l₃, hplan, hbytes, hcode, rfl⟩ := Histogram.generate_steps hp
  obtain ⟨q, r₁, k₁, e', r₂, k₂, r₃, hplan', hbytes', hcode', rfl⟩ := Histogram.generate_steps hq
  obtain ⟨-, -, hset⟩ := Histogram.plan_settled hv hplan
  have hplans : (base H).Tracks (h.plan (o.fixed g n H.second.limits)) (h.plan o.unfixed) fun M p q => M.SamePlan h p q :=
    plan_tracks hv hnames hw (ho.groupSize g rfl) hg (ho.groupCount n rfl) hcount ho.lockCount rfl ⟨rfl, rfl⟩ ⟨rfl, rfl⟩ hsize hcounts
  obtain ⟨M, l₁, r₁, hM, hbelow, rfl, rfl, h₁, hsame⟩ := hplans _ _ _ _ _ _ _ _ _ _ (base_below H) hplan hplan'
  have hknown : e.constant? = (Plan.histBytes p.parts).constant? := by
    obtain ⟨_, -, hbind⟩ := Writes.bindSize _ _ _ _ _ _ _ hbytes
    exact hbind.constant?
  obtain ⟨N, l₂, r₂, hN, hbelow, rfl, rfl, h₂, hfixed⟩ := Tracks.bindStrict hsame.histBytes _ _ _ _ _ _ _ _ _ _ hbelow hbytes hbytes'
  have hfinish : N.Finishes (p.code (o.fixed g n H.second.limits) e) (q.code o.unfixed e') :=
    code_finishes (hsame.mono hN) hnames (Histogram.elementDim?_ne_none hv) hfixed (hset.groupSize_fixed g rfl) hg
      (fun hlock => hlocks (hset.needsLock hlock)) (fun v hv => hset.histBytes_nonneg hn (hknown ▸ hv))
      (fun x hx => hmod p _ _ x hplan (Plan.costs?_congr hknown ▸ hx)) rfl rfl rfl (ho.localMemoryPerThread _ rfl)
      (ho.maxLocalMemory _ rfl)
  obtain ⟨l₃, r₃, rfl, rfl, h₃⟩ := hfinish _ _ _ _ _ _ _ _ hbelow hcode hcode'
  exact ⟨_, _, rfl, rfl, (h₁.trans h₂).then (hM.trans hN) h₃⟩

end Link

end Machine

namespace Histogram

variable {h : Histogram} {o : Options} {g n : Int} {m m₁ : GpuHistogram.Machine} {p q : Program} {j j' k k' : ℕ}

/-! ## Sizes of the machine -/

theorem generate_sizes (hp : h.generate o k = some (p, k')) : p.sizes = h.openSizes o := by
  obtain ⟨_, _, _, _, _, _, _, -, -, -, rfl⟩ := generate_steps hp
  rfl

/-- the sizes that are chosen are those of every program; all others are as before -/
theorem resolveSize_chooseSizes (id : String) : (h.chooseSizes m g n).resolveSize p id =
    if id = h.groupCountId then some n else if id = h.groupSizeId then some g else m.resolveSize p id := by
  have hchosen (m : GpuHistogram.Machine) (id' : String) (v : Int) :
      (m.chooseSize id' v).resolveSize p id = if id = id' then some v else m.resolveSize p id := by
    unfold GpuHistogram.Machine.resolveSize GpuHistogram.Machine.chooseSize
    rw [List.lookup_cons]
    by_cases hid : id = id'
    · simp [hid]
    · simp [hid, beq_eq_false_iff_ne.2 hid]
  rw [chooseSizes, hchosen, hchosen]

/-- a program without sizes knows those that the machine has; once both sizes are chosen every program knows them -/
theorem resolveSize_mono (hp : p.sizes = []) (hg : ∀ v ∈ m.sizes.lookup h.groupSizeId, v = g)
    (hn : ∀ v ∈ m.sizes.lookup h.groupCountId, v = n) {id : String} {v : Int} (hv : m.resolveSize p id = some v) :
    (h.chooseSizes m g n).resolveSize q id = some v := by
  have hlookup : m.sizes.lookup id = some v := by
    rw [← hv, GpuHistogram.Machine.resolveSize, hp]
    cases m.sizes.lookup id <;> rfl
  rw [resolveSize_chooseSizes]
  split_ifs with h₁ h₂
  · exact congrArg some (hn v (h₁ ▸ hlookup)).symm
  · exact congrArg some (hg v (h₂ ▸ hlookup)).symm
  · rw [GpuHistogram.Machine.resolveSize, hlookup]
    rfl

/-! ## Runs -/

/-- **Choices of the run.** If the program that is compiled for groups of `g` threads, for `n` groups and for the device of a
machine runs there, then so does the program that is compiled for none of them, once these sizes are chosen. It launches
kernels of the same names in the same order, and every array that was bound before has the same contents afterwards. -/
theorem open_runs_as_fixed {gen : Gen Program} (hgen : h.compile (o.fixed g n m.limits) = .ok gen) (hp : gen j = some (p, j'))
    (hnames : h.Names fun x => x.Before j ∧ x.Before k) (hbound : m.state.Names fun x => x.Before j ∧ x.Before k)
    (hs : m.state.Sound) (hw : h.Words) (ho : (o.fixed g n m.limits).Words) (hn : h.NonNegative) (hg : 1 ≤ g) (hcount : 1 ≤ n)
    (hlocks : h.operators.any Operator.needsLock = true → Word64.fits (g * 4) = true) (hmod : h.Moderate (o.fixed g n m.limits) j)
    (hsize : ∀ v ∈ m.sizes.lookup h.groupSizeId, v = g) (hsize' : ∀ v ∈ m.sizes.lookup h.groupCountId, v = n)
    (hrun : m.run p = (.ok (), m₁)) :
    ∃ gen' q k' m₂, h.compile o.unfixed = .ok gen' ∧ gen' k = some (q, k') ∧ (h.chooseSizes m g n).run q = (.ok (), m₂) ∧
      m₂.launched = m₁.launched ∧ ∀ x, m.state.memory.contains x = true → m₂.arrayValues x = m₁.arrayValues x := by
  obtain ⟨hv, rfl⟩ := compile_eq_ok.1 hgen
  obtain ⟨q, k', hq, -⟩ := generate_total (h.validate_iff_not_illFormed.1 hv) o.unfixed k
  let m' := h.chooseSizes m g n
  let H : Hosts :=
    { first := m.context p
      second := m'.context q
      start := j
      start' := k
      limits := rfl
      loopLimit := rfl
      sizes := resolveSize_mono (generate_sizes hp) hsize hsize'
      thread := rfl
      thread' := rfl }
  have hdistinct : h.groupSizeId ≠ h.groupCountId := append_ne (by decide)
  have hgroupSize : m'.resolveSize q h.groupSizeId = some g := by
    rw [resolveSize_chooseSizes, if_neg hdistinct, if_pos rfl]
  have hgroupCount : m'.resolveSize q h.groupCountId = some n := (resolveSize_chooseSizes _).trans (if_pos rfl)
  obtain ⟨l, l', hl, hl', hconcludes⟩ := Link.hostCode_concludes (H := H) hp hq hv hnames hw ho hn (by omega) (by omega) hlocks
    hmod hgroupSize hgroupCount
  obtain ⟨s, hs₁, rfl⟩ := run_eq_ok.1 hrun
  rw [hl] at hs₁
  obtain ⟨t, ht, hlinked⟩ := hconcludes m.state m.state s (Link.base_ready hs hbound) hs₁
  refine ⟨_, q, k', { m' with state := t }, compile_eq_ok.2 ⟨hv, rfl⟩, hq, run_eq_ok.2 ⟨t, hl' ▸ ht, rfl⟩, ?_, fun x hx => ?_⟩
  · exact congrArg Array.toList hlinked.launched.symm
  · obtain ⟨place, hplace⟩ := Option.isSome_iff_exists.1 hx
    unfold GpuHistogram.Machine.arrayValues
    rw [hlinked.memory.values (hbound.arrays x place hplace)]

/-! ## A histogram on two arrays -/

theorem peaks_names {Q : Name → Prop} (hQ : ∀ n : Name, n.symbol = none → Q n) : peaks.Names Q := by
  have hexpr {e : Expr} (he : ∀ k, ∀ n ∈ e.reads k, n.symbol = none) : e.Names Q := fun k n hn => hQ n (he k n hn)
  refine
    { space := List.forall_mem_singleton.2 ⟨hQ _ rfl, hexpr ?_⟩
      operators := List.forall_mem_singleton.2
        { width := hexpr ?_
          shape := List.forall_mem_nil _
          bucketIndices := List.forall_mem_nil _
          combiner := ⟨List.forall_mem_cons.2 ⟨hQ _ rfl, List.forall_mem_singleton.2 (hQ _ rfl)⟩, fun u n hn => (nomatch hn),
            List.forall_mem_singleton.2 (hexpr ?_)⟩
          neutral := List.forall_mem_singleton.2 (hexpr ?_)
          dests := List.forall_mem_singleton.2 (hQ _ rfl) }
      body := fun u n hn => (nomatch hn)
      contributions := List.forall_mem_singleton.2 ⟨hexpr ?_, List.forall_mem_singleton.2 (hexpr ?_)⟩
      maps := List.forall_mem_singleton.2 ⟨hQ _ rfl, hexpr ?_⟩ }
  all_goals
    intro k
    cases k <;> decide

theorem peaks_words : peaks.Words where
  space := List.forall_mem_singleton.2 trivial
  operators := List.forall_mem_singleton.2
    ⟨rfl, List.forall_mem_nil _, ⟨trivial, List.forall_mem_singleton.2 ⟨trivial, trivial⟩⟩, List.forall_mem_singleton.2 rfl, by decide⟩
  body := trivial
  contributions := List.forall_mem_singleton.2 ⟨trivial, List.forall_mem_singleton.2 trivial⟩
  maps := List.forall_mem_singleton.2 trivial

theorem peaksMachine_names {Q : Name → Prop} (hQ : ∀ n : Name, n.symbol = none → Q n) {limit : Int} :
    (peaksMachine limit).state.Names Q where
  vars n v hv := by
    change (Bindings.set ∅ (.plain "n") (Value.word 3)).get? n = some v at hv
    rw [Bindings.get?_set] at hv
    split_ifs at hv with hn
    · exact hQ n (hn ▸ rfl)
    · cases hv
  arrays n p hp := by
    change ((Bindings.set ∅ (.plain "greatest") 0).set (.plain "copy") 1).get? n = some p at hp
    rw [Bindings.get?_set, Bindings.get?_set] at hp
    split_ifs at hp with hcopy hgreatest
    · exact hQ n (hcopy ▸ rfl)
    · exact hQ n (hgreatest ▸ rfl)
    · cases hp

theorem peaksMachine_sound {limit : Int} : (peaksMachine limit).state.Sound :=
  ((State.Sound.empty.insert (.plain "greatest") (Buffer.uniform_ofValues .i64 (by decide))).insert (.plain "copy")
    (Buffer.uniform_ofValues .i64 (by decide))).set (.plain "n") (v := .word 3) (by decide)

/-- three numbers in two buckets, by three groups of four threads: the placement is decided in advance, or else by the run -/
theorem open_runs_as_fixed_peaks : ∃ gen gen' p q j' k' m₁ m₂,
    let m := peaksMachine defaultLoopLimit
    peaks.compile (Options.fixed {} 4 3 m.limits) = .ok gen ∧ gen 0 = some (p, j') ∧ m.run p = (.ok (), m₁) ∧
      peaks.compile (Options.unfixed {}) = .ok gen' ∧ gen' j' = some (q, k') ∧
      ((m.chooseSize "peaks_group_size" 4).chooseSize "peaks_num_groups" 3).run q = (.ok (), m₂) ∧
      m₂.launched = m₁.launched ∧ m₂.arrayValues (.plain "greatest") = m₁.arrayValues (.plain "greatest") := by
  let m := peaksMachine defaultLoopLimit
  have hs : peaks.Setting peaksMeaning peaksContents (fixedLaunch {} 4 3) m 0 [.plain "n"] [] 4 3 :=
    peaks_setting (by decide) (by decide) (by decide) (by decide) (by decide)
  obtain ⟨r, l, k₁, hplan, hx⟩ := peaks_costs
  obtain ⟨p, j', m₁, hplaced, hrun, -⟩ := hs.wide.placement_runs peaks_admits fun _ _ => by decide
  have hp : peaks.generate (fixedLaunch {} 4 3) 0 = some (p, j') := (generate_eq_placed hplan hx (by decide)).trans hplaced
  have hbefore (n : Name) (hn : n.symbol = none) : n.Before 0 ∧ n.Before j' := by
    constructor <;> intro i hi <;> cases hn.symm.trans hi
  have hmod : peaks.Moderate (Options.fixed {} 4 3 m.limits) 0 := by
    rintro r' l' k' c hplan' hc -
    cases hplan.symm.trans hplan'
    cases hx.symm.trans hc
    unfold Placement.Costs.Moderate
    decide +kernel
  have hnonneg : peaks.NonNegative := by
    unfold NonNegative
    decide
  obtain ⟨gen', q, k', m₂, hgen', hq, hrun', hlaunched, harrays⟩ := open_runs_as_fixed (o := {}) (g := 4) (n := 3) (m := m)
    hs.wide.compile_eq hp (peaks_names hbefore) (peaksMachine_names hbefore) peaksMachine_sound peaks_words
    ⟨by decide, by decide, by decide, by decide, by decide⟩ hnonneg (by decide) (by decide) (fun _ => by decide) hmod nofun nofun hrun
  exact ⟨_, gen', p, q, j', k', m₁, m₂, hs.wide.compile_eq, hp, hrun, hgen', hq, hrun', hlaunched, harrays _ rfl⟩

end Histogram

end GpuHistogram
