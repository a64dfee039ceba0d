/-
Histograms in local memory. `computed_in_local_memory`: the program that accumulates in local memory runs to its end and the
histogram is computed, for every size of the launch and every number of copies that a group keeps, by whichever methods the
operators are updated. The arrays that it makes, in global memory and for each group, have to be small enough to be
allocated (`Histogram.HasLocalRoom`): `computed_needs_local_room`.
-/
import GpuHistogram.Proofs.LocalCode
import GpuHistogram.Proofs.Setting

namespace GpuHistogram

open Machine

variable {h : Histogram} {M : Histogram.Meaning} {B : Histogram.Contents} {o : Options} {m : GpuHistogram.Machine}
  {k g n slots : ℕ} {R A : List Name}

namespace Histogram

/-- **Local memory.** The program runs to its end. Every place of a destination then holds what it held, combined with the
values of exactly the elements of its segment that go there, every map result is at the number of its element, and all other
arrays are as they were. Where local memory is chosen in advance this is the compiled program. -/
theorem computed_in_local_memory (hs : h.Setting M B o m k R A g n) (hslots : Word64.fits (slots : ℕ) = true)
    (hgroups : Word64.fits (n + M.segments : ℕ) = true)
    (hfit : h.FitsLocal M g (M.groupsPerSegment n) slots (h.context o m).rounds)
    (hroom : h.HasLocalRoom M g (M.groupsPerSegment n) slots) :
    ∃ prog k' m', h.placed o (fun p => p.localCode (.i64 slots)) k = some (prog, k') ∧ m.run prog = (.ok (), m') ∧
      h.Computed M B m'.state.memory ∧
      (∀ x i b, x.Before k → m.state.memory.Apart h.written x → m.state.memory.Has x i b → m'.state.memory.Has x i b) ∧
      ∀ p l k₁ x, h.plan o [] k = some ((p, l), k₁) → p.costs? o (Plan.histBytes p.parts) = some x →
        Placement.choose? x = some (.localMemory slots) → ∃ gen, h.compile o = .ok gen ∧ gen k = some (prog, k') := by
  obtain ⟨prog, k', m', hprog, hrun, hC, hother⟩ := hs.wide.runs (Q := fun u => h.Computed M B u.memory ∧
      ∀ x i b, x.Before k → m.state.memory.Apart h.written x → m.state.memory.Has x i b → u.memory.Has x i b)
    fun p k' t hst ht => by
      have hw := Plan.localCode_works (f := .folded) hst (ht.symm ▸ hs.given) rfl hs.threads hs.admitted hs.proper.segments
        (fun _ => .literal hslots) hgroups hfit hroom
      rw [ht] at hw
      exact hw.mono fun _ _ u _ _ hu => ⟨hu.1.computed fun op hop => .of_commutes (hs.evaluates.commutes op hop), hu.2⟩
  refine ⟨prog, k', m', hprog, hrun, hC, hother, fun p l k₁ x hplan hx hchosen => ?_⟩
  exact ⟨_, compile_eq_ok.2 ⟨hs.regular.valid, rfl⟩, (generate_eq_placed hplan hx hchosen).trans hprog⟩

/-- three numbers in two buckets, by three groups of four threads that keep twelve copies each -/
theorem computed_in_local_memory_peaks : ∃ gen prog k' m', peaks.compile (fixedLaunch {} 4 3) = .ok gen ∧
    gen 0 = some (prog, k') ∧ (peaksMachine defaultLoopLimit).run prog = (.ok (), m') ∧
    peaks.Computed peaksMeaning peaksContents m'.state.memory := by
  let o := fixedLaunch {} 4 3
  have hs : peaks.Setting peaksMeaning peaksContents o (peaksMachine defaultLoopLimit) 0 [.plain "n"] [] 4 3 :=
    peaks_setting (by decide) (by decide) (by decide) (by decide) (by decide)
  have hfit : peaks.FitsLocal peaksMeaning 4 3 12 (peaks.context o (peaksMachine defaultLoopLimit)).rounds :=
    { sizes :=
        { slots_pos := by decide
          perSegment_pos := by decide
          grid := by decide
          copies := List.forall_mem_singleton.2 (by decide)
          filled := List.forall_mem_singleton.2 (by decide)
          compacted := by decide
          threads := by decide
          chunk := by decide }
      made := fun _ => by decide
      merged := fun _ => ⟨by decide, List.forall_mem_singleton.2 (by decide)⟩
      locks := fun _ => by decide }
  have hroom : peaks.HasLocalRoom peaksMeaning 4 3 12 :=
    ⟨fun _ => List.forall_mem_singleton.2 (by decide), List.forall_mem_singleton.2 (by decide), fun _ => by decide⟩
  obtain ⟨prog, k', m', -, hrun, hC, -, hcompile⟩ := computed_in_local_memory hs (by decide) (by decide) hfit hroom
  let plan := (peaks.plan o [] 0).get (by decide +kernel)
  have hplan : peaks.plan o [] 0 = some ((plan.1.1, plan.1.2), plan.2) := Option.eq_some_of_isSome (by decide +kernel)
  have hchosen : (plan.1.1.costs? o (Plan.histBytes plan.1.1.parts)).bind Placement.choose? = some (.localMemory 12) := by
    decide +kernel
  obtain ⟨x, hx, hchosen⟩ := Option.bind_eq_some_iff.1 hchosen
  obtain ⟨gen, hgen, hprog⟩ := hcompile _ _ _ x hplan hx hchosen
  exact ⟨gen, prog, k', m', hgen, hprog, hrun, hC⟩

/-- the arrays of copies must be small enough to be allocated: with 2^58 groups of one thread, that of the histogram with two
buckets would have 2^59 elements, and the machine gives up -/
theorem computed_needs_local_room : ¬ ∀ (h : Histogram) (M : Meaning) (B : Contents) (o : Options) (m : GpuHistogram.Machine)
    (k : ℕ) (R A : List Name) (g n slots : ℕ), h.Setting M B o m k R A g n → Word64.fits (slots : ℕ) = true →
    Word64.fits (n + M.segments : ℕ) = true → h.FitsLocal M g (M.groupsPerSegment n) slots (h.context o m).rounds →
    ∃ prog k' m', h.placed o (fun p => p.localCode (.i64 slots)) k = some (prog, k') ∧ m.run prog = (.ok (), m') ∧
      h.Computed M B m'.state.memory := by
  intro hall
  let o := fixedLaunch {} 1 (2 ^ 58)
  have hs : peaks.Setting peaksMeaning peaksContents o (peaksMachine (2 ^ 60)) 0 [.plain "n"] [] 1 (2 ^ 58) :=
    peaks_setting (by decide) (by decide) (by decide) (by decide) (by decide)
  have hfit : peaks.FitsLocal peaksMeaning 1 (2 ^ 58) 3 (peaks.context o (peaksMachine (2 ^ 60))).rounds :=
    { sizes :=
        { slots_pos := by decide
          perSegment_pos := by decide
          grid := by decide
          copies := List.forall_mem_singleton.2 (by decide)
          filled := List.forall_mem_singleton.2 (by decide)
          compacted := by decide
          threads := by decide
          chunk := by decide }
      made := fun _ => by decide
      merged := fun _ => ⟨by decide, List.forall_mem_singleton.2 (by decide)⟩
      locks := fun _ => by decide }
  obtain ⟨prog, k', m', hprog, hrun, -⟩ := hall _ _ _ o _ 0 _ _ 1 (2 ^ 58) 3 hs (by decide) (by decide) hfit
  have hfails : (peaks.placed o (fun p => p.localCode (.i64 (3 : ℕ))) 0).map
      (fun r => ((peaksMachine (2 ^ 60)).run r.1).1.isOk) = some false := by
    decide +kernel
  rw [hprog, Option.map_some, hrun] at hfails
  cases hfails

end Histogram

end GpuHistogram
