/-
Histograms in global memory. `computed_in_global_memory`: the program that accumulates in global memory runs to its end and
the histogram is computed, for every size of the launch and every number of locks, by whichever methods the operators are
updated. The arrays that it makes have to be small enough to be allocated (`Histogram.HasRoom`): `computed_needs_room`.
-/
import GpuHistogram.Proofs.GlobalCode
import GpuHistogram.Proofs.Setting

namespace GpuHistogram

open Machine

variable {h : Histogram} {M : Histogram.Meaning} {B : Histogram.Contents} {o : Options} {m : GpuHistogram.Machine}
  {k g n locks : ℕ} {R A : List Name}

namespace Histogram

/-- **Global memory.** The program runs to its end. Every place of a destination then holds what it held, combined with the
values of exactly the elements of its segment that go there, every map result is at the number of its element, and all other
arrays are as they were. Where global memory is chosen in advance this is the compiled program. -/
theorem computed_in_global_memory (hs : h.Setting M B o m k R A g n) (hlocks : o.lockCount = locks) (hpos : 0 < locks)
    (hlockFits : Word64.fits (locks : ℕ) = true) (hfit : h.FitsGlobal M g n (h.context o m).rounds)
    (hroom : h.HasRoom M g n locks) :
    ∃ prog k' m', h.placed o Plan.globalCode k = some (prog, k') ∧ m.run prog = (.ok (), m') ∧
      h.Computed M B m'.state.memory ∧
      (∀ x i b, x.Before k → m.state.memory.Apart h.written x → m.state.memory.Has x i b → m'.state.memory.Has x i b) ∧
      ∀ p l k₁ x, h.plan o [] k = some ((p, l), k₁) → p.costs? o (Plan.histBytes p.parts) = some x →
        Placement.choose? x = some .globalMemory → ∃ gen, h.compile o = .ok gen ∧ gen k = some (prog, k') := by
  have hrows (op) (hop : op ∈ h.operators) : Word64.fits (M.segments * M.copies (g * n) op : ℕ) = true :=
    Word64.fits_le (hfit.copies op hop) (Nat.le_mul_of_pos_right _ (hs.proper.size hop))
  obtain ⟨prog, k', m', hprog, hrun, hC, hother⟩ := hs.wide.runs (Q := fun u => h.Computed M B u.memory ∧
      ∀ x i b, x.Before k → m.state.memory.Apart h.written x → m.state.memory.Has x i b → u.memory.Has x i b)
    fun p k' t hst ht => by
      have hw := Plan.globalCode_works (f := .folded) hst (ht.symm ▸ hs.given) rfl hs.threads hs.groups hs.admitted hlocks hpos
        hlockFits hfit hrows hroom
      rw [ht] at hw
      exact hw.mono fun _ _ u _ _ hu => ⟨hu.1.computed fun op hop => .of_commutes (hs.evaluates.commutes op hop), hu.2⟩
  refine ⟨prog, k', m', hprog, hrun, hC, hother, fun p l k₁ x hplan hx hchosen => ?_⟩
  exact ⟨_, compile_eq_ok.2 ⟨hs.regular.valid, rfl⟩, (generate_eq_placed hplan hx hchosen).trans hprog⟩

/-- three numbers in two buckets, by eight groups of four threads on a device without local memory -/
theorem computed_in_global_memory_peaks : ∃ gen prog k' m', peaks.compile (fixedLaunch { localMemoryPerThread := 0 } 4 8) = .ok gen ∧
    gen 0 = some (prog, k') ∧ (peaksMachine defaultLoopLimit).run prog = (.ok (), m') ∧
    peaks.Computed peaksMeaning peaksContents m'.state.memory := by
  let o := fixedLaunch { localMemoryPerThread := 0 } 4 8
  have hs : peaks.Setting peaksMeaning peaksContents o (peaksMachine defaultLoopLimit) 0 [.plain "n"] [] 4 8 :=
    peaks_setting (by decide) (by decide) (by decide) (by decide) (by decide)
  have hfit : peaks.FitsGlobal peaksMeaning 4 8 (peaks.context o (peaksMachine defaultLoopLimit)).rounds :=
    { chunks := by decide
      chunk := by decide
      buckets := List.forall_mem_singleton.2 (by decide)
      shares := List.forall_mem_singleton.2 (by decide)
      copies := List.forall_mem_singleton.2 (by decide)
      made := List.forall_mem_singleton.2 fun _ => by decide
      merged := List.forall_mem_singleton.2 fun _ => by decide }
  have hroom : peaks.HasRoom peaksMeaning 4 8 10000 :=
    ⟨List.forall_mem_singleton.2 fun _ => by decide, fun _ => by decide⟩
  obtain ⟨prog, k', m', -, hrun, hC, -, hcompile⟩ := computed_in_global_memory hs rfl (by decide) (by decide) hfit hroom
  let plan := (peaks.plan o [] 0).get (by decide +kernel)
  have hplan : peaks.plan o [] 0 = some ((plan.1.1, plan.1.2), plan.2) := Option.eq_some_of_isSome (by decide +kernel)
  have hchosen : (plan.1.1.costs? o (Plan.histBytes plan.1.1.parts)).bind Placement.choose? = some .globalMemory := by
    decide +kernel
  obtain ⟨x, hx, hchosen⟩ := Option.bind_eq_some_iff.1 hchosen
  obtain ⟨gen, hgen, hprog⟩ := hcompile _ _ _ x hplan hx hchosen
  exact ⟨gen, prog, k', m', hgen, hprog, hrun, hC⟩

/-- the arrays of copies must be small enough to be allocated: with 2^58 groups of one thread, that of the histogram with two
buckets would have 2^58 elements, and the machine gives up -/
theorem computed_needs_room : ¬ ∀ (h : Histogram) (M : Meaning) (B : Contents) (o : Options) (m : GpuHistogram.Machine)
    (k : ℕ) (R A : List Name) (g n locks : ℕ), h.Setting M B o m k R A g n → o.lockCount = locks → 0 < locks →
    Word64.fits (locks : ℕ) = true → h.FitsGlobal M g n (h.context o m).rounds →
    ∃ prog k' m', h.placed o Plan.globalCode k = some (prog, k') ∧ m.run prog = (.ok (), m') ∧
      h.Computed M B m'.state.memory := by
  intro hall
  let o := fixedLaunch { localMemoryPerThread := 0 } 1 (2 ^ 58)
  have hs : peaks.Setting peaksMeaning peaksContents o (peaksMachine (2 ^ 60)) 0 [.plain "n"] [] 1 (2 ^ 58) :=
    peaks_setting (by decide) (by decide) (by decide) (by decide) (by decide)
  have hfit : peaks.FitsGlobal peaksMeaning 1 (2 ^ 58) (peaks.context o (peaksMachine (2 ^ 60))).rounds :=
    { chunks := by decide
      chunk := by decide
      buckets := List.forall_mem_singleton.2 (by decide)
      shares := List.forall_mem_singleton.2 (by decide)
      copies := List.forall_mem_singleton.2 (by decide)
      made := List.forall_mem_singleton.2 fun _ => by decide
      merged := List.forall_mem_singleton.2 fun _ => by decide }
  obtain ⟨prog, k', m', hprog, hrun, -⟩ := hall _ _ _ o _ 0 _ _ 1 (2 ^ 58) 10000 hs rfl (by decide) (by decide) hfit
  have hfails : (peaks.placed o Plan.globalCode 0).map (fun r => ((peaksMachine (2 ^ 60)).run r.1).1.isOk) = some false := by
    decide +kernel
  rw [hprog, Option.map_some, hrun] at hfails
  cases hfails

end Histogram

end GpuHistogram
