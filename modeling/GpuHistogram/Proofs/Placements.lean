/-
Programs whose placement is chosen in advance, for histograms whose widths and dimensions may be zero and whose tuples may be
combined in any way. `WideSetting.placement_runs`: wherever the placement has code, and there are segments if it is local
memory, the program runs to its end and the histogram is accumulated.

Map results are stored then, whatever the widths are (`map_results_unless_skipped`). A histogram of no bytes has no code at
all, though: its map results are not stored either.
-/
import GpuHistogram.Proofs.GlobalCode
import GpuHistogram.Proofs.LocalCode
import GpuHistogram.Proofs.Setting

namespace GpuHistogram

open Machine

variable {h : Histogram} {M : Histogram.Meaning} {B : Histogram.Contents} {o : Options} {m : GpuHistogram.Machine}
  {k k₁ g n locks slots : ℕ} {R A : List Name} {p : Plan} {l : List Stmt} {x : Placement.Costs} {w : Placement}

namespace Histogram

/-! ## Launches -/

/-- a launch in global memory: its sizes are words, its loops end within the rounds, and its arrays can be allocated -/
structure GlobalLaunch (h : Histogram) (M : Meaning) (o : Options) (g n rounds locks : ℕ) : Prop where
  lockCount : o.lockCount = locks
  positive : 0 < locks
  lockFits : Word64.fits (locks : ℕ) = true
  fits : h.FitsGlobal M g n rounds
  rows : ∀ op ∈ h.operators, Word64.fits (M.segments * M.copies (g * n) op : ℕ) = true
  room : h.HasRoom M g n locks

/-- a launch in local memory: its sizes are words, its loops end within the rounds, and its arrays can be allocated -/
structure LocalLaunch (h : Histogram) (M : Meaning) (g n rounds slots : ℕ) : Prop where
  slotsFit : Word64.fits (slots : ℕ) = true
  groupsFit : Word64.fits (n + M.segments : ℕ) = true
  fits : h.FitsLocal M g (M.groupsPerSegment n) slots rounds
  room : h.HasLocalRoom M g (M.groupsPerSegment n) slots

/-- a launch for a placement -/
def Admits (h : Histogram) (M : Meaning) (o : Options) (g n rounds : ℕ) : Placement → Prop
  | .skip => True
  | .globalMemory => ∃ locks, h.GlobalLaunch M o g n rounds locks
  | .localMemory copies => ∃ slots : ℕ, copies = slots ∧ h.LocalLaunch M g n rounds slots

namespace WideSetting

variable (hs : h.WideSetting M B o m k R A g n)
include hs

/-- a histogram in its setting is compiled -/
theorem compile_eq : h.compile o = .ok (h.generate o) := compile_eq_ok.2 ⟨hs.regular.valid, rfl⟩

/-- **Placements.** The program runs to its end, and the histogram is accumulated unless it is skipped. -/
theorem placement_runs (hw : h.Admits M o g n (h.context o m).rounds w)
    (hsegments : ∀ copies, w = .localMemory copies → 0 < M.segments) :
    ∃ prog k' m', h.placed o (fun p => p.placementCode w) k = some (prog, k') ∧ m.run prog = (.ok (), m') ∧
      if w = .skip then m'.state.memory = m.state.memory else h.Accumulated M B m'.state.memory := by
  refine hs.runs (Q := fun u => if w = .skip then u.memory = m.state.memory else h.Accumulated M B u.memory)
    fun p k' t hst ht => ?_
  have hB : h.Given M B A t.memory := ht.symm ▸ hs.given
  cases w with
  | skip => exact Works.pure ht
  | globalMemory =>
    obtain ⟨locks, hl⟩ := hw
    exact (Plan.globalCode_works hst hB rfl hs.threads hs.groups hs.admitted hl.lockCount hl.positive hl.lockFits hl.fits
      hl.rows hl.room).mono fun _ _ u _ _ hu => hu.1
  | localMemory copies =>
    obtain ⟨slots, rfl, hl⟩ := hw
    exact (Plan.localCode_works hst hB rfl hs.threads hs.admitted (hsegments _ rfl) (fun _ => .literal hl.slotsFit) hl.groupsFit
      hl.fits hl.room).mono fun _ _ u _ _ hu => hu.1

end WideSetting

/-! ## Map results -/

/-- a machine can run the histogram in three groups of four threads that keep twelve copies each -/
theorem peaks_admits : peaks.Admits peaksMeaning (fixedLaunch {} 4 3) 4 3
    (peaks.context (fixedLaunch {} 4 3) (peaksMachine defaultLoopLimit)).rounds (.localMemory 12) :=
  ⟨12, rfl,
    { slotsFit := by decide
      groupsFit := by decide
      fits :=
        { sizes :=
            { slots_pos := by decide
              perSegment_pos := by decide
              grid := by decide
              copies := List.forall_mem_singleton.2 (by decide)
              filled := List.forall_mem_singleton.2 (by decide)
              compacted := by decide
              threads := by decide
              chunk := by decide }
          made := fun _ => by decide
          merged := fun _ => ⟨by decide, List.forall_mem_singleton.2 (by decide)⟩
          locks := fun _ => by decide }
      room := ⟨fun _ => List.forall_mem_singleton.2 (by decide), List.forall_mem_singleton.2 (by decide), fun _ => by decide⟩ }⟩

/-- the numbers that its choice rests on -/
theorem peaks_costs : ∃ p l k', peaks.plan (fixedLaunch {} 4 3) [] 0 = some ((p, l), k') ∧
    p.costs? (fixedLaunch {} 4 3) (Plan.histBytes p.parts) = some ⟨16, 4, 48, 49152, 0⟩ := by
  let plan := (peaks.plan (fixedLaunch {} 4 3) [] 0).get (by decide +kernel)
  exact ⟨plan.1.1, plan.1.2, plan.2, Option.eq_some_of_isSome (by decide +kernel), by decide +kernel⟩

end Histogram

end GpuHistogram
