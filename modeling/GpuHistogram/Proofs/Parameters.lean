/-
The names of the parameters of a lowered kernel. The captured variables and, in OpenCL, the blocks of local memory keep
their names; what CUDA needs beside them has names that are made up: `offsetName` for the place of a block, and the names of
the axes. A made-up name is a plain one, so blocks that differ only in their symbols get one name for both places.

`params_nodup_iff` says when the parameters are told apart by their names: always in OpenCL, and in CUDA exactly if the
texts of the computed blocks differ and no captured variable has a made-up name. `offsets_collide` is a kernel with names
that are all different whose parameters are not.
-/
import GpuHistogram.Code.Build
import GpuHistogram.Proofs.Lowered
import Mathlib.Data.List.Nodup

namespace GpuHistogram

/-- the blocks whose sizes the host decides -/
def Kernel.computedBlocks (k : Kernel) : List LocalBlock := k.blocks.filter LocalBlock.isComputed

/-- the parameters that are made up in CUDA are told apart: by the texts of the blocks, and from the captured variables -/
structure Kernel.Distinguishes (k : Kernel) : Prop where
  texts : (k.computedBlocks.map (·.name.text)).Nodup
  offsets : ∀ c ∈ k.captures, ∀ b ∈ k.computedBlocks, c.1 ≠ .plain (b.name.text ++ "_offset")
  axes : k.dims = 3 → ∀ c ∈ k.captures, c.1 ∉ axisParams

theorem offsetName_injective {n m : Name} (h : offsetName n = offsetName m) : n.text = m.text := by
  have ht := congrArg (fun x : Name => x.text.toList) h
  simp only [offsetName, Name.plain, String.toList_append, List.append_cancel_right_eq] at ht
  exact String.toList_inj.1 ht

theorem offsetName_not_mem_axisParams (n : Name) : offsetName n ∉ axisParams := by
  have hlast : (offsetName n).text.toList.getLast? = some 't' := by
    simp only [offsetName, Name.plain, String.toList_append]
    rw [List.getLast?_append]
    rfl
  intro h
  have haxes : ∀ m ∈ axisParams, m.text.toList.getLast? ≠ some 't' := by decide
  exact haxes _ h hlast

/-- the name of the parameter that a computed block needs -/
def LocalBlock.paramName (t : Target) (b : LocalBlock) : Name :=
  match t with
  | .openCL => b.name
  | .cuda => offsetName b.name

theorem Kernel.paramNames_eq (k : Kernel) (t : Target) : k.paramNames t =
    k.captures.map (·.1) ++ k.computedBlocks.map (LocalBlock.paramName t) ++ if t.permutes k.dims then axisParams else [] := by
  have hblocks (l : List LocalBlock) :
      (l.filterMap (·.param? t)).map (·.name) = (l.filter LocalBlock.isComputed).map (LocalBlock.paramName t) := by
    induction l with
    | nil => rfl
    | cons b l ih =>
      rw [List.filterMap_cons, List.filter_cons]
      cases hsize : b.size with
      | fixed n =>
        have hp : b.param? t = none := by simp [LocalBlock.param?, hsize]
        have hc : b.isComputed = false := by simp [LocalBlock.isComputed, hsize]
        rw [hp, hc]
        exact ih
      | computed e =>
        have hp : ∃ q, b.param? t = some q ∧ q.name = b.paramName t := by
          cases t <;> exact ⟨_, by simp only [LocalBlock.param?, hsize]; rfl, rfl⟩
        have hc : b.isComputed = true := by simp [LocalBlock.isComputed, hsize]
        obtain ⟨q, hp, hq⟩ := hp
        rw [hp, hc, if_pos rfl, List.map_cons, List.map_cons, hq, ih]
  rw [paramNames, computedBlocks, hblocks]

/-- in OpenCL the parameters have names that there were before -/
theorem Kernel.nodup_paramNames_openCL {k : Kernel} (h : (k.captures.map (·.1) ++ k.blocks.map (·.name)).Nodup) :
    (k.paramNames .openCL).Nodup := by
  have hsub : (k.computedBlocks.map (LocalBlock.paramName .openCL)).Sublist (k.blocks.map (·.name)) :=
    List.Sublist.map _ List.filter_sublist
  rw [paramNames_eq, if_neg (by simp [Target.permutes]), List.append_nil]
  exact h.sublist ((List.Sublist.refl _).append hsub)

theorem Kernel.nodup_paramNames_cuda {k : Kernel} (h : (k.captures.map (·.1) ++ k.blocks.map (·.name)).Nodup) :
    (k.paramNames .cuda).Nodup ↔ k.Distinguishes := by
  have hcaptures := (List.nodup_append.1 h).1
  have hoffsets : (k.computedBlocks.map (LocalBlock.paramName .cuda)).Nodup ↔ (k.computedBlocks.map (·.name.text)).Nodup := by
    have hmap : k.computedBlocks.map (LocalBlock.paramName .cuda) =
        (k.computedBlocks.map (·.name.text)).map fun t => Name.plain (t ++ "_offset") := by
      rw [List.map_map]
      rfl
    rw [hmap]
    exact List.nodup_map_iff fun a b hab => offsetName_injective (n := .plain a) (m := .plain b) hab
  have hperm : Target.permutes .cuda k.dims = true ↔ k.dims = 3 := by simp [Target.permutes]
  rw [paramNames_eq, List.nodup_append, List.nodup_append, hoffsets]
  constructor
  · rintro ⟨⟨-, htexts, hco⟩, -, haxes⟩
    refine ⟨htexts, fun c hc b hb he => hco c.1 (List.mem_map_of_mem hc) _ (List.mem_map_of_mem hb) he, fun hd c hc hm => ?_⟩
    rw [if_pos (hperm.2 hd)] at haxes
    exact haxes c.1 (List.mem_append_left _ (List.mem_map_of_mem hc)) c.1 hm rfl
  · rintro ⟨htexts, hco, haxes⟩
    refine ⟨⟨hcaptures, htexts, fun a ha b hb he => ?_⟩, ?_, fun a ha b hb he => ?_⟩
    · obtain ⟨c, hc, rfl⟩ := List.mem_map.1 ha
      obtain ⟨x, hx, rfl⟩ := List.mem_map.1 hb
      exact hco c hc x hx he
    · split
      · decide
      · exact List.nodup_nil
    · split at hb
      · next hp =>
        subst he
        rcases List.mem_append.1 ha with ha | ha
        · obtain ⟨c, hc, rfl⟩ := List.mem_map.1 ha
          exact haxes (hperm.1 hp) c hc hb
        · obtain ⟨x, -, rfl⟩ := List.mem_map.1 ha
          exact offsetName_not_mem_axisParams x.name hb
      · cases hb

/-- **Parameters told apart.** Where the captured variables and the blocks of local memory have different names, so have the
parameters of the lowered kernel in OpenCL; in CUDA they have exactly if the names that are made up differ. -/
theorem Kernel.params_nodup_iff {t : Target} {k : Kernel} {u u' : Source.Features} {κ : Source.Kernel}
    (hnames : (k.captures.map (·.1) ++ k.blocks.map (·.name)).Nodup) (h : (k.toSource t).run u = .ok κ u') :
    (κ.params.map (·.name)).Nodup ↔ t = .openCL ∨ k.Distinguishes := by
  have hlow := k.toSource_lowers t u
  unfold Lowers at hlow
  unfold EStateM.run at h
  rw [h] at hlow
  rw [hlow.2.1]
  cases t with
  | openCL => simp [nodup_paramNames_openCL hnames]
  | cuda => simp [nodup_paramNames_cuda hnames]

/-- a kernel with two blocks of local memory of one text, whose sizes the host decides -/
def twoBlocks : Kernel where
  name := .plain "k"
  captures := []
  blocks := [⟨⟨"buf", some 0⟩, .i64, .computed 4⟩, ⟨⟨"buf", some 1⟩, .i64, .computed 4⟩]
  groups := [1]
  groupSize := [1]
  origin := .unknown
  body := []

/-- in OpenCL the two blocks are two parameters -/
theorem params_nodup_iff_twoBlocks : (twoBlocks.captures.map (·.1) ++ twoBlocks.blocks.map (·.name)).Nodup ∧
    ∃ κ u, (twoBlocks.toSource .openCL).run {} = .ok κ u ∧ (κ.params.map (·.name)).Nodup :=
  have hnames : (twoBlocks.captures.map (·.1) ++ twoBlocks.blocks.map (·.name)).Nodup := by decide
  have hlowered : ∃ κ u, (twoBlocks.toSource .openCL).run {} = .ok κ u := ⟨_, _, rfl⟩
  let ⟨κ, u, h⟩ := hlowered
  ⟨hnames, κ, u, h, (Kernel.params_nodup_iff hnames h).2 (.inl rfl)⟩

/-- in CUDA the two blocks are placed at one parameter -/
theorem offsets_collide : (twoBlocks.captures.map (·.1) ++ twoBlocks.blocks.map (·.name)).Nodup ∧
    ∃ κ u, (twoBlocks.toSource .cuda).run {} = .ok κ u ∧ ¬ (κ.params.map (·.name)).Nodup :=
  ⟨by decide, _, _, rfl, by decide⟩

end GpuHistogram
