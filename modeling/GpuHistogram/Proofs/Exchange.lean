/-
The exchange of axes on a grid of CUDA. The host places axis `d` of a launch on axis `p[d]` of the grid, a group asks in
the other direction: from its place on the grid it computes its place in the launch, by the functions of the prelude and
the arguments that the host passes. Both directions agree only if no two axes share a place.

Model: `PlaceValue` is what a function of the prelude returns, its text and its value built side by side; the texts are
those of the prelude (`permuted_functions_mem`). `answer` is the value of the call that a kernel makes, and `logicalIndex`
puts the answers for the three axes together.

Results, for three axes with any numbers of groups:
- `largest_three`: the longest axis, the first of them if there are several;
- `permutation_three`: the permutation exchanges it with the first axis, nothing else;
- `answer_groupId`, `answer_groupCount`: what a group is told, for any permutation;
- `swap_involutive`: exchanging twice changes nothing, which is why one permutation serves both directions;
- `exchange_of_axes`: the permutation is one, the longest axis is the first of the grid, groups of the grid and groups of
  the launch correspond one to one, and the grid is refused only if every order of the axes is too large.
-/
import Mathlib.Data.List.Forall2
import Mathlib.Data.List.MinMax
import Mathlib.Data.Set.Function
import GpuHistogram.Scalar.Value
import GpuHistogram.Source.DeviceCode

namespace GpuHistogram

/-! ## The functions of the prelude -/

/-- where a group runs: its place on the grid, and the groups along each axis of the grid -/
structure GridPlace where
  index : List Int
  counts : List Int
  deriving DecidableEq

/-- what a function of the prelude returns: its text, and its value from a place and the arguments -/
structure PlaceValue where
  text : String
  value : GridPlace → List Int → Int

namespace PlaceValue

/-- an argument -/
def argument (name : String) (i : Nat) : PlaceValue :=
  ⟨name, fun _ args => args.getD i 0⟩

/-- an entry of a built-in variable -/
def builtin (source entry : String) (v : GridPlace → List Int) (i : Nat) : PlaceValue :=
  ⟨s!"{source}.{entry}", fun g _ => (v g).getD i 0⟩

/-- one of three values, by an axis -/
def byAxis (d x y z : PlaceValue) : PlaceValue :=
  ⟨s!"{d.text} == 0 ? {x.text} : {d.text} == 1 ? {y.text} : {z.text}", fun g args =>
    if d.value g args = 0 then x.value g args else if d.value g args = 1 then y.value g args else z.value g args⟩

/-- a conversion to 32 bits -/
def toInt (e : PlaceValue) : PlaceValue :=
  ⟨s!"(int)({e.text})", fun g args => Scalar.i32.wrap (e.value g args)⟩

/-- a call of a function with one result -/
def call (name : String) (f : PlaceValue) (args : List PlaceValue) : PlaceValue :=
  ⟨name ++ "(" ++ ", ".intercalate (args.map text) ++ ")", fun g given => f.value g (args.map (·.value g given))⟩

/-- the entry of a built-in variable for an axis -/
def entry (source : String) (v : GridPlace → List Int) : PlaceValue :=
  byAxis (argument "d" 0) (builtin source "x" v 0) (builtin source "y" v 1) (builtin source "z" v 2)

/-- the place of a group along an axis of the grid -/
def groupId : PlaceValue :=
  entry "blockIdx" GridPlace.index

/-- the number of groups along an axis of the grid -/
def groupCount : PlaceValue :=
  entry "gridDim" GridPlace.counts

/-- the parameters of a function on a grid with exchanged axes -/
def parameters : List PlaceValue :=
  [argument "bd0" 0, argument "bd1" 1, argument "bd2" 2, argument "d" 3]

/-- the axis of the grid for an axis of the launch -/
def physicalAxis : PlaceValue :=
  toInt (byAxis (argument "d" 3) (argument "bd0" 0) (argument "bd1" 1) (argument "bd2" 2))

/-- a function of an axis of the grid, asked about an axis of the launch -/
def permuted (name : String) (f : PlaceValue) : PlaceValue :=
  call name f [call "physical_dim" physicalAxis parameters]

/-- the function of the prelude for a name, among those that tell a group its place and its number of peers -/
def named? : String → Option PlaceValue
  | "get_group_id" => some groupId
  | "get_num_groups" => some groupCount
  | "get_group_id_fn" => some (permuted "get_group_id" groupId)
  | "get_num_groups_fn" => some (permuted "get_num_groups" groupCount)
  | _ => none

end PlaceValue

/-- the texts of these values are those of the prelude -/
theorem permuted_functions_mem :
    [ Target.axisFunction "get_group_id" [] "int64_t" PlaceValue.groupId.text,
      Target.axisFunction "get_num_groups" [] "int64_t" PlaceValue.groupCount.text ] ⊆ Target.placeFunctions.defined ∧
    [ Target.axisFunction "physical_dim" Target.axisArguments "int" PlaceValue.physicalAxis.text,
      Target.axisFunction "get_group_id_fn" Target.axisArguments "int64_t"
        (PlaceValue.permuted "get_group_id" PlaceValue.groupId).text,
      Target.axisFunction "get_num_groups_fn" Target.axisArguments "int64_t"
        (PlaceValue.permuted "get_num_groups" PlaceValue.groupCount).text ]
      ⊆ Target.permutedPlaceFunctions.defined := by
  constructor <;> decide

/-! ## What a kernel is told -/

/-- an argument of a call that asks about a place: a literal, or the place of an axis that the host passes -/
def placeArgument (perm : List Nat) : Source.Expr → Option Int
  | .int v _ => some v
  | .var n _ => ((axisParams.zip perm).lookup n).map Int.ofNat
  | _ => none

/-- what a kernel is told by a call, where it runs and with the places of the axes that the host passes -/
def answer (g : GridPlace) (perm : List Nat) : Source.Expr → Option Int
  | .call name args _ => do
    let f ← PlaceValue.named? name
    return f.value g (← args.mapM (placeArgument perm))
  | _ => none

/-- numbers for the axes of the grid as numbers for the axes of the launch -/
def logicalIndex (perm : List Nat) (q : List Int) : List Int :=
  perm.map (q.getD · 0)

/-- the places of the groups on a grid -/
def groupsOf (grid : List Int) : Set (List Int) :=
  {q | List.Forall₂ (fun i n => 0 ≤ i ∧ i < n) q grid}

section Answers

variable (g : GridPlace) (a b c : Fin 3) (d : Axis)

/-- a place survives the conversion to 32 bits -/
theorem toInt_value {e : PlaceValue} {args : List Int} (h : e.value g args = (a.val : Int)) :
    e.toInt.value g args = (a.val : Int) := by
  have small : ∀ k : Fin 3, Scalar.i32.wrap k.val = k.val := by decide
  exact (congrArg Scalar.i32.wrap h).trans (small a)

/-- the parameter for an axis is the place that the host passes -/
theorem physicalAxis_value :
    PlaceValue.physicalAxis.value g [a.val, b.val, c.val, d.index]
      = ([a.val, b.val, c.val].getD d.index 0 : Nat) := by
  cases d with
  | x => exact toInt_value g a rfl
  | y => exact toInt_value g b rfl
  | z => exact toInt_value g c rfl

/-- a built-in variable at an axis of the grid -/
theorem entry_value (source : String) (v : GridPlace → List Int) :
    (PlaceValue.entry source v).value g [(a.val : Int)] = (v g).getD a.val 0 := by
  match a with
  | 0 => rfl
  | 1 => rfl
  | 2 => rfl

/-- the place of an axis of the launch, as an axis of the grid -/
theorem getD_place_lt : [a.val, b.val, c.val].getD d.index 0 < 3 := by
  cases d <;> simp [Axis.index]

/-- a function of an axis of the grid, asked about an axis of the launch -/
theorem permuted_value (name source : String) (v : GridPlace → List Int) :
    (PlaceValue.permuted name (.entry source v)).value g [a.val, b.val, c.val, d.index]
      = (v g).getD ([a.val, b.val, c.val].getD d.index 0) 0 := by
  have arguments : PlaceValue.parameters.map (·.value g [(a.val : Int), b.val, c.val, d.index])
      = [(a.val : Int), b.val, c.val, d.index] := rfl
  have place := physicalAxis_value g a b c d
  calc (PlaceValue.permuted name (.entry source v)).value g [(a.val : Int), b.val, c.val, d.index]
      = (PlaceValue.entry source v).value g
          [PlaceValue.physicalAxis.value g [(a.val : Int), b.val, c.val, d.index]] := rfl
    _ = (PlaceValue.entry source v).value g [(([a.val, b.val, c.val].getD d.index 0 : Nat) : Int)] := by rw [place]
    _ = (v g).getD ([a.val, b.val, c.val].getD d.index 0) 0 := entry_value g ⟨_, getD_place_lt a b c d⟩ source v

/-- the arguments of a call that asks about an axis -/
theorem placeArguments_eq :
    (axisParams.map (Source.Expr.var · .i64) ++ [Source.Expr.int d.index (.scalar .i32)]).mapM
        (placeArgument [a.val, b.val, c.val])
      = some [(a.val : Int), b.val, c.val, d.index] := by
  rfl

/-- the place of a group along an axis of the launch is its place along the axis of the grid that the host chose -/
theorem answer_groupId :
    answer g [a.val, b.val, c.val] (Place.groupId.call ⟨.cuda, true⟩ d)
      = some (g.index.getD ([a.val, b.val, c.val].getD d.index 0) 0) := by
  have value := permuted_value g a b c d "get_group_id" "blockIdx" GridPlace.index
  calc answer g [a.val, b.val, c.val] (Place.groupId.call ⟨.cuda, true⟩ d)
      = some ((PlaceValue.permuted "get_group_id" .groupId).value g [(a.val : Int), b.val, c.val, d.index]) := rfl
    _ = some (g.index.getD ([a.val, b.val, c.val].getD d.index 0) 0) := congrArg some value

/-- the number of groups along an axis of the launch is the number along the axis of the grid that the host chose -/
theorem answer_groupCount :
    answer g [a.val, b.val, c.val] (Place.groupCount.call ⟨.cuda, true⟩ d)
      = some (g.counts.getD ([a.val, b.val, c.val].getD d.index 0) 0) := by
  have value := permuted_value g a b c d "get_num_groups" "gridDim" GridPlace.counts
  calc answer g [a.val, b.val, c.val] (Place.groupCount.call ⟨.cuda, true⟩ d)
      = some ((PlaceValue.permuted "get_num_groups" .groupCount).value g [(a.val : Int), b.val, c.val, d.index]) := rfl
    _ = some (g.counts.getD ([a.val, b.val, c.val].getD d.index 0) 0) := congrArg some value

/-- the answers for the three axes, put together -/
theorem answers_logicalIndex :
    [Axis.x, .y, .z].mapM (fun d => answer g [a.val, b.val, c.val] (Place.groupId.call ⟨.cuda, true⟩ d))
      = some (logicalIndex [a.val, b.val, c.val] g.index) := by
  simp only [List.mapM_cons, List.mapM_nil, answer_groupId]
  rfl

end Answers

/-! ## The permutation -/

namespace Axes

/-- the exchange of the first axis of three with another one -/
def swap (k : Fin 3) : List Nat :=
  [0, 1, 2].map (exchange k)

/-- the longest axis is no shorter than any, and longer than those before it -/
theorem largest_three (x y z : Int) :
    (largest [x, y, z] = 0 ∧ y ≤ x ∧ z ≤ x) ∨ (largest [x, y, z] = 1 ∧ x < y ∧ z ≤ y) ∨
      (largest [x, y, z] = 2 ∧ x < z ∧ y < z) := by
  have scan : largest [x, y, z] = if x < y then (if y < z then 2 else 1) else (if x < z then 2 else 0) := by
    simp only [largest, largestFrom, List.range, List.range.loop, List.length_cons, List.length_nil]
    by_cases hxy : x < y <;> simp [hxy]
  rw [scan]
  split <;> split <;> omega

/-- the longest of three axes, and what it is at least -/
theorem exists_largest (x y z : Int) :
    ∃ k : Fin 3, permutation [x, y, z] = swap k ∧ [x, y, z][k]? = [x, y, z].max? := by
  have top (k : Fin 3) (hk : largest [x, y, z] = k) : permutation [x, y, z] = swap k := by
    simp [permutation, swap, hk, List.range, List.range.loop]
  rcases largest_three x y z with ⟨hk, h₁, h₂⟩ | ⟨hk, h₁, h₂⟩ | ⟨hk, h₁, h₂⟩
  · refine ⟨0, top 0 hk, ?_⟩
    simp [List.max?]; omega
  · refine ⟨1, top 1 hk, ?_⟩
    simp [List.max?]; omega
  · refine ⟨2, top 2 hk, ?_⟩
    simp [List.max?]; omega

variable (k : Fin 3)

/-- no two axes share a place -/
theorem swap_perm : (swap k).Perm [0, 1, 2] := by
  revert k
  decide

/-- the places are axes of the grid -/
theorem swap_eq : ∃ a b c : Fin 3, swap k = [a.val, b.val, c.val] := by
  revert k
  decide

/-- exchanging twice changes nothing -/
theorem swap_involutive (x y z : Int) : logicalIndex (swap k) (logicalIndex (swap k) [x, y, z]) = [x, y, z] := by
  match k with
  | 0 => rfl
  | 1 => rfl
  | 2 => rfl

/-- the host places the numbers of groups as a group reads them, in either direction -/
theorem physical_swap (x y z : Int) : physical [x, y, z] (swap k) = logicalIndex (swap k) [x, y, z] := by
  match k with
  | 0 => rfl
  | 1 => rfl
  | 2 => rfl

/-- every axis is on the grid -/
theorem physical?_swap (x y z : Int) : physical? [x, y, z] (swap k) = some (physical [x, y, z] (swap k)) := by
  match k with
  | 0 => rfl
  | 1 => rfl
  | 2 => rfl

/-- an axis of the launch and the axis of the grid that it is placed on have the same number of groups -/
theorem physical_at (x y z : Int) (d : Fin 3) :
    ∃ i, (swap k)[d]? = some i ∧ (physical [x, y, z] (swap k))[i]? = [x, y, z][d]? := by
  match k, d with
  | 0, 0 | 0, 1 | 0, 2 | 1, 0 | 1, 1 | 1, 2 | 2, 0 | 2, 1 | 2, 2 => exact ⟨_, rfl, rfl⟩

/-- the first axis of the grid is the one that is exchanged -/
theorem head_physical (x y z : Int) : (physical [x, y, z] (swap k)).head? = [x, y, z][k]? := by
  match k with
  | 0 => rfl
  | 1 => rfl
  | 2 => rfl

/-- the grid has the axes of the launch in another order -/
theorem physical_perm (x y z : Int) : (physical [x, y, z] (swap k)).Perm [x, y, z] := by
  match k with
  | 0 => exact List.Perm.refl _
  | 1 => exact List.Perm.swap x y [z]
  | 2 =>
    calc [z, y, x].Perm [y, z, x] := List.Perm.swap y z [x]
      List.Perm _ [y, x, z] := (List.Perm.swap x z []).cons y
      List.Perm _ [x, y, z] := List.Perm.swap x y [z]

/-! ## Groups of the grid and groups of the launch -/

/-- places that are read in another order lie in the grid that is read in that order -/
theorem logicalIndex_mem {perm : List Nat} {q grid : List Int} (hq : q ∈ groupsOf grid)
    (hp : ∀ i ∈ perm, i < grid.length) : logicalIndex perm q ∈ groupsOf (logicalIndex perm grid) := by
  simp only [groupsOf, Set.mem_ofPred_eq, logicalIndex, List.forall₂_map_left_iff, List.forall₂_map_right_iff,
    List.forall₂_same] at hq ⊢
  intro i hi
  have inside := hp i hi
  have shorter : i < q.length := by rwa [hq.length_eq]
  simpa [inside, shorter] using hq.get shorter inside

/-- a place on three axes has three numbers -/
theorem mem_groupsOf_three {q : List Int} {x y z : Int} (hq : q ∈ groupsOf [x, y, z]) : ∃ a b c, q = [a, b, c] :=
  List.length_eq_three.1 (List.Forall₂.length_eq hq)

/-- every group of the launch runs at one place of the grid, and only there -/
theorem bijOn_swap (x y z : Int) :
    Set.BijOn (logicalIndex (swap k)) (groupsOf (physical [x, y, z] (swap k))) (groupsOf [x, y, z]) := by
  have axes : ∀ i ∈ swap k, i < 3 := by
    revert k
    decide
  have grid : physical [x, y, z] (swap k) = logicalIndex (swap k) [x, y, z] := physical_swap k x y z
  obtain ⟨u, v, w, hu⟩ : ∃ u v w, physical [x, y, z] (swap k) = [u, v, w] := by
    rw [grid]
    exact List.length_eq_three.1 rfl
  have back : logicalIndex (swap k) [u, v, w] = [x, y, z] := by
    rw [← hu, grid, swap_involutive]
  have self : ∀ {a b c : Int}, Set.LeftInvOn (logicalIndex (swap k)) (logicalIndex (swap k)) (groupsOf [a, b, c]) := by
    intro a b c q hq
    obtain ⟨i, j, l, rfl⟩ := mem_groupsOf_three hq
    exact swap_involutive k i j l
  rw [hu]
  apply Set.InvOn.bijOn ⟨self, self⟩
  · intro q hq
    simpa [back] using logicalIndex_mem hq axes
  · intro q hq
    simpa [← hu, grid] using logicalIndex_mem hq axes

/-! ## The limit of the other axes -/

/-- with the longest axis first the others are within a limit if they are in any order of the axes -/
theorem exists_perm_iff {limit m : Int} {rest : List Int} (hm : ∀ i ∈ rest, i ≤ m) :
    (∃ a : List Int, a.Perm (m :: rest) ∧ (a.drop 1).all (· ≤ limit)) ↔ rest.all (· ≤ limit) := by
  constructor
  · rintro ⟨a, ha, hfits⟩
    -- at most the first axis of `a` is beyond the limit, an axis of `rest` beyond it makes the longest a second one
    have few : a.countP (limit < ·) ≤ 1 := by
      cases a with
      | nil => simp
      | cons b others =>
        have none_beyond : others.countP (limit < ·) = 0 := by
          simpa [List.countP_eq_zero] using hfits
        rw [List.countP_cons, none_beyond]
        split <;> omega
    rw [ha.countP_eq, List.countP_cons] at few
    simp only [List.all_eq_true, decide_eq_true_eq]
    intro i hi
    by_contra beyond
    have hlong : limit < m := by
      have := hm i hi
      omega
    have other : 0 < rest.countP (limit < ·) := List.countP_pos_iff.2 ⟨i, hi, by simpa using beyond⟩
    simp only [hlong, decide_true, if_true] at few
    omega
  · intro hfits
    exact ⟨m :: rest, .refl _, hfits⟩

end Axes

/-- a launch in CUDA with its axes exchanged has a grid if the axes after the first are within the limit -/
theorem Launch.exists_grid_iff (name : String) (x y z : Int) :
    (∃ g, (⟨name, .cuda, 3, true⟩ : Launch).grid [x, y, z] = .ok g)
      ↔ Axes.fitsCuda (Axes.physical [x, y, z] (Axes.permutation [x, y, z])) := by
  cases hfits : Axes.fitsCuda (Axes.physical [x, y, z] (Axes.permutation [x, y, z])) <;>
    simp [Launch.grid, Launch.permutation, hfits, bind, Except.bind, throw, throwThe, MonadExceptOf.throw, pure, Except.pure]

/-- three axes on a grid of CUDA: the permutation is one, and its places are all on the grid; every axis has its number of
groups there, the longest axis first; a group that asks for its place in the launch is told the numbers of its place on the
grid at the places that the host passes, and so every group of the launch runs exactly once; a grid is refused only if
every order of the axes is -/
theorem exchange_of_axes (name : String) (x y z : Int) :
    ∃ p, Axes.permutation [x, y, z] = p ∧ p.Perm [0, 1, 2] ∧
      Axes.physical? [x, y, z] p = some (Axes.physical [x, y, z] p) ∧
      (∀ d : Fin 3, ∃ i, p[d]? = some i ∧ (Axes.physical [x, y, z] p)[i]? = [x, y, z][d]?) ∧
      (Axes.physical [x, y, z] p).head? = [x, y, z].max? ∧
      (∀ g : GridPlace,
        [Axis.x, .y, .z].mapM (fun d => answer g p (Place.groupId.call ⟨.cuda, true⟩ d)) = some (logicalIndex p g.index)) ∧
      Set.BijOn (logicalIndex p) (groupsOf (Axes.physical [x, y, z] p)) (groupsOf [x, y, z]) ∧
      (⟨name, .cuda, 3, true⟩ : Launch).axisArguments [x, y, z] = .ok p ∧
      ((∃ g, (⟨name, .cuda, 3, true⟩ : Launch).grid [x, y, z] = .ok g)
        ↔ ∃ a : List Int, a.Perm [x, y, z] ∧ (a.drop 1).all (· ≤ 65535)) := by
  obtain ⟨k, hk, hmax⟩ := Axes.exists_largest x y z
  obtain ⟨a, b, c, places⟩ := Axes.swap_eq k
  have head : (Axes.physical [x, y, z] (Axes.swap k)).head? = [x, y, z].max? := by rw [Axes.head_physical, hmax]
  have order := Axes.physical_perm k x y z
  refine ⟨Axes.swap k, hk, Axes.swap_perm k, Axes.physical?_swap k x y z, Axes.physical_at k x y z, head, ?_,
    Axes.bijOn_swap k x y z, ?_, ?_⟩
  · intro g
    rw [places]
    exact answers_logicalIndex g a b c
  · rw [← hk]
    rfl
  · rw [Launch.exists_grid_iff, hk]
    obtain ⟨m, rest, grid⟩ : ∃ m rest, Axes.physical [x, y, z] (Axes.swap k) = m :: rest :=
      List.exists_cons_of_length_eq_add_one order.length_eq
    rw [grid] at head order ⊢
    have longest : ∀ i ∈ rest, i ≤ m := by
      intro i hi
      have top := (List.max?_eq_some_iff.1 head.symm).2
      exact top i (order.mem_iff.1 (List.mem_cons_of_mem m hi))
    calc Axes.fitsCuda (m :: rest) = true
        ↔ ∃ a : List Int, a.Perm (m :: rest) ∧ (a.drop 1).all (· ≤ Axes.cudaLimit) := (Axes.exists_perm_iff longest).symm
      _ ↔ ∃ a : List Int, a.Perm [x, y, z] ∧ (a.drop 1).all (· ≤ 65535) :=
        exists_congr fun a => and_congr_left fun _ => ⟨fun h => h.trans order, fun h => h.trans order.symm⟩

end GpuHistogram
