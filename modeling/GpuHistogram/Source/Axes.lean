/-
Placing the axes of a launch on a grid of CUDA. The first axis of such a grid may be long, the others not. A launch with
three axes therefore exchanges its first axis with the longest one: a permutation says for every axis of the launch which
axis of the grid it is placed on.
-/
import GpuHistogram.Text.Brackets

namespace GpuHistogram

namespace Axes

/-- the most groups along an axis of a grid of CUDA but the first -/
def cudaLimit : Int := 65535

/-- the index of the first of the largest numbers, given the best index so far -/
def largestFrom (groups : List Int) (best : Nat) : List Nat → Nat
  | [] => best
  | k :: rest => largestFrom groups (if groups.getD best 0 < groups.getD k 0 then k else best) rest

/-- the index of the first of the largest numbers -/
def largest (groups : List Int) : Nat :=
  largestFrom groups 0 (List.range groups.length)

/-- exchange the first and another index -/
def exchange (k i : Nat) : Nat :=
  if i = 0 then k else if i = k then 0 else i

/-- the axis of the grid for every axis of a launch with so many groups -/
def permutation (groups : List Int) : List Nat :=
  let axes := List.range groups.length
  if groups.length = 3 then axes.map (exchange (largest groups)) else axes

/-- put numbers at places, one after the other -/
def putAll (grid : List Int) : List (Nat × Int) → List Int
  | [] => grid
  | (k, n) :: rest => putAll (grid.set k n) rest

/-- the groups along each axis of the grid; an axis that nothing is placed on has one -/
def physical (groups : List Int) (perm : List Nat) : List Int :=
  putAll (List.replicate groups.length 1) (perm.zip groups)

/-- the groups along each axis of the grid, if every axis has a place on it -/
def physical? (groups : List Int) (perm : List Nat) : Option (List Int) :=
  if perm.length ≤ groups.length ∧ perm.all (· < groups.length) then some (physical groups perm) else none

/-- whether a grid has no more groups than CUDA allows -/
def fitsCuda (grid : List Int) : Bool :=
  (grid.drop 1).all (· ≤ cudaLimit)

end Axes

end GpuHistogram
