/-
Copies of a histogram as functions. A table holds, for every segment, a number of copies of a histogram one after the
other. `merged` combines the copies of every segment into one; `spread` is a table that is merged into a given histogram,
and to `absorb` new values into any one copy of a segment is to combine them into what the segment is merged into
(`merged_absorb`). That is all that is needed of a combining function that is associative, commutative and has a neutral
element. A copy may itself be kept elsewhere, in several slots (`insertCopy`).
-/
import Mathlib.Tactic.Linarith
import Mathlib.Tactic.Ring

namespace GpuHistogram

variable {α : Type}

/-- the order in which values are combined does not matter, and neutral values do not matter at all -/
structure Commutes (combine : α → α → α) (neutral : α) : Prop where
  comm : ∀ x y, combine x y = combine y x
  assoc : ∀ x y z, combine (combine x y) z = combine x (combine y z)
  neutral : ∀ x, combine x neutral = x

namespace Copies

variable (combine : α → α → α) (count size : ℕ)

/-- the place of the element `i` of all segments in a copy of its segment -/
def place (i s : ℕ) : ℕ := (i / size * count + s) * size + i % size

/-- an element of the copies up to one, combined from the first on -/
def mergedUpTo (T : ℕ → α) (i : ℕ) : ℕ → α
  | 0 => T (place count size i 0)
  | s + 1 => combine (mergedUpTo T i s) (T (place count size i (s + 1)))

/-- the copies of every segment combined into one -/
def merged (T : ℕ → α) (i : ℕ) : α := mergedUpTo combine count size T i (count - 1)

/-- a table whose first copies are given and whose others are neutral -/
def spread (neutral : α) (D : ℕ → α) (i : ℕ) : α :=
  if i / size % count = 0 then D (i / size / count * size + i % size) else neutral

/-- a table after values are combined into the elements of one copy -/
def absorb (copy : ℕ) (v : ℕ → Option α) (T : ℕ → α) (i : ℕ) : α :=
  if i / size = copy then (v (i % size)).elim (T i) (combine (T i)) else T i

/-- a table after values are combined into elements that follow each other -/
def absorbRange (start n : ℕ) (v : ℕ → α) (T : ℕ → α) (i : ℕ) : α :=
  if start ≤ i ∧ i < start + n then combine (T i) (v (i - start)) else T i

variable {combine count size} {neutral : α} {T : ℕ → α}

theorem place_div (hsize : 0 < size) (i s : ℕ) : place count size i s / size = i / size * count + s := by
  rw [place, Nat.mul_comm, Nat.mul_add_div hsize, Nat.div_eq_of_lt (Nat.mod_lt i hsize), Nat.add_zero]

theorem place_mod (i s : ℕ) : place count size i s % size = i % size := by
  rw [place, Nat.mul_comm, Nat.mul_add_mod, Nat.mod_mod]

theorem place_div_div (hsize : 0 < size) {i s : ℕ} (hs : s < count) : place count size i s / size / count = i / size := by
  rw [place_div hsize, Nat.mul_comm, Nat.mul_add_div (by omega), Nat.div_eq_of_lt hs, Nat.add_zero]

theorem place_div_mod (hsize : 0 < size) {i s : ℕ} (hs : s < count) : place count size i s / size % count = s := by
  rw [place_div hsize, Nat.mul_comm, Nat.mul_add_mod, Nat.mod_eq_of_lt hs]

theorem place_lt {segments i s : ℕ} (hi : i < segments * size) (hs : s < count) :
    place count size i s < segments * count * size := by
  have hsize : 0 < size := Nat.pos_of_ne_zero fun h => by simp [h] at hi
  have hseg : i / size < segments := Nat.div_lt_of_lt_mul (by rwa [Nat.mul_comm])
  have hmod := Nat.mod_lt i hsize
  have hcopy : i / size * count + s + 1 ≤ segments * count := by nlinarith
  calc place count size i s < (i / size * count + s + 1) * size := by
        rw [place, Nat.add_mul _ 1, Nat.one_mul]
        omega
    _ ≤ segments * count * size := Nat.mul_le_mul_right _ hcopy

/-- with one copy, the table is the histogram -/
theorem merged_one (T : ℕ → α) (i : ℕ) : merged combine 1 size T i = T i := by
  have h : place 1 size i 0 = i := by
    rw [place, Nat.mul_one, Nat.add_zero, Nat.mul_comm, Nat.div_add_mod]
  rw [merged, mergedUpTo, h]

theorem mergedUpTo_congr {T' : ℕ → α} {i n : ℕ} (h : ∀ s ≤ n, T (place count size i s) = T' (place count size i s)) :
    mergedUpTo combine count size T i n = mergedUpTo combine count size T' i n := by
  induction n with
  | zero => exact h 0 (Nat.le_refl 0)
  | succ n ih => rw [mergedUpTo, mergedUpTo, ih fun s hs => h s (by omega), h (n + 1) (Nat.le_refl _)]

/-- what is merged does not depend on tables beyond their end -/
theorem merged_congr {T' : ℕ → α} {segments i : ℕ} (h : ∀ a < segments * count * size, T a = T' a) (hc : 0 < count)
    (hi : i < segments * size) : merged combine count size T i = merged combine count size T' i :=
  mergedUpTo_congr fun s hs => h _ (place_lt hi (by omega))

theorem merged_spread (hn : ∀ x, combine x neutral = x) (hsize : 0 < size) (hcount : 0 < count) (D : ℕ → α) (i : ℕ) :
    merged combine count size (spread count size neutral D) i = D i := by
  have hplace {s : ℕ} (hs : s < count) :
      spread count size neutral D (place count size i s) = if s = 0 then D i else neutral := by
    rw [spread, place_div_mod hsize hs, place_div_div hsize hs, place_mod, Nat.mul_comm, Nat.div_add_mod]
  have h (n : ℕ) (hlt : n < count) : mergedUpTo combine count size (spread count size neutral D) i n = D i := by
    induction n with
    | zero => rw [mergedUpTo, hplace hlt, if_pos rfl]
    | succ n ih => rw [mergedUpTo, ih (by omega), hplace hlt, if_neg (by omega), hn]
  exact h _ (by omega)

theorem mergedUpTo_absorb (hc : Commutes combine neutral) (hsize : 0 < size) {q s : ℕ} (hs : s < count)
    (v : ℕ → Option α) (i n : ℕ) (hn : n < count) :
    mergedUpTo combine count size (absorb combine size (q * count + s) v T) i n =
      if i / size = q ∧ s ≤ n then (v (i % size)).elim (mergedUpTo combine count size T i n)
        (combine (mergedUpTo combine count size T i n)) else mergedUpTo combine count size T i n := by
  have hcopy {r : ℕ} (hr : r < count) : i / size * count + r = q * count + s ↔ i / size = q ∧ r = s := by
    constructor
    · intro h
      have hdiv := congrArg (· / count) h
      have hmod := congrArg (· % count) h
      have hpos : 0 < count := by omega
      simp only [Nat.mul_comm _ count, Nat.mul_add_div hpos, Nat.mul_add_mod, Nat.div_eq_of_lt hr, Nat.div_eq_of_lt hs,
        Nat.mod_eq_of_lt hr, Nat.mod_eq_of_lt hs, Nat.add_zero] at hdiv hmod
      exact ⟨hdiv, hmod⟩
    · rintro ⟨h, rfl⟩
      rw [h]
  have hplace {r : ℕ} (hr : r < count) : absorb combine size (q * count + s) v T (place count size i r) =
      if i / size = q ∧ r = s then (v (i % size)).elim (T (place count size i r)) (combine (T (place count size i r)))
      else T (place count size i r) := by
    simp only [absorb, place_div hsize, place_mod, hcopy hr]
  induction n with
  | zero =>
    rw [mergedUpTo, hplace hn, mergedUpTo]
    simp only [eq_comm (a := 0), Nat.le_zero]
  | succ n ih =>
    rw [mergedUpTo, ih (by omega), hplace hn, mergedUpTo]
    cases v (i % size) with
    | none => simp
    | some x =>
      simp only [Option.elim_some]
      by_cases hq : i / size = q
      · rcases Nat.lt_trichotomy s (n + 1) with h | h | h
        · -- the value is in an earlier copy: it is moved past the later one
          rw [if_pos ⟨hq, by omega⟩, if_neg (by omega), if_pos ⟨hq, by omega⟩, hc.assoc, hc.comm x, ← hc.assoc]
        · rw [if_neg (by omega), if_pos ⟨hq, h.symm⟩, if_pos ⟨hq, by omega⟩, hc.assoc]
        · rw [if_neg (by omega), if_neg (by omega), if_neg (by omega)]
      · simp [hq]

/-- **Absorbing.** To combine values into one copy of a segment is to combine them into what the segment is merged into. -/
theorem merged_absorb (hc : Commutes combine neutral) (hsize : 0 < size) {q s : ℕ} (hs : s < count)
    (v : ℕ → Option α) (i : ℕ) :
    merged combine count size (absorb combine size (q * count + s) v T) i =
      if i / size = q then (v (i % size)).elim (merged combine count size T i) (combine (merged combine count size T i))
      else merged combine count size T i := by
  rw [merged, mergedUpTo_absorb hc hsize hs v i _ (by omega)]
  have h : s ≤ count - 1 := by omega
  simp only [h, and_true]
  rfl

/-! ## Elements that follow each other -/

theorem absorbRange_zero (start : ℕ) (v : ℕ → α) : absorbRange combine start 0 v T = T := by
  funext i
  rw [absorbRange, if_neg (by omega)]

/-- one more element -/
theorem absorbRange_succ (start n : ℕ) (v : ℕ → α) :
    absorbRange combine start (n + 1) v T = Function.update (absorbRange combine start n v T) (start + n)
      (combine (absorbRange combine start n v T (start + n)) (v n)) := by
  funext i
  by_cases hi : i = start + n
  · subst hi
    rw [Function.update_self, absorbRange, absorbRange, if_pos (by omega), if_neg (by omega), Nat.add_sub_cancel_left]
  · rw [Function.update_of_ne hi, absorbRange, absorbRange]
    by_cases h : start ≤ i ∧ i < start + n
    · rw [if_pos (by omega), if_pos h]
    · rw [if_neg (by omega), if_neg h]

/-- a bucket of a copy is a range of its elements -/
theorem absorb_bucket {width bucket copy b : ℕ} (hpos : 0 < bucket) (hb : b < width) (v : ℕ → α) :
    absorb combine (width * bucket) copy (fun j => if b = j / bucket then some (v (j % bucket)) else none) T =
      absorbRange combine ((copy * width + b) * bucket) bucket v T := by
  funext i
  have hbucket : i % (width * bucket) / bucket = i / bucket % width := Nat.mod_mul_left_div_self ..
  have hmod : i % (width * bucket) % bucket = i % bucket := Nat.mod_mod_of_dvd _ (Nat.dvd_mul_left ..)
  have hcopy : i / (width * bucket) = i / bucket / width := by rw [Nat.mul_comm, Nat.div_div_eq_div_mul]
  have hsplit := Nat.div_add_mod (i / bucket) width
  have hdiv := Nat.div_add_mod i bucket
  have hlt := Nat.mod_lt i hpos
  have hiff : i / bucket / width = copy ∧ b = i / bucket % width ↔ i / bucket = copy * width + b := by
    constructor
    · rintro ⟨rfl, rfl⟩
      rw [Nat.mul_comm, hsplit]
    · intro h
      rw [h, Nat.mul_comm, Nat.mul_add_div (by omega), Nat.mul_add_mod, Nat.div_eq_of_lt hb, Nat.mod_eq_of_lt hb]
      simp
  have hrange : (copy * width + b) * bucket ≤ i ∧ i < (copy * width + b) * bucket + bucket ↔
      i / bucket = copy * width + b := by
    rw [Nat.div_eq_iff hpos]
    omega
  simp only [absorb, absorbRange, hbucket, hmod, hcopy, hrange]
  by_cases h : i / bucket = copy * width + b
  · obtain ⟨hc, hb'⟩ := hiff.2 h
    rw [if_pos hc, if_pos hb', if_pos h, Option.elim_some, ← h]
    congr 2
    rw [Nat.mul_comm] at hdiv
    omega
  · rw [if_neg h]
    split_ifs with hc hb'
    · exact absurd (hiff.1 ⟨hc, hb'⟩) h
    · rfl
    · rfl

/-- a bucket out of range changes nothing -/
theorem absorb_none {copy : ℕ} {v : ℕ → Option α} (hsize : 0 < size) (hv : ∀ j < size, v j = none) :
    absorb combine size copy v T = T := by
  funext i
  rw [absorb, hv _ (Nat.mod_lt i hsize)]
  split_ifs <;> rfl

/-! ## One copy that is kept elsewhere -/

/-- a table with another histogram in the place of one copy -/
def insertCopy (size copy : ℕ) (V T : ℕ → α) (i : ℕ) : α := if i / size = copy then V (i % size) else T i

section InsertCopy

variable {copy slot slots : ℕ} {V V' T' : ℕ → α}

/-- only the elements of one histogram matter -/
theorem insertCopy_congr (hsize : 0 < size) (h : ∀ j < size, V j = V' j) : insertCopy size copy V T = insertCopy size copy V' T := by
  funext i
  rw [insertCopy, insertCopy, h _ (Nat.mod_lt i hsize)]

/-- the copy itself -/
theorem insertCopy_self (hsize : 0 < size) (h : ∀ j < size, V j = T (copy * size + j)) : insertCopy size copy V T = T := by
  funext i
  rw [insertCopy]
  split_ifs with hi
  · rw [h _ (Nat.mod_lt i hsize), ← hi, Nat.div_add_mod']
  · rfl

/-- what the copy holds itself does not matter -/
theorem insertCopy_update {j : ℕ} (hj : j < size) (x : α) :
    insertCopy size copy V (Function.update T (copy * size + j) x) = insertCopy size copy V T := by
  funext i
  rw [insertCopy, insertCopy]
  split_ifs with hi
  · rfl
  · rw [Function.update_of_ne]
    rintro rfl
    rw [Nat.mul_comm, Nat.mul_add_div (by omega), Nat.div_eq_of_lt hj, Nat.add_zero] at hi
    exact hi rfl

/-- the histogram in a segment of its own: its copies follow each other -/
theorem place_of_lt {j s : ℕ} (hj : j < size) : place count size j s = s * size + j := by
  rw [place, Nat.div_eq_of_lt hj, Nat.zero_mul, Nat.zero_add, Nat.mod_eq_of_lt hj]

/-- to combine values into one of the slots of a copy is to combine them into the copy -/
theorem insertCopy_absorb (hc : Commutes combine neutral) (hsize : 0 < size) (hslot : slot < slots) (v : ℕ → Option α) :
    insertCopy size copy (merged combine slots size (absorb combine size slot v V)) T =
      absorb combine size copy v (insertCopy size copy (merged combine slots size V) T) := by
  funext i
  have hmod := Nat.mod_lt i hsize
  have h := merged_absorb (T := V) hc hsize (q := 0) hslot v (i % size)
  rw [Nat.zero_mul, Nat.zero_add, if_pos (Nat.div_eq_of_lt hmod), Nat.mod_mod] at h
  rw [insertCopy, absorb, insertCopy, h]
  split_ifs with hi
  · rfl
  · rfl

/-- the first slot starts out as the copy, the others neutral -/
theorem insertCopy_spread (hn : ∀ x, combine x neutral = x) (hsize : 0 < size) (hslots : 0 < slots)
    (hV : ∀ i < slots * size, V i = spread slots size neutral (fun j => T (copy * size + j)) i) :
    insertCopy size copy (merged combine slots size V) T = T := by
  refine insertCopy_self hsize fun j hj => ?_
  rw [← merged_spread hn hsize hslots (fun j => T (copy * size + j)) j]
  have hfirst : ∀ i < 1 * slots * size, V i = spread slots size neutral (fun j => T (copy * size + j)) i :=
    fun i hi => hV i (by rwa [Nat.one_mul] at hi)
  exact merged_congr hfirst hslots (by rwa [Nat.one_mul])

/-- merging the slots of one element leaves the others alone -/
theorem merged_update {j j' : ℕ} (hj : j < size) (hj' : j' < size) (hne : j' ≠ j) (x : α) :
    merged combine count size (Function.update V j x) j' = merged combine count size V j' := by
  refine mergedUpTo_congr fun s _ => Function.update_of_ne ?_ _ _
  rw [place_of_lt hj']
  rcases s with _ | s
  · rwa [Nat.zero_mul, Nat.zero_add]
  · rw [Nat.succ_mul]
    omega

end InsertCopy

end Copies

end GpuHistogram
