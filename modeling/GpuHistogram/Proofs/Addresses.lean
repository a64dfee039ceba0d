/-
Addresses of indices. `flatIndex` numbers the indices of a space and `defineIndices` finds them again, by formulas that have
little in common: the one works from the first index to the last and ignores the first size, the other divides by the
products of the later sizes and takes no remainder for the first index. In 64-bit arithmetic each undoes the other.

Results:
- `Dimensions.defineIndices`: a number below the product of the sizes gives indices within their dimensions, whose number
  it is;
- `Dimensions.flatIndex`: the number of indices within their dimensions is below the product of the sizes;
- `flatIndex_defineIndices_inverse`: both at once, and distinct indices have distinct numbers.
-/
import GpuHistogram.Proofs.Layout

namespace GpuHistogram.Machine

variable {f : Form} {L : LaunchSpec → List Stmt → Exec Unit} {c : Context} {s : State} {dims : List (Name × Expr)}
  {ds : List ℕ}

/-- an expression has one value -/
theorem Computes.unique {e : Expr} {a b : Int} (ha : Computes f c s e a) (hb : Computes f c s e b) : a = b := by
  have h := ha.word.value.symm.trans hb.word.value
  cases h
  rfl

/-- dimensions with distinct names and positive sizes whose product is below `2 ^ 63`; a size has its value whatever the
index variables hold -/
structure Dimensions (f : Form) (c : Context) (s : State) (dims : List (Name × Expr)) (ds : List ℕ) : Prop where
  distinct : (dims.map (·.1)).Nodup
  sizes : List.Forall₂ (Steady f c (dims.map (·.1)) s) (dims.map (·.2)) ds
  pos : ∀ d ∈ ds, 1 ≤ d
  small : ds.prod < 2 ^ 63

namespace Dimensions

theorem fits (h : Dimensions f c s dims ds) : Word64.fits (ds.prod : ℕ) = true := by
  have hsmall := h.small
  rw [Word64.fits_iff]
  omega

/-- the sizes have their values in the states that differ in the index variables only -/
theorem computes (h : Dimensions f c s dims ds) {t : State} (ht : Keeps (dims.map (·.1)) [] s t) :
    AllCompute f c t (dims.map (·.2)) ds := h.sizes.imp fun _ _ he => he t ht

/-- indices of a number, and the number they have -/
theorem defineIndices (h : Dimensions f c s dims ds) {flat : Expr} {r : ℕ} (hr : r < ds.prod)
    (hflat : Steady f c (dims.map (·.1)) s flat r) : Runs f L c (defineIndices flat dims) s fun t =>
      Keeps (dims.map (·.1)) [] s t ∧ Holds t (dims.map (·.1)) (words (digits ds r)) ∧
      Computes f c t (flatIndex (dims.map fun x => (Expr.ofName x.1, x.2))) r := by
  refine defineIndices_runs dims ds h.sizes h.pos h.fits (List.Subset.refl _) h.distinct hr hflat ?_
  intro t ht hvals
  have hnumber := flatIndex_names dims (h.computes ht) (digits_lt h.pos r) h.fits hvals
  rw [ordinal_digits, Nat.mod_eq_of_lt hr] at hnumber
  exact ⟨ht, hvals, hnumber⟩

/-- the number of indices -/
theorem flatIndex (h : Dimensions f c s dims ds) {idxs : List Expr} {is : List ℕ} (his : AllCompute f c s idxs is)
    (hlt : List.Forall₂ (· < ·) is ds) :
    Computes f c s (flatIndex (idxs.zip (dims.map (·.2)))) (ordinal ds is) := by
  have hsizes : AllCompute f c s (dims.map (·.2)) ds := h.computes (.refl _ _ _)
  have hlen : idxs.length = (dims.map (·.2)).length := by
    rw [his.length_eq, hlt.length_eq, hsizes.length_eq]
  refine flatIndex_computes _ ?_ ?_ hlt h.fits
  · rwa [List.map_fst_zip hlen.le]
  · rwa [List.map_snd_zip hlen.ge]

end Dimensions

/-- **Numbering and its inverse.**
- For a number below the product of the sizes the definitions give every index variable a value within its dimension, they
  change nothing else, and the number of these variables is the one they were made from.
- The number of indices within their dimensions is below the product of the sizes, and the definitions for that number
  give the index variables these indices.
- Indices that have the same number are the same. -/
theorem flatIndex_defineIndices_inverse (h : Dimensions f c s dims ds) (L : LaunchSpec → List Stmt → Exec Unit) :
    (∀ flat (r : ℕ), r < ds.prod → Steady f c (dims.map (·.1)) s flat r → ∃ is, List.Forall₂ (· < ·) is ds ∧
      Runs f L c (defineIndices flat dims) s fun t => Keeps (dims.map (·.1)) [] s t ∧
        Holds t (dims.map (·.1)) (words is) ∧
        Computes f c t (flatIndex (dims.map fun x => (Expr.ofName x.1, x.2))) r) ∧
    (∀ idxs is, AllCompute f c s idxs is → List.Forall₂ (· < ·) is ds → ∃ r : ℕ, r < ds.prod ∧
      Computes f c s (flatIndex (idxs.zip (dims.map (·.2)))) r ∧
      ∀ flat, Steady f c (dims.map (·.1)) s flat r → Runs f L c (defineIndices flat dims) s fun t =>
        Keeps (dims.map (·.1)) [] s t ∧ Holds t (dims.map (·.1)) (words is)) ∧
    ∀ idxs jdxs is js (r : ℕ), AllCompute f c s idxs is → AllCompute f c s jdxs js → List.Forall₂ (· < ·) is ds →
      List.Forall₂ (· < ·) js ds → Computes f c s (flatIndex (idxs.zip (dims.map (·.2)))) r →
      Computes f c s (flatIndex (jdxs.zip (dims.map (·.2)))) r → is = js := by
  refine ⟨fun flat r hr hflat => ⟨digits ds r, digits_lt h.pos r, h.defineIndices hr hflat⟩, ?_, ?_⟩
  · intro idxs is his hlt
    refine ⟨ordinal ds is, ordinal_lt hlt, h.flatIndex his hlt, fun flat hflat => ?_⟩
    refine (h.defineIndices (ordinal_lt hlt) hflat).mono ?_
    rintro t ⟨ht, hvals, -⟩
    rw [digits_ordinal hlt] at hvals
    exact ⟨ht, hvals⟩
  · intro idxs jdxs is js r his hjs hi hj hri hrj
    have hir : ordinal ds is = r := Int.ofNat_inj.1 ((h.flatIndex his hi).unique hri)
    have hjr : ordinal ds js = r := Int.ofNat_inj.1 ((h.flatIndex hjs hj).unique hrj)
    calc is = digits ds (ordinal ds is) := (digits_ordinal hi).symm
      _ = digits ds (ordinal ds js) := by rw [hir, hjr]
      _ = js := digits_ordinal hj

/-- a box of which one size is a variable -/
def box : List (Name × Expr) := [(.plain "x", 3), (.plain "y", .ofName (.plain "n")), (.plain "z", 5)]

/-- the box has four layers in the middle, and place 33 has indices in it -/
theorem flatIndex_defineIndices_inverse_box :
    let c : Context := { limits := {}, sizes := fun _ => none, loopLimit := 10 }
    let s : State := State.set {} (.plain "n") (.word 4)
    Dimensions .folded c s box [3, 4, 5] ∧
    (∃ is, List.Forall₂ (· < ·) is [3, 4, 5] ∧ Runs .folded (launch c) c (defineIndices 33 box) s fun t =>
      Holds t [.plain "x", .plain "y", .plain "z"] (words is) ∧
      Computes .folded c t (flatIndex (box.map fun x => (Expr.ofName x.1, x.2))) (33 : ℕ)) ∧
    ∃ r : ℕ, r < 60 ∧ Computes .folded c s (flatIndex [(1, 3), (2, .ofName (.plain "n")), (3, 5)]) r := by
  intro c s
  have hliteral (t : State) (k : ℕ) (hk : Word64.fits (k : ℕ) = true) : Computes .folded c t (.i64 k) (k : ℕ) := .literal hk
  have hn (t : State) (ht : Keeps (box.map (·.1)) [] s t) : Computes .folded c t (.ofName (.plain "n")) (4 : ℕ) :=
    .ofName ((ht.vars _ (by decide)).trans (by rw [State.get?_set, if_pos rfl]; rfl)) (by decide)
  have hdims : Dimensions .folded c s box [3, 4, 5] :=
    { distinct := by decide
      sizes := .cons (fun t _ => hliteral t 3 (by decide)) (.cons hn (.cons (fun t _ => hliteral t 5 (by decide)) .nil))
      pos := by decide
      small := by decide }
  obtain ⟨hdefine, hflat, -⟩ := flatIndex_defineIndices_inverse hdims (launch c)
  obtain ⟨is, his, hrun⟩ := hdefine 33 33 (by decide) fun t _ => hliteral t 33 (by decide)
  obtain ⟨r, hr, hnumber, -⟩ := hflat [1, 2, 3] [1, 2, 3]
    (.cons (hliteral s 1 (by decide)) (.cons (hliteral s 2 (by decide)) (.cons (hliteral s 3 (by decide)) .nil)))
    (.cons (by decide) (.cons (by decide) (.cons (by decide) .nil)))
  exact ⟨hdims, ⟨is, his, hrun.mono fun t ht => ht.2⟩, r, hr, hnumber⟩

example : (flatIndex [(1, 3), (2, 4), (3, 5)]).constant? = some 33 := by decide

end GpuHistogram.Machine
