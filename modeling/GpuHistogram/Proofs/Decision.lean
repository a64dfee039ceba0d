/-
The two forms of the decision where to accumulate, against its definition on unbounded numbers.

`Costs.ideal` says what is decided, with exact products and exact quotients rounded up. The decision on words saturates
one product, drops the placement where another product or a sum is no word, and rounds by the sign of a remainder; the
decision of the host is an expression that rounds by adding the divisor less one, and guards its divisions by a
conjunction.

`Placement.decides_exactly`: the decision on words always has a result, its quotients are words, and below the greatest
limit it is the ideal one. A limit that is the greatest word is left out: a saturated product may be within it.
`Placement.localFits_agrees`: the expression of the host has the answer of the decision on words, also folded, where the
sums it forms are words after the one has been subtracted. The sum before that may wrap; the difference wraps back.
-/
import GpuHistogram.Histogram.Placement
import GpuHistogram.Proofs.Points
import Mathlib.Algebra.Order.Floor.Ring
import Mathlib.Data.Rat.Floor

namespace GpuHistogram

/-! ## Quotients rounded up -/

theorem ceil_eq_of_bounds {n d q : Int} (hd : 0 < d) (hlow : (q - 1) * d < n) (hhigh : n ≤ q * d) :
    ⌈(n : ℚ) / d⌉ = q := by
  have hpos : (0 : ℚ) < d := by exact_mod_cast hd
  rw [Int.ceil_eq_iff, lt_div_iff₀ hpos, div_le_iff₀ hpos]
  exact ⟨by exact_mod_cast hlow, by exact_mod_cast hhigh⟩

theorem ceil_eq_of_pos {n d : Int} (hd : 0 < d) :
    ⌈(n : ℚ) / d⌉ = if n.tmod d ≠ 0 ∧ (n < 0 ↔ d < 0) then n.tdiv d + 1 else n.tdiv d := by
  have hsum := Int.tdiv_mul_add_tmod n d
  have hlt : (n.tmod d).natAbs < d.natAbs := by
    rw [Int.natAbs_tmod]
    exact Nat.mod_lt _ (by omega)
  -- the remainder has the sign of the numerator
  have hpos : 0 ≤ n → 0 ≤ n.tmod d := Int.tmod_nonneg d
  have hneg : 0 ≤ -n → 0 ≤ (-n).tmod d := Int.tmod_nonneg d
  rw [Int.neg_tmod] at hneg
  generalize n.tmod d = r at *
  generalize n.tdiv d = q at *
  split_ifs with h <;> apply ceil_eq_of_bounds hd
  · rw [add_sub_cancel_right]
    omega
  · rw [add_mul]
    omega
  · rw [sub_mul]
    omega
  · omega

/-- the exact quotient rounded up, from the quotient and remainder of words -/
theorem ceil_eq {n d : Int} (h0 : d ≠ 0) :
    ⌈(n : ℚ) / d⌉ = if n.tmod d ≠ 0 ∧ (n < 0 ↔ d < 0) then n.tdiv d + 1 else n.tdiv d := by
  rcases lt_or_gt_of_ne h0 with hd | hd
  · have hsigns : ⌈(n : ℚ) / d⌉ = ⌈((-n : Int) : ℚ) / (-d : Int)⌉ := by
      rw [Int.cast_neg, Int.cast_neg, neg_div_neg_eq]
    have hzero : n.tmod d ≠ 0 → n ≠ 0 := by
      rintro h rfl
      exact h (Int.zero_tmod d)
    have hround : (n.tmod d ≠ 0 ∧ (n < 0 ↔ d < 0)) ↔ -n.tmod d ≠ 0 ∧ (-n < 0 ↔ -d < 0) := by
      omega
    rw [hsigns, ceil_eq_of_pos (by omega), Int.neg_tmod, Int.tmod_neg, Int.neg_tdiv, Int.tdiv_neg, neg_neg]
    simp only [hround]
  · exact ceil_eq_of_pos hd

/-- the quotient rounded up is a word, except the one that is not defined -/
theorem Word64.fits_ceil {n d : Int} (hn : fits n = true) (h0 : d ≠ 0) (h : ¬ (n = least ∧ d = -1)) :
    fits ⌈(n : ℚ) / d⌉ = true := by
  rw [ceil_eq h0]
  have hsize : (n.tdiv d).natAbs = n.natAbs / d.natAbs := Int.natAbs_tdiv n d
  have hsum := Int.tdiv_mul_add_tmod n d
  have hd : d = 1 ∨ d = -1 ∨ 2 ≤ d.natAbs := by omega
  unfold least at h
  rw [fits_iff] at hn ⊢
  rcases hd with rfl | rfl | hd
  · rw [Int.tdiv_one, Int.tmod_one, if_neg (by omega)]
    exact hn
  · rw [Int.tdiv_neg, Int.tdiv_one, Int.tmod_neg, Int.tmod_one, if_neg (by omega)]
    omega
  · have hhalf : (n.tdiv d).natAbs ≤ n.natAbs / 2 := hsize ▸ Nat.div_le_div_left hd (by decide)
    split_ifs <;> omega

theorem le_mul_ceil {n d : Int} (hd : 0 < d) : n ≤ d * ⌈(n : ℚ) / d⌉ := by
  have hpos : (0 : ℚ) < d := by exact_mod_cast hd
  have h := (div_le_iff₀ hpos).1 (Int.le_ceil ((n : ℚ) / d))
  rw [mul_comm]
  exact_mod_cast h

theorem ceil_pos {n d : Int} (hn : 0 < n) (hd : 0 < d) : 0 < ⌈(n : ℚ) / d⌉ := by
  have hnum : (0 : ℚ) < n := by exact_mod_cast hn
  have hpos : (0 : ℚ) < d := by exact_mod_cast hd
  exact Int.ceil_pos.2 (div_pos hnum hpos)

/-- adding the divisor less one rounds up -/
theorem ceil_eq_tdiv {n d : Int} (hn : 0 ≤ n) (hd : 0 < d) : ⌈(n : ℚ) / d⌉ = (n + d - 1).tdiv d := by
  have hnum : 0 ≤ n + d - 1 := by omega
  rw [Int.tdiv_eq_ediv_of_nonneg hnum]
  have hsum := Int.mul_ediv_add_emod (n + d - 1) d
  have hlow := Int.emod_nonneg (n + d - 1) hd.ne'
  have hhigh := Int.emod_lt_of_pos (n + d - 1) hd
  rw [mul_comm] at hsum
  apply ceil_eq_of_bounds hd
  · rw [sub_mul]
    omega
  · omega

namespace Placement

theorem divUp?_eq {n d : Int} (h0 : d ≠ 0) (h : ¬ (n = Word64.least ∧ d = -1)) :
    divUp? n d = some ⌈(n : ℚ) / d⌉ := by
  unfold divUp?
  rw [if_neg (not_or.2 ⟨h0, h⟩), ceil_eq h0]

/-! ## The decision on words -/

namespace Costs

variable {c : Costs}

/-- the numbers are words -/
structure Words (c : Costs) : Prop where
  histBytes : Word64.fits c.histBytes = true
  groupSize : Word64.fits c.groupSize = true
  threadBytes : Word64.fits c.threadBytes = true
  maxLocalMemory : Word64.fits c.maxLocalMemory = true
  lockBytes : Word64.fits c.lockBytes = true

/-- the bytes that a group may use -/
def groupBytes (c : Costs) : Int := c.groupSize * c.threadBytes

/-- the copies that these bytes pay for -/
def copies (c : Costs) : Int := ⌈(c.groupBytes : ℚ) / c.histBytes⌉

/-- the threads it takes to hold one histogram -/
def threads (c : Costs) : Int := ⌈(c.histBytes : ℚ) / c.threadBytes⌉

/-- the decision on unbounded numbers -/
def ideal (c : Costs) : Placement :=
  if c.histBytes = 0 then skip
  else if 0 < c.histBytes ∧ 0 < c.threadBytes ∧ 0 < c.groupSize ∧
      c.lockBytes + c.histBytes * c.copies ≤ c.maxLocalMemory ∧ c.threads ≤ c.groupSize then localMemory c.copies
  else globalMemory

/-- the copies that are paid for when the bytes of a group are saturated -/
def paidCopies (c : Costs) : Int := ⌈(Word64.saturate c.groupBytes : ℚ) / c.histBytes⌉

theorem groupBytes_pos (hg : 0 < c.groupSize) (ht : 0 < c.threadBytes) : 0 < c.groupBytes :=
  Int.mul_pos hg ht

/-- the bytes that are required are within a limit, in words and in numbers -/
theorem required?_within {k : Int} (hh : 0 ≤ c.histBytes) (hk : 0 ≤ k) (hl : 0 ≤ c.lockBytes)
    (hm : c.maxLocalMemory ≤ Word64.greatest) :
    (c.required? k).any (· ≤ c.maxLocalMemory) = true ↔ c.lockBytes + c.histBytes * k ≤ c.maxLocalMemory := by
  have hprod : 0 ≤ c.histBytes * k := Int.mul_nonneg hh hk
  have hfits (v : Int) (h0 : 0 ≤ v) (hv : v ≤ c.maxLocalMemory) : Word64.fits v = true := by
    rw [Word64.fits_iff]
    unfold Word64.greatest at hm
    omega
  unfold required?
  rw [Option.any_eq_true]
  constructor
  · rintro ⟨b, hb, hle⟩
    obtain ⟨p, hp, hb⟩ := Option.bind_eq_some_iff.1 hb
    obtain ⟨-, rfl⟩ := Word64.checked?_eq_some.1 hp
    obtain ⟨-, rfl⟩ := Word64.checked?_eq_some.1 hb
    have := of_decide_eq_true hle
    omega
  · intro hle
    refine ⟨c.histBytes * k + c.lockBytes, Option.bind_eq_some_iff.2 ⟨c.histBytes * k, ?_, ?_⟩, ?_⟩
    · exact Word64.checked?_eq_some.2 ⟨hfits _ hprod (by omega), rfl⟩
    · exact Word64.checked?_eq_some.2 ⟨hfits _ (by omega) (by omega), rfl⟩
    · exact decide_eq_true (by omega)

theorem paidCopies_of_fits (hfit : Word64.fits c.groupBytes = true) : c.paidCopies = c.copies := by
  unfold paidCopies copies
  rw [Word64.saturate_of_fits hfit]

/-- a saturated product pays for copies as large as the greatest word, and the product itself for larger ones -/
theorem greatest_le_of_not_fits (hh : 0 < c.histBytes) (hpos : 0 < c.groupBytes)
    (hfit : ¬ Word64.fits c.groupBytes = true) :
    Word64.greatest ≤ c.histBytes * c.paidCopies ∧ Word64.greatest ≤ c.histBytes * c.copies := by
  have hbig : Word64.greatest ≤ c.groupBytes := by
    rw [Word64.fits_iff] at hfit
    unfold Word64.greatest
    omega
  have hsat : Word64.greatest ≤ Word64.saturate c.groupBytes := by
    unfold Word64.saturate
    omega
  exact ⟨hsat.trans (le_mul_ceil hh), hbig.trans (le_mul_ceil hh)⟩

end Costs

variable {c : Costs}

/-- the quotients of the decision, for sizes of which none is zero -/
theorem quotients (hw : c.Words) (hh : c.histBytes ≠ 0) (ht : 0 < c.threadBytes) (hg : 0 < c.groupSize) :
    cooperation? c.histBytes c.threadBytes = some c.threads ∧ Word64.fits c.threads = true ∧
      localCopies? c.groupSize c.threadBytes c.histBytes = some c.paidCopies ∧ Word64.fits c.paidCopies = true := by
  have hthreads : ¬ (c.histBytes = Word64.least ∧ c.threadBytes = -1) := by omega
  have hcopies : ¬ (Word64.saturate c.groupBytes = Word64.least ∧ c.histBytes = -1) := by
    have hpos := Costs.groupBytes_pos hg ht
    unfold Word64.saturate Word64.least Word64.greatest
    omega
  exact ⟨divUp?_eq (by omega) hthreads, Word64.fits_ceil hw.histBytes (by omega) hthreads, divUp?_eq hh hcopies,
    Word64.fits_ceil (Word64.fits_saturate _) hh hcopies⟩

theorem choose?_of_quotients (hw : c.Words) (hh : c.histBytes ≠ 0) (ht : 0 < c.threadBytes) (hg : 0 < c.groupSize) :
    choose? c = some (if (c.required? c.paidCopies).any (· ≤ c.maxLocalMemory) ∧ c.threads ≤ c.groupSize then
      localMemory c.paidCopies else globalMemory) := by
  obtain ⟨hthreads, -, hcopies, -⟩ := quotients hw hh ht hg
  unfold choose?
  rw [if_neg hh, if_neg (by omega), hthreads, hcopies]
  simp only [Option.bind_eq_bind, Option.bind_some]
  cases c.required? c.paidCopies <;> simp [pure]

/-- the decision for a histogram with buckets -/
theorem choose?_of_pos (hw : c.Words) (hh : 0 < c.histBytes) (ht : 0 < c.threadBytes) (hg : 0 < c.groupSize)
    (hl : 0 ≤ c.lockBytes) :
    choose? c = some (if c.lockBytes + c.histBytes * c.paidCopies ≤ c.maxLocalMemory ∧ c.threads ≤ c.groupSize then
      localMemory c.paidCopies else globalMemory) := by
  have hk : 0 < c.paidCopies := by
    refine ceil_pos ?_ hh
    have hpos := Costs.groupBytes_pos hg ht
    unfold Word64.saturate Word64.least Word64.greatest
    omega
  have hm : c.maxLocalMemory ≤ Word64.greatest := by
    have := Word64.fits_iff.1 hw.maxLocalMemory
    unfold Word64.greatest
    omega
  have hwithin := Costs.required?_within hh.le hk.le hl hm
  rw [choose?_of_quotients hw hh.ne' ht hg]
  simp only [hwithin]

theorem choose?_of_nonpos (hh : c.histBytes ≠ 0) (h : c.threadBytes ≤ 0 ∨ c.groupSize ≤ 0) :
    choose? c = some globalMemory := by
  unfold choose?
  rw [if_neg hh, if_pos h]

/-- **The decision is the ideal one.** For words the decision has a result, and the quotients it rounds up are words. Below
the greatest limit it decides as on unbounded numbers. -/
theorem decides_exactly (c : Costs) (hw : c.Words) :
    (∃ p, choose? c = some p) ∧
      (c.histBytes ≠ 0 → 0 < c.threadBytes → 0 < c.groupSize → ∃ threads copies,
        cooperation? c.histBytes c.threadBytes = some threads ∧ Word64.fits threads = true ∧
          localCopies? c.groupSize c.threadBytes c.histBytes = some copies ∧ Word64.fits copies = true) ∧
      (0 ≤ c.histBytes → 0 ≤ c.lockBytes → c.maxLocalMemory < Word64.greatest → choose? c = some c.ideal) := by
  by_cases hh : c.histBytes = 0
  · have hskip : choose? c = some skip := if_pos hh
    refine ⟨⟨skip, hskip⟩, fun h => absurd hh h, fun _ _ _ => ?_⟩
    rw [hskip, Costs.ideal, if_pos hh]
  by_cases hsizes : c.threadBytes ≤ 0 ∨ c.groupSize ≤ 0
  · have hglobal := choose?_of_nonpos hh hsizes
    refine ⟨⟨globalMemory, hglobal⟩, fun _ ht hg => by omega, fun _ _ _ => ?_⟩
    rw [hglobal, Costs.ideal, if_neg hh, if_neg (by omega)]
  · have ht : 0 < c.threadBytes := by omega
    have hg : 0 < c.groupSize := by omega
    refine ⟨⟨_, choose?_of_quotients hw hh ht hg⟩, fun _ _ _ => ⟨_, _, quotients hw hh ht hg⟩, fun h0 hl hm => ?_⟩
    have hpos : 0 < c.histBytes := by omega
    rw [choose?_of_pos hw hpos ht hg hl, Costs.ideal, if_neg hh]
    by_cases hfit : Word64.fits c.groupBytes = true
    · rw [Costs.paidCopies_of_fits hfit]
      simp only [hpos, ht, hg, true_and]
    · obtain ⟨hpaid, hexact⟩ := Costs.greatest_le_of_not_fits hpos (Costs.groupBytes_pos hg ht) hfit
      rw [if_neg (by omega), if_neg (by omega)]

/-- a product that is saturated: neither decision is for local memory -/
theorem decides_exactly_saturated : let c : Costs := ⟨8, Word64.greatest, 2, Word64.greatest - 1, 0⟩
    choose? c = some c.ideal ∧ c.ideal = globalMemory := by
  have h := (decides_exactly ⟨8, Word64.greatest, 2, Word64.greatest - 1, 0⟩ ⟨rfl, rfl, rfl, rfl, rfl⟩).2.2 (by decide)
    (by decide) (by decide)
  have hglobal : choose? ⟨8, Word64.greatest, 2, Word64.greatest - 1, 0⟩ = some globalMemory := by decide
  exact ⟨h, (Option.some.inj (hglobal.symm.trans h)).symm⟩

end Placement

/-! ## Words that wrap -/

theorem Word64.wrap_wideWord (v : Int) : wrap (wideWord v) = wrap v :=
  Int.bmod_bmod_of_dvd (by decide)

theorem Word64.wrap_wrap_sub (v w : Int) : wrap (wrap v - w) = wrap (v - w) :=
  Int.bmod_sub_bmod

theorem Binary.eval_wrapped {op : Binary} {a b r : Int} (h : op.number? a b = some r) :
    op.eval (.word a) (.word b) .i64 = .ok (.word (Word64.wrap r)) := by
  have hword (v : Int) : Value.ofInt (wideWord v) .i64 = .word (Word64.wrap v) := by
    rw [Value.ofInt_of_isInteger _ rfl, ← Word64.wrap_wideWord]
    rfl
  cases op <;> simp only [number?, reduceCtorEq, Option.some.injEq] at h
  case max =>
    have hm : (if a < b then b else a) = r := by
      split_ifs <;> omega
    change Except.ok (Value.ofInt (if a < b then b else a) .i64) = _
    rw [hm]
    rfl
  case div | rem =>
    split_ifs at h with hb
    cases h
    simp only [eval, evalInt, operand, hb, if_false, hword]
  all_goals
    subst h
    simp only [eval, evalInt, operand, hword]

namespace Machine

variable {x : Context} {s : State} {f : Form} {l r e : Expr} {a b v n d : Int}

/-- an operator on words; a result that is no word wraps -/
theorem Word.binary_wrapped {op : Binary} (hl : Word x s l a) (hr : Word x s r b) (hv : op.number? a b = some v)
    (o : Origin) : Word x s (.binary op l r .i64 o) (Word64.wrap v) where
  value := by
    rw [eval_binary (Binary.isLogical_of_number? hv), hl.value, hr.value]
    change liftArithmetic o (op.eval (.word a) (.word b) .i64) = _
    rw [Binary.eval_wrapped hv]
    rfl
  fits := Word64.fits_wrap v
  exact := fun _ _ _ he => by cases he

/-- a result that is no word is not folded, so it wraps in the folded expression as well -/
theorem Word.foldBinary_wrapped {op : Binary} (hl : Word x s l a) (hr : Word x s r b) (hv : op.number? a b = some v)
    (o : Origin) : Word x s (Expr.foldBinary op l r .i64 o) (Word64.wrap v) := by
  by_cases hfit : Word64.fits v = true
  · rw [Word64.wrap_of_fits hfit]
    exact hl.foldBinary hr hv hfit o
  have hnode := hl.binary_wrapped hr hv o
  have hfolds := Expr.foldsTo_foldBinary op l r .i64 o (Binary.isLogical_of_number? hv)
  generalize Expr.foldBinary op l r .i64 o = e at hfolds
  cases hfolds with
  | node => exact hnode
  | @words p q _ _ e hp hq he =>
    obtain rfl : p = a := hl.exact _ _ _ hp
    obtain rfl : q = b := hr.exact _ _ _ hq
    have htyped := (Binary.typed_of_foldWords? ⟨fun _ => none, fun _ => none⟩ hl.fits hr.fits he).1
    rw [Binary.foldWords?_number hv he] at htyped
    exact absurd htyped.2 hfit
  | @left k hk hn =>
    obtain rfl := hr.of_isLiteral hk
    obtain rfl := Option.some.inj (hv.symm.trans (hn a))
    exact absurd hl.fits hfit
  | @right k hk hn =>
    obtain rfl := hl.of_isLiteral hk
    obtain rfl := Option.some.inj (hv.symm.trans (hn b))
    exact absurd hr.fits hfit
  | zero hop hk =>
    subst hop
    have hzero : v = 0 := by
      rw [← Option.some.inj hv]
      rcases hk with hk | hk
      · rw [hl.of_isLiteral hk, zero_mul]
      · rw [hr.of_isLiteral hk, mul_zero]
    exact absurd (hzero ▸ rfl) hfit

namespace Computes

/-- an operator on words; a result that is no word wraps -/
theorem wrapped {op : Binary} (hl : Computes f x s l a) (hr : Computes f x s r b) (hv : op.number? a b = some v) :
    Computes f x s (.op2 op l r) (Word64.wrap v) := by
  have hty : (if op.isComparison || op.isLogical then Ty.bool else l.ty) = .i64 := by
    have hcmp : op.isComparison = false := by
      cases op <;> simp_all [Binary.number?, Binary.isComparison]
    simp [Binary.isLogical_of_number? hv, hcmp, hl.ty]
  refine ⟨hty, ?_⟩
  cases f
  · change Word x s (.binary op l r (if _ then _ else _) .unknown) _
    rw [hty]
    exact hl.word.binary_wrapped hr.word hv .unknown
  · change Word x s (Expr.foldBinary op l.fold r.fold (if _ then _ else _) .unknown) _
    rw [hty]
    exact hl.word.foldBinary_wrapped hr.word hv .unknown

/-- the quotient rounded up, where the sum is a word once the one is subtracted -/
theorem ceilDiv_of_le (hl : Computes f x s l n) (hr : Computes f x s r d) (hn : 0 ≤ n) (hd : 0 < d)
    (h : n + d - 1 ≤ Word64.greatest) : Computes f x s (.ceilDiv l r) ⌈(n : ℚ) / d⌉ := by
  have hfit : Word64.fits (n + d - 1) = true := by
    rw [Word64.fits_iff]
    unfold Word64.greatest at h
    omega
  have hsum : Computes f x s (l + r - 1) (n + d - 1) := by
    have hwrap : Computes f x s (l + r - 1) (Word64.wrap (Word64.wrap (n + d) - 1)) :=
      (hl.wrapped hr rfl).wrapped .one rfl
    rwa [Word64.wrap_wrap_sub, Word64.wrap_of_fits hfit] at hwrap
  have hq : Word64.fits ⌈(n : ℚ) / d⌉ = true := Word64.fits_ceil hl.fits hd.ne' (by omega)
  rw [ceil_eq_tdiv hn hd] at hq ⊢
  exact hsum.op2 hr (if_neg hd.ne') hq

end Computes

end Machine

/-! ## The decision of the host -/

namespace Placement

open Machine

/-- a 64-bit literal, or a variable of the host that holds the number -/
inductive Given (s : State) : Expr → Int → Prop
  | literal (v : Int) (o : Origin) : Given s (.int v .i64 o) v
  | held {n : Name} {v : Int} (h : s.vars.get? n = some (.word v)) (o : Origin) : Given s (.var n .i64 o) v

theorem Given.computes {x : Context} {s : State} {e : Expr} {v : Int} (h : Given s e v) (hv : Word64.fits v = true)
    (f : Form) : Computes f x s e v := by
  cases h with
  | literal v o => exact ⟨rfl, by cases f <;> exact Word.literal hv .i64 rfl o⟩
  | @held n v h o =>
    have hword : Word x s (.var n .i64 o) v := ⟨by rw [eval, h], hv, fun _ _ _ he => by cases he⟩
    exact ⟨rfl, by cases f <;> exact hword⟩

/-- what the expression computes does not exceed the words -/
def Costs.Moderate (c : Costs) : Prop :=
  ∀ v ∈ [c.groupBytes, c.histBytes + c.threadBytes - 1, c.groupBytes + c.histBytes - 1, c.histBytes * c.copies,
    c.lockBytes + c.histBytes * c.copies], v ≤ Word64.greatest

variable {x : Context} {s : State} {f : Form} {c : Costs} {h g t m l : Expr}

/-- sizes of which one is not positive are refused before any division -/
theorem localFits_of_nonpos (hg : Computes f x s g c.groupSize) (ht : Computes f x s t c.threadBytes)
    (hn : c.threadBytes ≤ 0 ∨ c.groupSize ≤ 0) : Evals f x s (localFits h g t m l) (.bool false) := by
  have htpos : Evals f x s (t.gt 0) (.bool (0 < c.threadBytes)) := Evals.gt ht .zero
  have hgpos : Evals f x s (g.gt 0) (.bool (0 < c.groupSize)) := Evals.gt hg .zero
  have hpos := htpos.and fun _ => hgpos
  rw [← Bool.decide_and, decide_eq_false (by omega)] at hpos
  exact Evals.and (b := false) hpos fun h => nomatch h

/-- the answer for positive sizes -/
theorem localFits_of_pos (hh : Computes f x s h c.histBytes) (hg : Computes f x s g c.groupSize)
    (ht : Computes f x s t c.threadBytes) (hm : Computes f x s m c.maxLocalMemory) (hl : Computes f x s l c.lockBytes)
    (h0 : 0 < c.histBytes) (hgpos : 0 < c.groupSize) (htpos : 0 < c.threadBytes) (hlock : 0 ≤ c.lockBytes)
    (hmod : c.Moderate) :
    Computes f x s (localCopies g t h) c.copies ∧ Evals f x s (localFits h g t m l)
      (.bool (decide (c.lockBytes + c.histBytes * c.copies ≤ c.maxLocalMemory ∧ c.threads ≤ c.groupSize))) := by
  simp only [Costs.Moderate, List.forall_mem_cons] at hmod
  obtain ⟨hgroup, hround, hround', hbytes, htotal, -⟩ := hmod
  have hgb : 0 < c.groupBytes := Costs.groupBytes_pos hgpos htpos
  have hk : 0 < c.copies := ceil_pos hgb h0
  have hprod : 0 ≤ c.histBytes * c.copies := Int.mul_nonneg h0.le hk.le
  have hfits (v : Int) (h1 : 0 ≤ v) (h2 : v ≤ Word64.greatest) : Word64.fits v = true := by
    rw [Word64.fits_iff]
    unfold Word64.greatest at h2
    omega
  have hgt : Computes f x s (g * t) c.groupBytes := hg.mul ht (hfits _ hgb.le hgroup)
  have hcopies : Computes f x s (localCopies g t h) c.copies := hgt.ceilDiv_of_le hh hgb.le h0 hround'
  have hthreads : Computes f x s (.ceilDiv h t) c.threads := hh.ceilDiv_of_le ht h0.le htpos hround
  have hrequired := hl.add (hh.mul hcopies (hfits _ hprod hbytes)) (hfits _ (by omega) htotal)
  have hwithin := Evals.le hrequired hm
  have hhold := Evals.le hthreads hg
  have hpositive : Evals f x s ((t.gt 0).and (g.gt 0)) (.bool true) := by
    have hboth := (Evals.gt ht .zero).and fun _ => Evals.gt hg .zero
    rwa [decide_eq_true htpos, decide_eq_true hgpos] at hboth
  refine ⟨hcopies, ?_⟩
  have hall := hpositive.and fun _ => hwithin.and fun _ => hhold
  rwa [Bool.true_and, ← Bool.decide_and] at hall

/-- **The host decides as the decision on words.** Over literals and variables of the host the expression has a truth
value, plain or folded; it is true exactly where the decision is for local memory, and then the expression for the copies
has the number of copies that was decided. -/
theorem localFits_agrees (x : Context) (s : State) (c : Costs) (hw : c.Words) (h0 : 1 ≤ c.histBytes)
    (hlock : 0 ≤ c.lockBytes) (hmod : c.threadBytes ≤ 0 ∨ c.groupSize ≤ 0 ∨ c.Moderate) (h g t m l : Expr)
    (hh : Given s h c.histBytes) (hg : Given s g c.groupSize) (ht : Given s t c.threadBytes)
    (hm : Given s m c.maxLocalMemory) (hl : Given s l c.lockBytes) (f : Form) :
    ∃ b, Evals f x s (localFits h g t m l) (.bool b) ∧ (b = true ↔ ∃ copies, choose? c = some (localMemory copies)) ∧
      ∀ copies, choose? c = some (localMemory copies) → Evals f x s (localCopies g t h) (.word copies) := by
  have hg' := hg.computes (x := x) hw.groupSize f
  have ht' := ht.computes (x := x) hw.threadBytes f
  by_cases hsizes : c.threadBytes ≤ 0 ∨ c.groupSize ≤ 0
  · refine ⟨false, localFits_of_nonpos hg' ht' hsizes, ?_⟩
    simp [choose?_of_nonpos (by omega : c.histBytes ≠ 0) hsizes]
  · have hmod : c.Moderate := by tauto
    have htpos : 0 < c.threadBytes := by omega
    have hgpos : 0 < c.groupSize := by omega
    obtain ⟨hcopies, hfits⟩ := localFits_of_pos (hh.computes hw.histBytes f) hg' ht' (hm.computes hw.maxLocalMemory f)
      (hl.computes hw.lockBytes f) (by omega) hgpos htpos hlock hmod
    have hgroup : Word64.fits c.groupBytes = true := by
      have hle := hmod c.groupBytes (List.mem_cons_self ..)
      have hpos := Costs.groupBytes_pos hgpos htpos
      rw [Word64.fits_iff]
      unfold Word64.greatest at hle
      omega
    have hchoose := choose?_of_pos hw (by omega) htpos hgpos hlock
    rw [Costs.paidCopies_of_fits hgroup] at hchoose
    refine ⟨_, hfits, ?_⟩
    rw [hchoose, decide_eq_true_iff]
    split_ifs with hlocal
    · simp only [hlocal, Option.some.injEq, localMemory.injEq, exists_eq', true_and, forall_eq']
      exact hcopies.evals
    · simp [hlocal]

/-- sums of bytes and divisors that wrap before the one is subtracted; one of the sizes is a variable -/
theorem localFits_agrees_wrapping :
    let c : Costs := ⟨2 ^ (62 : ℕ), 1, 2 ^ (62 : ℕ), Word64.greatest, 0⟩
    let s : State := ({} : State).set ⟨"bytes", none⟩ (.word (2 ^ (62 : ℕ)))
    let x := ({} : GpuHistogram.Machine).context {}
    choose? c = some (localMemory 1) ∧
      Evals .folded x s (localFits (.ofName ⟨"bytes", none⟩) 1 (.i64 (2 ^ (62 : ℕ))) (.i64 Word64.greatest) 0)
        (.bool true) ∧
      Evals .folded x s (localCopies 1 (.i64 (2 ^ (62 : ℕ))) (.ofName ⟨"bytes", none⟩)) (.word 1) := by
  intro c s x
  have hmod : c.Moderate := by
    have hcopies : c.copies = 1 := ceil_eq_of_bounds (by decide) (by decide) (by decide)
    simp only [Costs.Moderate, hcopies]
    decide
  have hlocal : choose? c = some (localMemory 1) := by decide
  obtain ⟨b, hb, hiff, h⟩ := localFits_agrees x s c ⟨rfl, rfl, rfl, rfl, rfl⟩ (by decide) (by decide)
    (.inr (.inr hmod)) (.ofName ⟨"bytes", none⟩) 1 (.i64 (2 ^ (62 : ℕ))) (.i64 Word64.greatest) 0
    (.held (State.get?_set ..) .unknown) (.literal ..) (.literal ..) (.literal ..) (.literal ..) .folded
  obtain rfl := hiff.2 ⟨1, hlocal⟩
  exact ⟨hlocal, hb, h 1 hlocal⟩

end Placement

end GpuHistogram
