/-
The local memory of a group. The decision where to accumulate counts bytes of one histogram, copies and locks; the kernel
that accumulates in local memory declares a block for each destination, and one for the locks. The two agree: what the
blocks take is what was counted, so it is no more than the device has.

Where all that the decision rests on is known in advance the blocks have fixed sizes (`Plan.LocalKernel.fixed`).
Otherwise the sizes are computed by the run that decides, and in a run without overflow they sum up to the bytes that its
decision has compared with the limit (`Plan.Decides.bytes_le`).
-/
import GpuHistogram.Proofs.LocalKernel
import GpuHistogram.Proofs.Points
import GpuHistogram.Proofs.Portable

namespace GpuHistogram

/-! ## Constants -/

namespace Expr

variable {l r e : Expr} {v : Int}

theorem constant?_of_isLiteral {k : Int} (h : e.fold.isLiteral k = true) : e.constant? = some k := by
  unfold constant?
  cases he : e.fold <;> rw [he] at h <;> first | cases h | skip
  simpa [isLiteral] using h

theorem fold_of_constant? (h : e.constant? = some v) : ∃ ty o, e.fold = .int v ty o := by
  unfold constant? at h
  split at h
  · rename_i w ty o he
    exact ⟨ty, o, Option.some.inj h ▸ he⟩
  · cases h

/-- a known sum has known parts -/
theorem constant?_add (h : (l + r).constant? = some v) :
    ∃ a b, l.constant? = some a ∧ r.constant? = some b ∧ v = a + b := by
  obtain ⟨ty, o, he⟩ := fold_of_constant? h
  have hf := foldsTo_foldBinary .add l.fold r.fold (op2 .add l r).ty .unknown rfl
  change FoldsTo _ _ _ _ _ (l + r).fold at hf
  generalize (l + r).fold = e at hf he
  cases hf with
  | node => cases he
  | @words a b p q e hl hr hw =>
    obtain ⟨x, hx, rfl⟩ := Option.map_eq_some_iff.1 hw
    cases he
    exact ⟨a, b, by rw [constant?, hl], by rw [constant?, hr], (Word64.checked?_eq_some.1 hx).2.symm⟩
  | @left k hk hn =>
    obtain rfl : k = 0 := by simpa using Option.some.inj (hn 0)
    exact ⟨v, 0, by rw [constant?, he], constant?_of_isLiteral hk, (add_zero v).symm⟩
  | @right k hk hn =>
    obtain rfl : k = 0 := by simpa using Option.some.inj (hn 0)
    exact ⟨0, v, constant?_of_isLiteral hk, by rw [constant?, he], (zero_add v).symm⟩
  | zero hop _ => cases hop

/-- a known product has known parts, or one part is zero -/
theorem constant?_mul (h : (l * r).constant? = some v) :
    (∃ a b, l.constant? = some a ∧ r.constant? = some b ∧ v = a * b) ∨
      v = 0 ∧ (l.constant? = some 0 ∨ r.constant? = some 0) := by
  obtain ⟨ty, o, he⟩ := fold_of_constant? h
  have hf := foldsTo_foldBinary .mul l.fold r.fold (op2 .mul l r).ty .unknown rfl
  change FoldsTo _ _ _ _ _ (l * r).fold at hf
  generalize (l * r).fold = e at hf he
  cases hf with
  | node => cases he
  | @words a b p q e hl hr hw =>
    obtain ⟨x, hx, rfl⟩ := Option.map_eq_some_iff.1 hw
    cases he
    exact .inl ⟨a, b, by rw [constant?, hl], by rw [constant?, hr], (Word64.checked?_eq_some.1 hx).2.symm⟩
  | @left k hk hn =>
    obtain rfl : k = 1 := by simpa using Option.some.inj (hn 1)
    exact .inl ⟨v, 1, by rw [constant?, he], constant?_of_isLiteral hk, (mul_one v).symm⟩
  | @right k hk hn =>
    obtain rfl : k = 1 := by simpa using Option.some.inj (hn 1)
    exact .inl ⟨1, v, constant?_of_isLiteral hk, by rw [constant?, he], (one_mul v).symm⟩
  | zero _ hk =>
    cases he
    exact .inr ⟨rfl, hk.imp constant?_of_isLiteral constant?_of_isLiteral⟩

/-- the product of two literals is known, unless it overflows -/
theorem constant?_mul_of_fits {a b : Int} {o o' : Origin} (hl : l.fold = .int a .i64 o) (hr : r.fold = .int b .i64 o')
    (hfit : Word64.fits (a * b) = true) : (l * r).constant? = some (a * b) := by
  have hfold : (l * r).fold = .int (a * b) .i64 .unknown := by
    change foldBinary .mul l.fold r.fold _ _ = _
    rw [hl, hr]
    simp [foldBinary, Ty.i64, Binary.foldWords?, Word64.checked?_eq_some.2 ⟨hfit, rfl⟩, withOrigin]
  rw [constant?, hfold]

/-- a known sum is the sum of its known parts -/
theorem constant?_sum {es : List Expr} (h : (sum es).constant? = some v) :
    ∃ vs, List.Forall₂ (fun e a => e.constant? = some a) es vs ∧ v = vs.sum := by
  have hfold : ∀ (es : List Expr) (e : Expr) (v : Int), (es.foldl (· + ·) e).constant? = some v →
      ∃ a vs, e.constant? = some a ∧ List.Forall₂ (fun e a => e.constant? = some a) es vs ∧ v = a + vs.sum := by
    intro es
    induction es with
    | nil => exact fun e v h => ⟨v, [], h, .nil, by simp⟩
    | cons e' es ih =>
      intro e v h
      obtain ⟨b, vs, hb, hvs, rfl⟩ := ih (e + e') v h
      obtain ⟨a, a', ha, ha', rfl⟩ := constant?_add hb
      exact ⟨a, a' :: vs, ha, .cons ha' hvs, by rw [List.sum_cons, add_assoc]⟩
  cases es with
  | nil =>
    cases h
    exact ⟨[], .nil, rfl⟩
  | cons e es =>
    obtain ⟨a, vs, ha, hvs, rfl⟩ := hfold es e v h
    exact ⟨a :: vs, .cons ha hvs, by rw [List.sum_cons]⟩

/-- the known product of expressions that are not negative where they are known -/
theorem constant?_product_nonneg {es : List Expr} (hes : ∀ e ∈ es, ∀ a, e.constant? = some a → 0 ≤ a)
    (h : (product es).constant? = some v) : 0 ≤ v := by
  have hmul {l r : Expr} {v : Int} (hl : ∀ a, l.constant? = some a → 0 ≤ a) (hr : ∀ a, r.constant? = some a → 0 ≤ a)
      (h : (l * r).constant? = some v) : 0 ≤ v := by
    rcases constant?_mul h with ⟨a, b, ha, hb, rfl⟩ | ⟨rfl, -⟩
    · exact Int.mul_nonneg (hl a ha) (hr b hb)
    · exact Int.le_refl 0
  have hfold : ∀ (es : List Expr) (e : Expr), (∀ e ∈ es, ∀ a, e.constant? = some a → 0 ≤ a) →
      (∀ a, e.constant? = some a → 0 ≤ a) → ∀ v, (es.foldl (· * ·) e).constant? = some v → 0 ≤ v := by
    intro es
    induction es with
    | nil => exact fun e _ he v h => he v h
    | cons e' es ih =>
      intro e hes he
      exact ih (e * e') (fun x hx => hes x (List.mem_cons_of_mem _ hx)) fun a ha =>
        hmul he (hes e' (List.mem_cons_self ..)) ha
  cases es with
  | nil =>
    cases h
    decide
  | cons e es => exact hfold es e (fun x hx => hes x (List.mem_cons_of_mem _ hx)) (hes e (List.mem_cons_self ..)) v h

end Expr

theorem Scalar.bytes_pos (s : Scalar) : 0 < s.bytes := by
  cases s <;> decide

theorem Operator.tupleBytes_pos {op : Operator} (h : op.dests ≠ []) : 0 < op.tupleBytes := by
  obtain ⟨d, ds, hd⟩ := List.exists_cons_of_ne_nil h
  rw [op.tupleBytes_eq, hd, List.map_cons, List.sum_cons]
  exact Nat.add_pos_left d.elem.bytes_pos _

/-- a known size of an operator, or 0 -/
def Part.knownTuples (q : Part) : Int := (q.width * q.bucketSize).constant?.getD 0

/-- the number of elements of a block, if it is fixed -/
def BlockSize.fixed? : BlockSize → Option Int
  | .fixed n => some n
  | .computed _ => none

/-- the fixed number of elements of a block, or 0 -/
def BlockSize.known (b : BlockSize) : Int := b.fixed?.getD 0

theorem Expr.Settled.of_constant? {V : List Name} {k : ℕ} {P : Int → Prop} {e : Expr} {v : Int} (h : e.Settled V k P)
    (hv : e.constant? = some v) : P v := by
  rcases h with ⟨w, rfl, hw⟩ | ⟨n, -, -, rfl⟩
  · cases hv
    exact hw
  · cases hv

/-- the known product of two sizes is a 64-bit literal -/
theorem Expr.Settled.fold_mul {V : List Name} {k : ℕ} {P Q : Int → Prop} {l r : Expr} {v : Int} (hl : l.Settled V k P)
    (hr : r.Settled V k Q) (hv : (l * r).constant? = some v) : ∃ o, (l * r).fold = .int v .i64 o := by
  obtain ⟨ty, o, he⟩ := fold_of_constant? hv
  have hty : l.ty = .i64 := by rcases hl with ⟨v, rfl, -⟩ | ⟨n, -, -, rfl⟩ <;> rfl
  have hliteral {e : Expr} {P : Int → Prop} (h : e.Settled V k P) (he : e.fold = .int v ty o) : ty = .i64 := by
    rcases h with ⟨w, rfl, -⟩ | ⟨n, -, -, rfl⟩ <;> cases he
    rfl
  have hf := foldsTo_foldBinary .mul l.fold r.fold l.ty .unknown rfl
  change FoldsTo _ _ _ _ _ (l * r).fold at hf
  rw [he] at hf
  refine ⟨o, ?_⟩
  rw [he]
  suffices ty = .i64 by rw [this]
  generalize hx : Expr.int v ty o = x at hf
  cases hf with
  | node => cases hx
  | words _ _ hw =>
    obtain ⟨y, -, rfl⟩ := Option.map_eq_some_iff.1 hw
    cases hx
    rfl
  | left _ _ => exact hliteral hl hx.symm
  | right _ _ => exact hliteral hr hx.symm
  | zero _ _ =>
    cases hx
    exact hty

/-- the widths and shapes of a histogram that are known in advance are not negative -/
def Histogram.NonNegative (h : Histogram) : Prop :=
  ∀ op ∈ h.operators, ∀ e ∈ op.width :: op.shape, ∀ v ∈ e.constant?, 0 ≤ v

/-- where the decision is for local memory, the copies and the locks fit -/
theorem Placement.choose?_localMemory {c : Costs} {copies : Int} (h : choose? c = some (.localMemory copies))
    (hb : 0 ≤ c.histBytes) : 0 < c.groupSize ∧ 0 ≤ copies ∧ Word64.fits (c.histBytes * copies) = true ∧
      c.histBytes * copies + c.lockBytes ≤ c.maxLocalMemory := by
  unfold choose? at h
  split_ifs at h with h0 hneg
  · cases h
  · cases h
  obtain ⟨threads, -, h⟩ := Option.bind_eq_some_iff.1 h
  obtain ⟨n, hn, h⟩ := Option.bind_eq_some_iff.1 h
  cases hreq : c.required? n with
  | none =>
    rw [hreq] at h
    cases h
  | some bytes =>
    rw [hreq] at h
    obtain ⟨x, hx, hy⟩ := Option.bind_eq_some_iff.1 hreq
    obtain ⟨hfit, rfl⟩ := Word64.checked?_eq_some.1 hx
    obtain ⟨-, rfl⟩ := Word64.checked?_eq_some.1 hy
    have h' := Option.some.inj h
    split_ifs at h' with hfits
    cases h'
    simp only [not_or, not_le] at hneg
    refine ⟨hneg.2, ?_, hfit, hfits.1⟩
    unfold localCopies? divUp? at hn
    rw [if_neg (by omega)] at hn
    have hbytes : 0 ≤ Word64.saturate (c.groupSize * c.threadBytes) := by
      have hprod : 0 < c.groupSize * c.threadBytes := Int.mul_pos hneg.2 hneg.1
      unfold Word64.saturate Word64.least Word64.greatest
      omega
    have hq : 0 ≤ (Word64.saturate (c.groupSize * c.threadBytes)).tdiv c.histBytes := Int.tdiv_nonneg hbytes hb
    rw [← Option.some.inj hn]
    split_ifs <;> omega

namespace Plan

variable {p : Plan} {h : Histogram} {o : Options} {k : ℕ} {V : List Name}

/-! ## Sizes that are known in advance -/

/-- the bytes of one histogram are those of the known sizes of its operators -/
theorem known_histBytes {v : Int} (hv : (histBytes p.parts).constant? = some v) :
    (p.parts.map fun q => q.knownTuples * (q.op.tupleBytes : Int)).sum = v ∧
      ∀ q ∈ p.parts, q.op.dests ≠ [] → (q.width * q.bucketSize).constant? = some q.knownTuples := by
  have hterm {l : Expr} {n : ℕ} {x : Int} (hx : (l * .i64 n).constant? = some x) :
      x = l.constant?.getD 0 * n ∧ (n ≠ 0 → l.constant? = some (l.constant?.getD 0)) := by
    rcases Expr.constant?_mul hx with ⟨a, b, ha, hb, rfl⟩ | ⟨rfl, ha | hb⟩
    · obtain rfl : (n : Int) = b := Option.some.inj hb
      rw [ha]
      exact ⟨rfl, fun _ => rfl⟩
    · rw [ha]
      exact ⟨(zero_mul _).symm, fun _ => rfl⟩
    · obtain hn : (n : Int) = 0 := Option.some.inj hb
      exact ⟨by rw [hn, mul_zero], fun h => absurd (Int.natCast_eq_zero.1 hn) h⟩
  obtain ⟨vs, hvs, rfl⟩ := Expr.constant?_sum hv
  rw [List.forall₂_map_left_iff] at hvs
  clear hv
  generalize p.parts = ps at hvs ⊢
  induction hvs with
  | nil => exact ⟨rfl, fun q hq => absurd hq List.not_mem_nil⟩
  | @cons q x qs vs hx _ ih =>
    obtain ⟨hval, hknown⟩ := hterm hx
    refine ⟨by rw [List.map_cons, List.sum_cons, List.sum_cons, ih.1, hval]; rfl, fun q' hq' hd => ?_⟩
    rcases List.mem_cons.1 hq' with rfl | hq'
    · exact hknown (Nat.pos_iff_ne_zero.1 (Operator.tupleBytes_pos hd))
    · exact ih.2 q' hq' hd

theorem Settled.knownTuples_nonneg (hs : p.Settled h o k V) (hn : h.NonNegative) {q : Part} (hq : q ∈ p.parts) :
    0 ≤ q.knownTuples := by
  unfold Part.knownTuples
  cases hv : (q.width * q.bucketSize).constant? with
  | none => exact Int.le_refl 0
  | some v =>
    rcases Expr.constant?_mul hv with ⟨a, b, ha, hb, rfl⟩ | ⟨rfl, -⟩
    · obtain ⟨op, hop, ha⟩ := (hs.width q hq).of_constant? ha
      obtain ⟨op', hop', hb⟩ := (hs.bucketSize q hq).of_constant? hb
      refine Int.mul_nonneg (hn op hop _ (List.mem_cons_self ..) a ha) ?_
      exact Expr.constant?_product_nonneg (fun e he => hn op' hop' e (List.mem_cons_of_mem _ he)) hb
    · exact Int.le_refl 0

theorem Settled.bytes_nonneg (hs : p.Settled h o k V) (hn : h.NonNegative) :
    ∀ x ∈ p.parts.map fun q => q.knownTuples * (q.op.tupleBytes : Int), 0 ≤ x := by
  intro x hx
  obtain ⟨q, hq, rfl⟩ := List.mem_map.1 hx
  exact Int.mul_nonneg (hs.knownTuples_nonneg hn hq) (Int.natCast_nonneg _)

/-- where the bytes of one histogram are known they are not negative -/
theorem Settled.histBytes_nonneg (hs : p.Settled h o k V) (hn : h.NonNegative) {v : Int}
    (hv : (histBytes p.parts).constant? = some v) : 0 ≤ v :=
  (known_histBytes hv).1 ▸ List.sum_nonneg (hs.bytes_nonneg hn)

/-- **Fixed blocks.** Where the decision is made in advance, all blocks have fixed sizes, and they take no more bytes than
there are. -/
theorem LocalKernel.fixed {copies : Int} {spec : LaunchSpec} {c : Placement.Costs} (hκ : p.LocalKernel (.i64 copies) spec)
    (hs : p.Settled h o k V) (hn : h.NonNegative) (hbytes : (histBytes p.parts).constant? = some c.histBytes)
    (hgroup : p.groupSize = .i64 c.groupSize) (hlocks : p.lockBytes.constant? = some c.lockBytes)
    (hc : Placement.choose? c = some (.localMemory copies)) :
    (∀ b ∈ spec.blocks, ∃ n : ℕ, b.size.fixed? = some (n : Int)) ∧ bytesOf BlockSize.known spec.blocks ≤ c.maxLocalMemory := by
  obtain ⟨hsum, hknown⟩ := known_histBytes hbytes
  have htuples (q : Part) (hq : q ∈ p.parts) := hs.knownTuples_nonneg hn hq
  have hterms := hs.bytes_nonneg hn
  have hnonneg := hs.histBytes_nonneg hn hbytes
  obtain ⟨hg, hcopies, hfit, hmax⟩ := Placement.choose?_localMemory hc hnonneg
  -- the copies of one operator are no more than the bytes of all copies, so that their number is a word
  have hsize {q : Part} (hq : q ∈ p.parts) (hd : q.op.dests ≠ []) :
      BlockSize.ofExpr (.i64 copies * q.subs.size) = .fixed (copies * q.knownTuples) := by
    obtain ⟨o, he⟩ := (hs.width q hq).fold_mul (hs.bucketSize q hq) (hknown q hq hd)
    have hle : q.knownTuples ≤ c.histBytes := by
      have h1 : q.knownTuples * 1 ≤ q.knownTuples * q.op.tupleBytes :=
        Int.mul_le_mul_of_nonneg_left (by exact_mod_cast Operator.tupleBytes_pos hd) (htuples q hq)
      have h2 : q.knownTuples * (q.op.tupleBytes : Int) ≤ c.histBytes :=
        hsum ▸ List.single_le_sum hterms _ (List.mem_map_of_mem hq)
      omega
    have hword : Word64.fits (copies * q.knownTuples) = true := by
      have h1 : 0 ≤ copies * q.knownTuples := Int.mul_nonneg hcopies (htuples q hq)
      have h2 : copies * q.knownTuples ≤ copies * c.histBytes := Int.mul_le_mul_of_nonneg_left hle hcopies
      rw [mul_comm c.histBytes] at hfit
      rw [Word64.fits_iff] at hfit ⊢
      omega
    have hfold : (.i64 copies * q.subs.size : Expr).constant? = some (copies * q.knownTuples) := by
      rw [(hs.subs q hq).2]
      exact Expr.constant?_mul_of_fits rfl he hword
    rw [BlockSize.ofExpr, hfold]
  have hthreads : BlockSize.ofExpr p.groupSize = .fixed c.groupSize := by
    rw [hgroup]
    rfl
  refine ⟨fun b hb => ?_, ?_⟩
  · rcases hκ.mem_blocks hb with ⟨q, hq, hd, hb⟩ | ⟨-, hb⟩
    · obtain ⟨n, hn⟩ := Int.eq_ofNat_of_zero_le (Int.mul_nonneg hcopies (htuples q hq))
      exact ⟨n, by rw [hb, hsize hq ((hs.subs q hq).1 ▸ hd), hn, BlockSize.fixed?]⟩
    · obtain ⟨n, hn⟩ := Int.eq_ofNat_of_zero_le hg.le
      exact ⟨n, by rw [hb, hthreads, hn, BlockSize.fixed?]⟩
  · have hle := hκ.bytes_le (fun q hq => (hs.subs q hq).1) BlockSize.known (by
      rw [hthreads]
      exact hg.le)
    have hcount : (p.parts.map fun q => (BlockSize.ofExpr (.i64 copies * q.subs.size)).known * (q.op.tupleBytes : Int)) =
        p.parts.map fun q => copies * (q.knownTuples * (q.op.tupleBytes : Int)) := by
      refine List.map_congr_left fun q hq => ?_
      by_cases hd : q.op.dests = []
      · simp [q.op.tupleBytes_eq, hd]
      · rw [hsize hq hd]
        exact mul_assoc ..
    have hlock : (if p.operators.any Operator.needsLock then (BlockSize.ofExpr p.groupSize).known * 4 else 0) =
        c.lockBytes := by
      rw [hthreads]
      unfold lockBytes at hlocks
      split_ifs at hlocks ⊢
      · rw [hgroup] at hlocks
        rcases Expr.constant?_mul hlocks with ⟨a, b, ha, hb, hab⟩ | ⟨hz, hz' | hz'⟩
        · cases ha
          cases hb
          exact hab.symm
        · exact absurd (Option.some.inj hz') hg.ne'
        · exact absurd (Option.some.inj hz') (by decide)
      · exact Option.some.inj hlocks
    rw [hcount, List.sum_map_mul_left, hsum, hlock, mul_comm] at hle
    exact hle.trans hmax

end Plan

end GpuHistogram
