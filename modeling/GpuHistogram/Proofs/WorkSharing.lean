/-
The work of the threads of a kernel, and their copies. In the loops over elements the threads have blocks
(`globalBody_obeys`, `sweep_obeys`), in the loops over a histogram the numbers are dealt to the threads of the group in turn
(`groupLoop_obeys`).

Results:
- `copy_in_range_iff`: every thread has one of the copies in global memory exactly if the sum in the second of the two
  nested quotients is at most `2 ^ 63`;
- `every_item_once`: all of it together, the loops included, and the schedules give every item to one thread;
- `copy_out_of_range`: more than `2 ^ 62` threads and one bucket, where that sum is too large.
-/
import GpuHistogram.Proofs.Addresses
import GpuHistogram.Proofs.GlobalCode
import GpuHistogram.Proofs.GroupLoops

namespace GpuHistogram

theorem Word64.wrap_sub_period (v : Int) : wrap (v - 2 ^ 64) = wrap v := by
  unfold wrap
  exact Int.sub_bmod_right ..

namespace Machine

variable {f : Form} {c : Context} {s : State}

/-! ## Copies -/

section Copies

variable {T : ℕ} {B : ℤ} {p : Plan} {part : Part} {count thread : Expr}

/-- there are no more copies than threads -/
theorem copiesFor_le (hT : 0 < T) : copiesFor T B ≤ T := by
  unfold copiesFor
  obtain ⟨b, hb⟩ : ∃ b, (max 1 B).toNat = b + 1 := ⟨(max 1 B).toNat - 1, by omega⟩
  rw [hb]
  refine Nat.div_le_of_le_mul ?_
  have hle : b ≤ b * T := Nat.le_mul_of_pos_right b hT
  rw [Nat.succ_mul]
  omega

theorem copy_mono (T : ℕ) (B : ℤ) : Monotone fun t => t / sharesFor T B := fun _ _ h => Nat.div_le_div_right h

theorem copyCount_computes (hT : 0 < T) (hthreads : Computes f c s p.threads T)
    (hbuckets : Computes f c s (part.width * p.segments) B) (hfit : (T : ℤ) + B < 2 ^ 63) :
    Computes f c s (p.copyCount part) (copiesFor T B) := by
  have hthreadsFit := Word64.fits_iff.1 hthreads.fits
  have hmax := Computes.one.max hbuckets
  rw [← Int.toNat_of_nonneg (by omega : 0 ≤ max 1 B)] at hmax
  exact hthreads.ceilDiv_wide hmax (by omega) (by omega)

theorem sharesFor_computes (hT : 0 < T) (hthreads : Computes f c s p.threads T)
    (hcount : Computes f c s count (copiesFor T B)) (hsum : T + copiesFor T B ≤ 2 ^ 63) :
    Computes f c s (p.threads.ceilDiv count) (sharesFor T B) :=
  hthreads.ceilDiv_wide hcount (copiesFor_pos hT) hsum

/-- where the sum is too large, the numerator is reduced to a negative number -/
theorem numerator_wraps {l r : Expr} {m k : ℕ} (hl : Computes f c s l m) (hr : Computes f c s r k) (h : 2 ^ 63 < m + k) :
    Computes f c s (l + r - 1) (m + k - 1 - 2 ^ 64) := by
  have hnumerator := (hl.wraps (.inl rfl) hr rfl).wraps (.inr rfl) .one rfl
  have hm := Word64.fits_iff.1 hl.fits
  have hk := Word64.fits_iff.1 hr.fits
  have hvalue : Word64.wrap (Word64.wrap (m + k) - 1) = m + k - 1 - 2 ^ 64 := by
    calc Word64.wrap (Word64.wrap (m + k) - 1) = Word64.wrap (m + k - 1) := Int.bmod_sub_bmod
      _ = Word64.wrap (m + k - 1 - 2 ^ 64) := (Word64.wrap_sub_period _).symm
      _ = m + k - 1 - 2 ^ 64 := Word64.wrap_of_fits (Word64.fits_iff.2 (by omega))
  rwa [hvalue] at hnumerator

/-- then the number of threads that share a copy is not positive, and not far below zero -/
theorem exists_wrapped_share (hT : 0 < T) (hthreads : Computes f c s p.threads T)
    (hcount : Computes f c s count (copiesFor T B)) (hsum : 2 ^ 63 < T + copiesFor T B) :
    ∃ q : ℕ, q ≤ T - 1 ∧ Computes f c s (p.threads.ceilDiv count) (-(q : ℤ)) := by
  have hthreadsFit := Word64.fits_iff.1 hthreads.fits
  have hle : copiesFor T B ≤ T := copiesFor_le hT
  have hnumerator := numerator_wraps hthreads hcount hsum
  generalize copiesFor T B = k at *
  have hk : 2 ≤ k := by omega
  obtain ⟨a, ha⟩ : ∃ a : ℕ, T + k - 1 - 2 ^ 64 = -(a : ℤ) := ⟨2 ^ 64 + 1 - (T + k), by omega⟩
  rw [ha] at hnumerator
  obtain ⟨q, hq⟩ : ∃ q, a / k = q := ⟨_, rfl⟩
  have hquotient : q ≤ T - 1 := by
    calc q = a / k := hq.symm
      _ ≤ a / 2 := Nat.div_le_div_left hk (by omega)
      _ ≤ T - 1 := by omega
  have hvalue : Binary.div.number? (-(a : ℤ)) k = some (-(q : ℤ)) := by
    simp only [Binary.number?]
    rw [if_neg (by omega), Int.neg_tdiv, Int.tdiv_eq_ediv_of_nonneg (by omega), ← Int.natCast_ediv, hq]
  exact ⟨q, hquotient, hnumerator.op2 hcount hvalue (Word64.fits_iff.2 (by omega))⟩

/-- a number is divided by zero, or becomes negative -/
theorem not_computes_div {t q i : ℕ} {share : Expr} (hthread : Computes f c s thread t) (hqt : q ≤ t)
    (hshare : Computes f c s share (-(q : ℤ))) : ¬ Computes f c s (thread / share) i := by
  intro hcopy
  have hfit := Word64.fits_iff.1 hthread.fits
  rcases Nat.eq_zero_or_pos q with rfl | hpos
  · have hfault := hthread.eval_div_zero hshare
    rw [hcopy.word.value] at hfault
    cases hfault
  · obtain ⟨r, hr⟩ : ∃ r, t / q = r := ⟨_, rfl⟩
    have hrpos : 0 < r := hr ▸ Nat.div_pos hqt hpos
    have hrle : r ≤ t := hr ▸ Nat.div_le_self _ _
    have hvalue : Binary.div.number? t (-(q : ℤ)) = some (-(r : ℤ)) := by
      simp only [Binary.number?]
      rw [if_neg (by omega), Int.tdiv_neg, Int.tdiv_eq_ediv_of_nonneg (by omega), ← Int.natCast_ediv, hr]
    have hnegative : (i : ℤ) = -(r : ℤ) := hcopy.unique (hthread.op2 hshare hvalue (Word64.fits_iff.2 (by omega)))
    omega

/-- **The range of the copies.** Every thread has one of the copies exactly if the sum in the number of threads that share
one is at most `2 ^ 63`. -/
theorem copy_in_range_iff (hT : 0 < T) (hthreads : Computes f c s p.threads T)
    (hcount : Computes f c s count (copiesFor T B)) :
    (∀ t < T, ∀ thread, Computes f c s thread t →
      ∃ i < copiesFor T B, Computes f c s (thread / p.threads.ceilDiv count) (i : ℕ)) ↔ T + copiesFor T B ≤ 2 ^ 63 := by
  constructor
  · intro h
    by_contra hlarge
    -- it is the last thread that has none
    obtain ⟨q, hq, hshare⟩ := exists_wrapped_share hT hthreads hcount (not_le.1 hlarge)
    have hthreadsFit := Word64.fits_iff.1 hthreads.fits
    have hlast : Computes f c s (.i64 (T - 1 : ℕ)) (T - 1 : ℕ) := .literal (Word64.fits_iff.2 (by omega))
    obtain ⟨i, -, hcopy⟩ := h (T - 1) (by omega) _ hlast
    exact not_computes_div hlast hq hshare hcopy
  · intro hsum t ht thread hthread
    exact ⟨t / sharesFor T B, copy_lt B ht, hthread.div (sharesFor_computes hT hthreads hcount hsum) (sharesFor_pos hT)⟩

end Copies

/-- **Every item once.** For `N` items and `T` threads whose sum is below `2 ^ 63`:
- in blocks as in turns, every item belongs to exactly one thread and one round;
- the host computes the size of a block without overflow; the kernel in global memory, the loop over the elements of a
  segment and the loops of a group do their work for the items of a thread, in its rounds, and for nothing else;
- the number of copies and the number of threads that share one are computed as they should be, as long as the sums in them
  are at most `2 ^ 63`; every thread has one of the copies, and later threads have no earlier copies. -/
theorem every_item_once {N T : ℕ} (hT : 1 ≤ T) (hfit : N + T < 2 ^ 63) :
    ((Schedule.blocks N T).Partitions N T ∧ (Schedule.turns N T).Partitions N T) ∧
    ((∀ f c s (p : Plan), Computes f c s p.totalElements N → Computes f c s p.threads T →
        Computes f c s (p.totalElements.ceilDiv p.threads) (Schedule.blocks N T).rounds) ∧
      (∀ f L c p ns parts chunk element share s, ∀ t < T, GlobalStart f c p ns parts chunk element share N T t s →
        Obeys (.blocks N T) N t f L c (p.globalBody ns parts chunk element) ns.flat (globalWork p ns element)
          (fun u => ∀ g ∈ parts, u.vars.get? g.copy = some (.word (t / share g : ℕ))) s) ∧
      (∀ f L c p ns shape sw element s G g i l, G * g = T → i * g + l < T →
        SweepStart f c p ns shape sw element N G g i l s →
        Obeys (.blocks N T) N (i * g + l) f L c (p.sweep ns shape sw element) sw.e element (fun _ => True) s) ∧
      ∀ f L c ns thread size body s, ∀ t < T, GroupStart f c ns thread size body N T t s →
        Obeys (.turns N T) N t f L c [groupLoop ns thread size body] ns.j body (fun _ => True) s) ∧
    ∀ f c s (p : Plan) (part : Part) (B : ℤ), Computes f c s p.threads T → Computes f c s (part.width * p.segments) B →
      T + B < 2 ^ 63 → T + copiesFor T B ≤ 2 ^ 63 →
      (Computes f c s (p.copyCount part) (copiesFor T B) ∧
        ∀ count, Computes f c s count (copiesFor T B) → Computes f c s (p.threads.ceilDiv count) (sharesFor T B) ∧
          ∀ thread (t : ℕ), Computes f c s thread t →
            Computes f c s (thread / p.threads.ceilDiv count) (t / sharesFor T B : ℕ)) ∧
      (∀ t < T, t / sharesFor T B < copiesFor T B) ∧ Monotone fun t => t / sharesFor T B := by
  refine ⟨⟨Schedule.blocks_partitions hT, Schedule.turns_partitions hT⟩, ⟨?_, ?_, ?_, ?_⟩, ?_⟩
  · intro f c s p hsize hthreads
    exact hsize.ceilDiv_wide hthreads hT hfit.le
  · intro f L c p ns parts chunk element share s t ht h
    exact globalBody_obeys ht hfit h
  · rintro f L c p ns shape sw element s G g i l rfl hl h
    exact sweep_obeys hl hfit h
  · intro f L c ns thread size body s t ht h
    exact groupLoop_obeys ht hfit h
  · intro f c s p part B hthreads hbuckets hsmall hsum
    refine ⟨⟨copyCount_computes hT hthreads hbuckets hsmall, fun count hcount => ?_⟩, fun t ht => copy_lt B ht,
      copy_mono T B⟩
    have hshare := sharesFor_computes hT hthreads hcount hsum
    exact ⟨hshare, fun thread t hthread => hthread.div hshare (sharesFor_pos hT)⟩

/-- ten elements for four threads -/
def tenElements : Plan := { (default : Plan) with threads := 4, segments := 1, elements := 10 }

/-- the second of four threads: it has the elements 3, 4 and 5 in blocks, and the numbers 1, 5 and 9 in turns -/
theorem every_item_once_second :
    let c : Context := Context.inGrid { limits := {}, sizes := fun _ => none, loopLimit := 10 } 1 4 0 1
    let s : State := State.set (State.set {} (.plain "gid") (.word 0)) (.plain "ltid") (.word 1)
    let work : List Stmt := [.store (.element (.plain "seen") .i64 .device 0) 1]
    let ns : GlobalNames := ⟨.plain "gtid", .plain "k", .plain "flat", .plain "seg_flat"⟩
    let parts : List GlobalPart := [⟨.primitive .add, 2, 2, .plain "subhisto_id"⟩]
    let ls : LocalNames := ⟨.plain "ltid", .plain "gid", .plain "seg_flat", .plain "slot"⟩
    let sw : SweepNames := ⟨.plain "stid", .plain "k", .plain "e", .plain "chunk"⟩
    ((Schedule.blocks 10 4).Partitions 10 4 ∧ (Schedule.turns 10 4).Partitions 10 4) ∧
    (GlobalStart .folded c tenElements ns parts 3 work (fun _ => 2) 10 4 1 s ∧
      Obeys (.blocks 10 4) 10 1 .folded (launch c) c (tenElements.globalBody ns parts 3 work) ns.flat
        (globalWork tenElements ns work) (fun u => ∀ g ∈ parts, u.vars.get? g.copy = some (.word (1 / 2 : ℕ))) s) ∧
    (SweepStart .folded c tenElements ls ⟨1, 1⟩ sw work 10 1 4 0 1 s ∧
      Obeys (.blocks 10 4) 10 1 .folded (launch c) c (tenElements.sweep ls ⟨1, 1⟩ sw work) sw.e work (fun _ => True) s) ∧
    (GroupStart .folded c ⟨.plain "c", .plain "j"⟩ (.plain "ltid") 10 work 10 4 1 s ∧
      Obeys (.turns 10 4) 10 1 .folded (launch c) c [groupLoop ⟨.plain "c", .plain "j"⟩ (.plain "ltid") 10 work]
        (.plain "j") work (fun _ => True) s) ∧
    Computes .folded c s (tenElements.copyCount { (default : Part) with width := 3 }) (2 : ℕ) ∧ ∀ t < 4, t / 2 < 2 := by
  intro c s work ns parts ls sw
  have hliteral (t : State) (k : ℕ) (hk : Word64.fits (k : ℕ) = true) : Computes .folded c t (.i64 k) (k : ℕ) := .literal hk
  have hgroupSize (t : State) : Computes .folded c t .localSize (4 : ℕ) := .place rfl (by decide)
  have hglobal : GlobalStart .folded c tenElements ns parts 3 work (fun _ => 2) 10 4 1 s :=
    { device := rfl
      rounds := by decide
      number := .globalId (by decide)
      block := fun t _ => hliteral t 3 (by decide)
      size := fun t _ => (hliteral t 1 (by decide)).mulNat (hliteral t 10 (by decide)) (by decide)
      shares := fun g hg => by
        cases List.mem_singleton.1 hg
        exact ⟨by decide, fun t _ => hliteral t 2 (by decide)⟩
      names := by decide
      kept := by decide
      counter := by decide }
  have hsweep : SweepStart .folded c tenElements ls ⟨1, 1⟩ sw work 10 1 4 0 1 s :=
    { device := rfl
      rounds := by decide
      group := rfl
      thread := rfl
      groups := fun t _ => hliteral t 1 (by decide)
      groupSize := fun t _ => hgroupSize t
      size := fun t _ => hliteral t 10 (by decide)
      names := by decide
      kept := by decide }
  have hgroup : GroupStart .folded c ⟨.plain "c", .plain "j"⟩ (.plain "ltid") 10 work 10 4 1 s :=
    { device := rfl
      rounds := by decide
      number := rfl
      groupSize := fun t _ => hgroupSize t
      size := fun t _ => hliteral t 10 (by decide)
      kept := by decide
      counter := by decide }
  obtain ⟨hpartitions, ⟨-, hblocks, hsegment, hturns⟩, hcopies⟩ := every_item_once (N := 10) (T := 4) (by decide) (by decide)
  have hbuckets := (hliteral s 3 (by decide)).mulNat (hliteral s 1 (by decide)) (by decide)
  obtain ⟨⟨hcount, -⟩, hlt, -⟩ := hcopies .folded c s tenElements { (default : Part) with width := 3 } 3
    (hliteral s 4 (by decide)) hbuckets (by decide) (by decide)
  exact ⟨hpartitions, ⟨hglobal, hblocks _ _ _ _ _ _ _ _ _ _ 1 (by decide) hglobal⟩,
    ⟨hsweep, hsegment _ _ _ _ _ _ _ _ _ 1 4 0 1 rfl (by decide) hsweep⟩,
    ⟨hgroup, hturns _ _ _ _ _ _ _ _ 1 (by decide) hgroup⟩, hcount, hlt⟩

/-- With more than `2 ^ 62` threads and one bucket the sum overflows, although threads and buckets together are below
`2 ^ 63`: the second thread has the copy -1, and the copies do not grow with the threads. -/
theorem copy_out_of_range :
    let p : Plan := { (default : Plan) with threads := .i64 (2 ^ 62 + 1), segments := 1 }
    let part : Part := { (default : Part) with width := 1 }
    let c : Context := { limits := {}, sizes := fun _ => none, loopLimit := 10 }
    (2 ^ 62 + 1 : ℕ) + 1 < 2 ^ 63 ∧ Computes .folded c {} p.threads (2 ^ 62 + 1 : ℕ) ∧
    Computes .folded c {} (part.width * p.segments) (1 : ℕ) ∧
    Computes .folded c {} (.i64 0 / p.threads.ceilDiv (p.copyCount part)) 0 ∧
    Computes .folded c {} (.i64 1 / p.threads.ceilDiv (p.copyCount part)) (-1) := by
  intro p part c
  have hthreads : Computes .folded c {} p.threads (2 ^ 62 + 1 : ℕ) := .literal (by decide)
  have hbuckets : Computes .folded c {} (part.width * p.segments) (1 : ℕ) := .mul .one .one (by decide)
  have hcount : Computes .folded c {} (p.copyCount part) (2 ^ 62 + 1 : ℕ) :=
    copyCount_computes (by norm_num) hthreads hbuckets (by norm_num)
  have hshare : Computes .folded c {} (p.threads.ceilDiv (p.copyCount part)) (-1) :=
    (numerator_wraps hthreads hcount (by norm_num)).op2 hcount (by decide) (by decide)
  have hcopy (t q : ℤ) (ht : Word64.fits t = true) (hq : Binary.div.number? t (-1) = some q) (hfit : Word64.fits q = true) :
      Computes .folded c {} (.i64 t / p.threads.ceilDiv (p.copyCount part)) q :=
    (Computes.literal ht).op2 hshare hq hfit
  exact ⟨by norm_num, hthreads, hbuckets, hcopy 0 0 (by decide) (by decide) (by decide),
    hcopy 1 (-1) (by decide) (by decide) (by decide)⟩

end Machine

end GpuHistogram
