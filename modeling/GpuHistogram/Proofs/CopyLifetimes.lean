/-
The life of the copies of one operator. `Part.copies_fold_back`: the code that makes the arrays of copies runs to its end
when they are small enough to be allocated; wherever it does, and whatever is stored in the arrays afterwards, the code that
merges and frees them runs to its end too, and every destination holds its copies combined from the first to the last. With
neutral elements and nothing stored in between the destinations are as they were.

One copy and several are made, merged and freed by different branches of three conditionals, and an element is found by one
formula when it is copied and by another when it is merged. `Part.Ready` is what the branches of the first conditional
establish and those of the other two need, and `Copies.merged_element` is what the two formulas have in common.
-/
import GpuHistogram.Proofs.Merging
import GpuHistogram.Proofs.Setting

namespace GpuHistogram

open Machine

variable {f : Form} {L : LaunchSpec → List Stmt → Exec Unit} {c : Context} {s t u : State} {k : ℕ} {R A : List Name}

/-! ## From left to right -/

namespace Copies

variable {α : Type} {combine : α → α → α} {count size : ℕ}

theorem place_element {j : ℕ} (hj : j < size) (segment r : ℕ) :
    place count size (segment * size + j) r = (segment * count + r) * size + j := by
  have hdiv : (segment * size + j) / size = segment := by
    rw [Nat.mul_comm, Nat.mul_add_div (by omega), Nat.div_eq_of_lt hj, Nat.add_zero]
  have hmod : (segment * size + j) % size = j := by rw [Nat.mul_comm, Nat.mul_add_mod, Nat.mod_eq_of_lt hj]
  rw [place, hdiv, hmod]

theorem mergedUpTo_eq_foldl (T : ℕ → α) (i n : ℕ) : mergedUpTo combine count size T i n =
    (List.range' 1 n).foldl (fun x r => combine x (T (place count size i r))) (T (place count size i 0)) := by
  induction n with
  | zero => rfl
  | succ n ih => rw [mergedUpTo, ih, List.range'_1_concat, List.foldl_append, Nat.add_comm 1 n]; rfl

/-- an element of a segment is merged from that element of the copies of the segment, from the first to the last -/
theorem merged_element {j : ℕ} (hj : j < size) (segment : ℕ) (T : ℕ → α) :
    merged combine count size T (segment * size + j) = (List.range' 1 (count - 1)).foldl
      (fun x r => combine x (T ((segment * count + r) * size + j))) (T (segment * count * size + j)) := by
  simp only [merged, mergedUpTo_eq_foldl, place_element hj, Nat.add_zero]

end Copies

/-! ## Making the arrays -/

/-- several copies of segments of a size can be counted, and their elements handled by groups of a size -/
structure CopiesFit (c : Context) (segments copies size group : ℕ) : Prop where
  rows : Word64.fits (segments * copies : ℕ) = true
  elements : Word64.fits (segments * copies * size : ℕ) = true
  threads : Word64.fits (segments * size + group : ℕ) = true
  segmentRounds : segments ≤ c.rounds
  copyRounds : copies ≤ c.rounds + 1

namespace Part

variable {q : Part} {p : Plan} {S Z C g : ℕ} {count : Expr} {combine : Tuple q.op.scalars → Tuple q.op.scalars → Tuple q.op.scalars}
  {neutral : Tuple q.op.scalars} {D : ℕ → Tuple q.op.scalars}

theorem Sized.sees {X : List Name} (hq : q.Sized k X s S Z) (ht : Sees k X A s t) : q.Sized k X t S Z :=
  ⟨hq.dests, hq.subs, hq.neutral, hq.segments.sees ht, hq.size.sees ht⟩

/-- several copies are only made if there is room for them -/
theorem room_of_allocate {X : List Name} {seg : Name} (hq : q.Sized k X s S Z) (hcount : Quantity k X s count C)
    (hrows : Word64.fits (S * C : ℕ) = true) (hfit : Word64.fits (S * C * Z : ℕ) = true)
    (hneLen : q.op.neutral.length = q.op.dests.length) (hone : C ≠ 1) (hdests : q.op.dests ≠ [])
    (hrun : execAll L c (f.block [q.subs.allocate count seg]) s = .ok () t) : S * C * Z < unallocatable := by
  have htotal : Quantity k X s (q.subs.segments * count * q.subs.size) (S * C * Z) :=
    (hq.segments.mul hcount hrows).mul hq.size hfit
  unfold Subhistograms.allocate at hrun
  rw [Runs.execAll_ifElse (Evals.eq (hcount.computes f c) Computes.one), if_neg (by simpa [Value.truth] using hone)] at hrun
  obtain ⟨x, l, hl⟩ : ∃ x l, (q.subs.subs.zip q.subs.dests).zip q.subs.neutral = x :: l := by
    refine List.exists_cons_of_length_pos ?_
    rw [List.length_zip, List.length_zip, hq.subs, hq.dests, hq.neutral, hneLen, Nat.min_self, Nat.min_self]
    exact List.length_pos_iff.2 hdests
  rw [hl, List.flatMap_cons] at hrun
  exact Runs.lt_of_alloc (htotal.computes f c) hrun

/-! ## Making, merging and freeing -/

/-- the names of an operator that are no variables of the host: its parameters, its arrays and those it reads -/
def reserved (q : Part) (A : List Name) : List Name := q.op.combiner.names ++ q.arrays ++ A

/-- an operator before its copies are made: the destinations hold the tuples `D` and share no buffers, nor do they share one
with an array that is read, the arrays of copies have names of their own, and the sizes and the neutral elements have values -/
structure Uncopied (q : Part) (p : Plan) (c : Context) (k : ℕ) (R A : List Name) (s : State) (count : Expr) (S Z C g : ℕ)
    (combine : Tuple q.op.scalars → Tuple q.op.scalars → Tuple q.op.scalars) (neutral : Tuple q.op.scalars)
    (D : ℕ → Tuple q.op.scalars) : Prop where
  host : c.thread = none
  sized : q.Sized k (q.reserved A) s S Z
  count : Quantity k (q.reserved A) s count C
  group : Quantity k (q.reserved A) s p.groupSize g
  counted : 0 < C
  threads : 0 < g
  admitted : (g : Int) ≤ c.limits.maxGroupSize
  fits : C ≠ 1 → CopiesFit c S C Z g
  combines : q.op.Combines k R A (q.reserved A) s combine
  neutralLength : q.op.neutral.length = q.op.dests.length
  neutral : ∀ f c t, Sees k (q.reserved A) A s t → AllEval f c t q.op.neutral neutral.cells
  nodup : q.subs.subs.Nodup
  own : ∀ n ∈ q.subs.subs, n ∉ q.destNames ∧ n ∉ A
  dests : s.memory.Table q.destNames q.op.scalars (S * Z) D
  reads : ∀ n ∈ A, (∃ i b, s.memory.Has n i b) ∧ s.memory.Apart q.destNames n

namespace Uncopied

theorem arrays_reserved {n : Name} (hn : n ∈ q.arrays) : n ∈ q.reserved A :=
  List.mem_append_left _ (List.mem_append_right _ hn)

variable (h : q.Uncopied p c k R A s count S Z C g combine neutral D)
include h

/-- the arrays that are read are none of those of the operator -/
theorem readable : Readable A q.destNames q.arrays s.memory := fun n hn => by
  obtain ⟨⟨i, b, hb⟩, hap⟩ := h.reads n hn
  refine ⟨⟨i, b, hb⟩, fun hm => ?_, hap⟩
  exact (List.mem_append.1 hm).elim (fun hs => (h.own n hs).2 hn) fun hd => hap n hd i hb.name hb.name

/-- the arrays of copies are made if there is room -/
theorem allocates (hroom : C ≠ 1 → q.op.dests ≠ [] → S * C * Z < unallocatable) :
    Runs f L c [(q.subs.emitAllocate count k).1] s fun t => Frame k s t ∧
      Memory.Frames q.destNames q.arrays s.memory t.memory ∧ q.Ready S Z C (Copies.spread C Z neutral D) t.memory := by
  have hfresh : (⟨"seg", some k⟩ : Name).Within k (k + 1) := Name.within_mk "seg" (Nat.le_refl k) (Nat.lt_succ_self k)
  refine (q.allocate_runs h.sized h.host h.count h.counted hfresh.not_before
    (fun hone hd => ⟨hroom hone hd, (h.fits hone).segmentRounds, (h.fits hone).rows⟩) h.neutralLength
    (fun t ht => h.neutral f c t ht) h.nodup h.own (fun n hn => (h.reads n hn).1) h.dests).mono ?_
  exact fun t ht => ⟨ht.1, ht.2.2⟩

/-- what is known wherever the arrays of copies have been made -/
theorem allocated (ht : execAll L c (f.block [(q.subs.emitAllocate count k).1]) s = .ok () t) : Frame k s t ∧
    Memory.Frames q.destNames q.arrays s.memory t.memory ∧ q.Ready S Z C (Copies.spread C Z neutral D) t.memory := by
  obtain ⟨t', ht', hq⟩ := h.allocates (f := f) (L := L) fun hone hd =>
    room_of_allocate h.sized h.count (h.fits hone).rows (h.fits hone).elements h.neutralLength hone hd ht
  rw [ht] at ht'
  cases ht'
  exact hq

/-- wherever the arrays of copies are ready, the copies are merged and the arrays freed -/
theorem finishes {k₁ : ℕ} {T : ℕ → Tuple q.op.scalars} (hk : k ≤ k₁) (hsees : Sees k (q.reserved A) A s u)
    (hready : q.Ready S Z C T u.memory) (hA : Readable A q.arrays q.arrays u.memory) :
    Runs f (Machine.launch c) c [(p.merge q count k₁).1, q.subs.release count] u fun v =>
      v.memory.Table q.destNames q.op.scalars (S * Z) (Copies.merged combine C Z T) ∧
      (C ≠ 1 → ∀ n ∈ q.subs.subs, v.memory.names.get? n = none) ∧
      (C = 1 → ∀ a ∈ q.subs.subs.zip q.destNames, v.memory.names.get? a.1 = v.memory.names.get? a.2) := by
  obtain ⟨ns, name, o, k₂, hmerge, -, haccs, hnd, hns⟩ := merge_spec p q count k₁
  rw [hmerge]
  refine Runs.cons ((mergeIf_runs (h.sized.sees hsees) (h.combines.sees hsees) (fun n hn => arrays_reserved hn) h.host
    (h.count.sees hsees) h.counted (h.group.sees hsees) h.threads h.admitted
    (fun hone => ⟨(h.fits hone).elements, (h.fits hone).threads, (h.fits hone).copyRounds⟩)
    (by rw [haccs, h.sized.dests]) hnd (fun n hn => (hns n hn).mono hk (Nat.le_refl k₂)) hready
    fun n hn => ⟨(hA n hn).1, (hA n hn).2.2.mono (List.subset_append_right _ _)⟩).mono ?_)
  rintro v ⟨hv, hkeeps, hT⟩
  have hbound (n : Name) (hn : n ∈ q.subs.subs) : v.memory.contains n = true := by
    obtain ⟨i, b, hb⟩ := hready.copies.has hn
    rw [hkeeps.contains_eq, hb.contains]
  have hcount : Quantity k (q.reserved A) v count C :=
    (h.count.sees hsees).keep (Nat.le_refl k) fun n _ => by rw [hv]
  refine (release_runs h.host (hcount.computes f c) h.nodup (fun n hn hm => (h.own n hm).1 hn) hbound hT).mono ?_
  rintro w ⟨-, -, -, hTw, hfreed, hsame⟩
  refine ⟨hTw, hfreed, fun hone a ha => ?_⟩
  obtain ⟨i, hi⟩ := List.mem_iff_getElem?.1 ha
  rw [List.getElem?_zip_eq_some] at hi
  rw [hsame hone, hkeeps.names]
  exact hready.same hone i a.1 a.2 hi.1 hi.2

end Uncopied

/-- **The copies of one operator.** If there is room, the arrays of copies are made. Once they are, and whatever tuples `T`
are stored in them then, the copies are merged and the arrays freed, and every element of a destination is what the copies of
its segment hold there, combined from the first to the last; several copies leave no name behind, and a single one stays the
destination. With neutral elements that are right identities nothing has changed unless something was stored. -/
theorem copies_fold_back (h : q.Uncopied p c k R A s count S Z C g combine neutral D) :
    ((C ≠ 1 → q.op.dests ≠ [] → S * C * Z < unallocatable) →
      Runs f (Machine.launch c) c [(q.subs.emitAllocate count k).1] s fun _ => True) ∧
    ∀ t, execAll (Machine.launch c) c (f.block [(q.subs.emitAllocate count k).1]) s = .ok () t → ∀ k₁ > k,
      (∀ (T : ℕ → Tuple q.op.scalars) u, Frame k t u → Memory.Keeps q.subs.subs t.memory u.memory →
        u.memory.Table q.subs.subs q.op.scalars (S * C * Z) T →
        Runs f (Machine.launch c) c [(p.merge q count k₁).1, q.subs.release count] u fun v =>
          (∃ V, v.memory.Table q.destNames q.op.scalars (S * Z) V ∧ ∀ segment < S, ∀ j < Z,
            V (segment * Z + j) = (List.range' 1 (C - 1)).foldl
              (fun x r => combine x (T ((segment * C + r) * Z + j))) (T (segment * C * Z + j))) ∧
          (C ≠ 1 → ∀ n ∈ q.subs.subs, v.memory.names.get? n = none) ∧
          (C = 1 → ∀ a ∈ q.subs.subs.zip q.destNames, v.memory.names.get? a.1 = v.memory.names.get? a.2)) ∧
      ((∀ x, combine x neutral = x) →
        Runs f (Machine.launch c) c [(p.merge q count k₁).1, q.subs.release count] t fun v =>
          v.memory.Table q.destNames q.op.scalars (S * Z) D) := by
  refine ⟨fun hroom => (h.allocates hroom).mono fun _ _ => trivial, fun t ht k₁ hk₁ => ?_⟩
  obtain ⟨hframe, hframes, hready⟩ := h.allocated ht
  have hA := h.readable.frames hframes
  have hsees : Sees k (q.reserved A) A s t := h.readable.sees hframe hframes
  refine ⟨fun T u hu hkeeps hT => ?_, fun hid => (h.finishes hk₁.le hsees hready hA).mono fun v hv => ?_⟩
  · have hapart (n : Name) (hn : n ∈ A) : t.memory.Apart q.subs.subs n := (hA n hn).2.2.mono (List.subset_append_left _ _)
    refine (h.finishes hk₁.le (hsees.trans ⟨fun n hn _ => hu n hn, fun n hn i => (hapart n hn).read_eq hkeeps i⟩ (Nat.le_refl k))
      (hready.keeps hkeeps hT hready.apart) (fun n hn => ?_)).mono fun v hv =>
        ⟨⟨_, hv.1, fun segment _ j hj => Copies.merged_element hj segment T⟩, hv.2⟩
    obtain ⟨⟨i, b, hb⟩, hW, hap⟩ := hA n hn
    exact ⟨⟨i, b, hkeeps.has hb (hapart n hn)⟩, hW, hap.keeps hkeeps⟩
  · refine hv.1.congr fun a ha => Copies.merged_spread hid (Nat.pos_of_mul_pos_left (Nat.zero_lt_of_lt ha)) h.counted D a

/-- the greatest values of two segments, in three copies of histograms with one bucket -/
def peaksPart : Part where
  op := Histogram.peaks.operators.head (by decide)
  contribution := { bucket := 0, values := [] }
  width := 1
  bucketSize := 1
  subs :=
    { dests := [⟨.plain "greatest", .i64⟩]
      subs := [.plain "copies"]
      neutral := [.i64 Word64.least]
      segments := .i64 2
      size := 1 }

/-- the host, and groups of four threads -/
def peaksHost : Context := ⟨{}, fun _ => none, 1000, none⟩

theorem peaks_uncopied : peaksPart.Uncopied { (default : Plan) with groupSize := .i64 4 } peaksHost 0 [] []
    (Histogram.peaksMachine 1000).state (.i64 3) 2 1 3 4 Histogram.greaterTuple (Histogram.constantTuple _ Word64.least)
    fun _ => Histogram.constantTuple _ (-7) where
  host := rfl
  sized := ⟨rfl, rfl, rfl, .literal (by decide), .literal (by decide)⟩
  count := .literal (by decide)
  group := .literal (by decide)
  counted := by decide
  threads := by decide
  admitted := by decide
  fits _ := ⟨by decide, by decide, by decide, by decide, by decide⟩
  combines :=
    { typed := ⟨rfl, rfl, rfl, by decide⟩
      names := fun n hn => by
        have hplain : ∀ n ∈ peaksPart.op.combiner.names, n.symbol = none := by decide
        refine ⟨fun j hj => ?_, List.mem_append_left _ (List.mem_append_left _ hn)⟩
        rw [hplain n hn] at hj
        cases hj
      reads := fun e he => by
        obtain rfl := List.mem_singleton.1 he
        exact over_op2.2 ⟨over_ofName.2 (by decide), over_ofName.2 (by decide)⟩
      scalars := fun n hn => by cases hn
      arrays := fun n hn => by cases hn
      yields := fun f c t _ x y hxy => Histogram.greater_computes hxy }
  neutralLength := rfl
  neutral _ _ _ _ := Histogram.least_computes
  nodup := by decide
  own := by decide
  dests := Histogram.peaks_given.dests peaksPart.op (List.mem_singleton_self _)
  reads n hn := by cases hn

/-- the two greatest values are as they were, and the copies are gone -/
theorem copies_fold_back_peaks : ∃ t,
    execAll (Machine.launch peaksHost) peaksHost (Form.folded.block [(peaksPart.subs.emitAllocate (.i64 3) 0).1])
      (Histogram.peaksMachine 1000).state = .ok () t ∧
    let code := [(Plan.merge { (default : Plan) with groupSize := .i64 4 } peaksPart (.i64 3) 1).1,
      peaksPart.subs.release (.i64 3)]
    (Runs .folded (Machine.launch peaksHost) peaksHost code t fun v => v.memory.names.get? (.plain "copies") = none) ∧
      Runs .folded (Machine.launch peaksHost) peaksHost code t fun v =>
        v.memory.Table [.plain "greatest"] [.i64] 2 fun _ => Histogram.constantTuple [.i64] (-7) := by
  obtain ⟨hmade, hfolded⟩ := copies_fold_back (f := .folded) peaks_uncopied
  obtain ⟨t, ht, -⟩ := hmade fun _ _ => by decide
  obtain ⟨hstored, hunchanged⟩ := hfolded t ht 1 (by decide)
  obtain ⟨-, -, hready⟩ := peaks_uncopied.allocated ht
  refine ⟨t, ht, (hstored _ t (.refl 0 t) (.refl _ _) hready.copies).mono fun v hv => ?_,
    hunchanged Histogram.greaterTuple_commutes.neutral⟩
  exact hv.2.1 (by decide) _ (List.mem_singleton_self _)

end Part

end GpuHistogram
