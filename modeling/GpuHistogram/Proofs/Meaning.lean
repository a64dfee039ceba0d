/-
What a histogram means. `Meaning` gives numbers for its sizes and functions for its expressions; elements are numbered
through all segments, and so are the tuples of a bucket. `Histogram.Means` says that the expressions have these values
wherever the code sees the outside world as it was (`Sees`) and the indices have the values that belong to the numbers.
-/
import GpuHistogram.Histogram.Basic
import GpuHistogram.Proofs.Layout

namespace GpuHistogram

namespace Histogram

/-- numbers for the sizes and functions for the expressions of a histogram -/
structure Meaning where
  /-- the sizes of the dimensions of the segments -/
  segmentDims : List ℕ
  /-- the number of elements of a segment -/
  elements : ℕ
  width : Operator → ℕ
  shape : Operator → List ℕ
  combine : (op : Operator) → Tuple op.scalars → Tuple op.scalars → Tuple op.scalars
  neutral : (op : Operator) → Tuple op.scalars
  /-- the bucket that an element goes to -/
  bucket : Contribution → ℕ → Int
  /-- the tuple of an element for a place in the bucket -/
  value : (op : Operator) → Contribution → ℕ → ℕ → Tuple op.scalars
  /-- the map result of an element -/
  mapped : MapOutput → ℕ → Value

namespace Meaning

variable (M : Meaning)

def segments : ℕ := M.segmentDims.prod

/-- the number of elements of all segments -/
def total : ℕ := M.segments * M.elements

/-- the indices of an element -/
def indices (e : ℕ) : List ℕ := digits M.segmentDims (e / M.elements) ++ [e % M.elements]

/-- the number of tuples in a bucket -/
def bucketSize (op : Operator) : ℕ := (M.shape op).prod

/-- the number of tuples in a histogram -/
def size (op : Operator) : ℕ := M.width op * M.bucketSize op

/-- what an element brings for a place in the histogram of its segment -/
def brings (op : Operator) (c : Contribution) (e j : ℕ) : Option (Tuple op.scalars) :=
  if M.bucket c e = (j / M.bucketSize op : ℕ) then some (M.value op c e (j % M.bucketSize op)) else none

/-- the elements below `n` that belong to the segment of a place and go to its bucket -/
def reaching (op : Operator) (c : Contribution) (i n : ℕ) : List ℕ :=
  (List.range n).filter fun e =>
    e / M.elements = i / M.size op ∧ M.bucket c e = (i % M.size op / M.bucketSize op : ℕ)

/-- the tuple that there was at a place, combined with the values of the elements below `n` that go there -/
def gathered (op : Operator) (c : Contribution) (prior : ℕ → Tuple op.scalars) (i n : ℕ) : Tuple op.scalars :=
  (M.reaching op c i n).foldl (fun x e => M.combine op x (M.value op c e (i % M.size op % M.bucketSize op))) (prior i)

variable {op : Operator} {c : Contribution} {prior : ℕ → Tuple op.scalars}

theorem gathered_zero (i : ℕ) : M.gathered op c prior i 0 = prior i := rfl

/-- one more element -/
theorem gathered_succ (i n : ℕ) : M.gathered op c prior i (n + 1) =
    if n / M.elements = i / M.size op then
      (M.brings op c n (i % M.size op)).elim (M.gathered op c prior i n) (M.combine op (M.gathered op c prior i n))
    else M.gathered op c prior i n := by
  unfold gathered reaching
  rw [List.range_succ, List.filter_append, List.foldl_append]
  by_cases hseg : n / M.elements = i / M.size op
  · rw [if_pos hseg, brings]
    by_cases hb : M.bucket c n = (i % M.size op / M.bucketSize op : ℕ)
    · rw [if_pos hb, Option.elim_some, List.filter_singleton]
      simp only [hseg, hb, and_self, decide_true, cond_true, List.foldl_cons, List.foldl_nil]
    · rw [if_neg hb, Option.elim_none, List.filter_singleton]
      simp only [hseg, hb, and_false, decide_false, cond_false, List.foldl_nil]
  · rw [if_neg hseg, List.filter_singleton]
    simp only [hseg, false_and, decide_false, cond_false, List.foldl_nil]

end Meaning

/-- the names of the indices of the space -/
def indexNames (h : Histogram) : List Name := h.space.map (·.1)

/-- the names that kernels define for themselves: indices and parameters -/
def locals (h : Histogram) : List Name :=
  h.indexNames ++ h.operators.flatMap fun op => op.bucketIndices ++ op.combiner.names

end Histogram

namespace Machine

/-- the outside world is seen as it was: the variables there were before `k`, but for `X`, and the arrays `A` -/
structure Sees (k : ℕ) (X A : List Name) (s t : State) : Prop where
  vars : ∀ n : Name, n.Before k → n ∉ X → t.vars.get? n = s.vars.get? n
  arrays : ∀ n ∈ A, ∀ i, t.memory.read n i = s.memory.read n i

theorem Sees.keeps {k k' : ℕ} {X A V W : List Name} {s t u : State} (h : Sees k X A s t) (hk : Keeps V W t u)
    (hkk : k ≤ k') (hV : ∀ n ∈ V, n.Before k' → n ∈ X) (hW : ∀ n ∈ A, t.memory.Apart W n) : Sees k X A s u where
  vars := fun n hn hX => (hk.vars n fun hm => hX (hV n hm (hn.mono hkk))).trans (h.vars n hn hX)
  arrays := fun n hn i => ((hW n hn).read_eq hk.memory i).trans (h.arrays n hn i)

theorem Sees.refl (k : ℕ) (X A : List Name) (s : State) : Sees k X A s s := ⟨fun _ _ _ => rfl, fun _ _ _ => rfl⟩

theorem Sees.trans {k k' : ℕ} {X A : List Name} {s t u : State} (h : Sees k X A s t) (h' : Sees k' X A t u)
    (hk : k ≤ k') : Sees k X A s u :=
  ⟨fun n hn hX => (h'.vars n (hn.mono hk) hX).trans (h.vars n hn hX), fun n hn i =>
    (h'.arrays n hn i).trans (h.arrays n hn i)⟩

theorem Quantity.sees {k : ℕ} {X A : List Name} {s t : State} {e : Expr} {a : ℕ} (h : Quantity k X s e a)
    (ht : Sees k X A s t) : Quantity k X t e a :=
  h.keep (Nat.le_refl k) fun n hn => ht.vars n (h.scalars n hn).1 (h.scalars n hn).2

theorem Sizes.sees {k : ℕ} {X A : List Name} {s t : State} {es : List Expr} {ds : List ℕ} (h : Sizes k X s es ds)
    (ht : Sees k X A s t) : Sizes k X t es ds :=
  h.imp fun _ _ he => he.sees ht

end Machine

open Machine

/-- the expressions of a histogram have the values that its meaning gives -/
structure Histogram.Means (h : Histogram) (M : Histogram.Meaning) (k : ℕ) (X A : List Name) (s : State) : Prop where
  bucket : ∀ x ∈ h.operators.zip h.contributions, ∀ e < M.total, ∀ f c t, Sees k X A s t →
    Holds t h.indexNames (words (M.indices e)) →
    Evals f c t (x.2.bucket.castIfNeeded .i64) (.word (M.bucket x.2 e)) ∧ Word64.fits (M.bucket x.2 e) = true
  value : ∀ x ∈ h.operators.zip h.contributions, ∀ e < M.total, ∀ r < M.bucketSize x.1, ∀ f c t, Sees k X A s t →
    Holds t h.indexNames (words (M.indices e)) → Holds t x.1.bucketIndices (words (digits (M.shape x.1) r)) →
    AllEval f c t x.2.values (M.value x.1 x.2 e r).cells
  mapped : ∀ m ∈ h.maps, ∀ e < M.total, ∀ f c t, Sees k X A s t → Holds t h.indexNames (words (M.indices e)) →
    Evals f c t m.value (M.mapped m e)
  combine : ∀ op ∈ h.operators, ∀ f c t, Sees k X A s t → op.combiner.Yields f c t (M.combine op)
  neutral : ∀ op ∈ h.operators, ∀ f c t, Sees k X A s t → AllEval f c t op.neutral (M.neutral op).cells

/-- what expressions mean does not depend on how the outside world came about -/
theorem Histogram.Means.later {h : Histogram} {M : Histogram.Meaning} {k k' : ℕ} {X A : List Name} {s t : State}
    (hM : h.Means M k X A s) (hs : Sees k X A s t) (hk : k ≤ k') : h.Means M k' X A t where
  bucket := fun x hx e he f c u hu => hM.bucket x hx e he f c u (hs.trans hu hk)
  value := fun x hx e he r hr f c u hu => hM.value x hx e he r hr f c u (hs.trans hu hk)
  mapped := fun m hm e he f c u hu => hM.mapped m hm e he f c u (hs.trans hu hk)
  combine := fun op hop f c u hu => hM.combine op hop f c u (hs.trans hu hk)
  neutral := fun op hop f c u hu => hM.neutral op hop f c u (hs.trans hu hk)

end GpuHistogram
