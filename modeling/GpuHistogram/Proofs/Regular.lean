/-
The histograms whose code is shown to be right. `Histogram.Regular` says what has to hold of their text: the counts fit,
there are no statements in bodies, the expressions have the types of the destinations and read nothing but indices,
variables of the host and arrays that are not written. `Histogram.HasValues` says what has to hold where the code starts to
run: every expression has a value, the same when it is folded; `Histogram.Evaluates` says that in addition tuples are combined
commutatively.

From the first two follows what expressions mean wherever generated code evaluates them (`HasValues.means`).
-/
import GpuHistogram.Proofs.Copies
import GpuHistogram.Proofs.Meaning

namespace GpuHistogram

open Machine

/-- the expression reads some variables and arrays and asks for nothing else -/
def Expr.ReadsOnly (e : Expr) (scalars arrays : List Name) : Prop :=
  e.isClosed = true ∧ e.Over (· ∈ scalars) (· ∈ arrays)

/-- the expression is a 64-bit literal, or a 64-bit variable of the host, with a value that is no negative number -/
def Expr.IsSize (s : State) (R : List Name) (e : Expr) (a : ℕ) : Prop :=
  Word64.fits (a : Int) = true ∧
    ((∃ o, e = .int a .i64 o) ∨ ∃ n o, e = .var n .i64 o ∧ n ∈ R ∧ s.vars.get? n = some (.word a))

namespace Histogram

/-- the arrays that results go to -/
def destNames (h : Histogram) : List Name := h.operators.flatMap fun op => op.dests.map (·.name)

/-- the names of the arrays that map results go to -/
def mapNames (h : Histogram) : List Name := h.maps.map fun m => m.dest.name

/-- the names of a histogram that reads the variables `R` and the arrays `A` -/
def names (h : Histogram) (R A : List Name) : List Name :=
  h.locals ++ (h.destNames ++ h.mapNames ++ A) ++ R

/-- the operators with their contributions -/
def inputs (h : Histogram) : List (Operator × Contribution) := h.operators.zip h.contributions

/-- what has to hold of the text of a histogram that reads the variables `R` and the arrays `A` of the host; fresh names
are drawn from `k` on -/
structure Regular (h : Histogram) (k : ℕ) (R A : List Name) : Prop where
  valid : h.validate = .ok ()
  body : h.body = []
  combiner : ∀ op ∈ h.operators, op.combiner.body = []
  params : ∀ op ∈ h.operators, op.combiner.params.map (·.2) = op.scalars ++ op.scalars
  results : ∀ op ∈ h.operators, op.combiner.results.map (·.ty) = op.scalars.map .scalar
  neutral : ∀ op ∈ h.operators, op.neutral.map (·.ty) = op.scalars.map .scalar
  values : ∀ x ∈ h.inputs, x.2.values.map (·.ty) = x.1.scalars.map .scalar
  integers : ∀ op ∈ h.operators, ∀ sc ∈ op.scalars, sc.isFloat = false
  distinct : (h.names R A).Nodup
  before : ∀ n ∈ h.names R A, n.Before k
  readsBucket : ∀ x ∈ h.inputs, x.2.bucket.ReadsOnly (h.indexNames ++ R) A
  readsValues : ∀ x ∈ h.inputs, ∀ e ∈ x.2.values, e.ReadsOnly (h.indexNames ++ x.1.bucketIndices ++ R) A
  readsMaps : ∀ m ∈ h.maps, m.value.ReadsOnly (h.indexNames ++ R) A
  readsResults : ∀ op ∈ h.operators, ∀ e ∈ op.combiner.results, e.ReadsOnly (op.combiner.names ++ R) A
  readsNeutral : ∀ op ∈ h.operators, ∀ e ∈ op.neutral, e.ReadsOnly R A

/-- an operator that receives `n` values has no defect exactly if its counts fit together -/
theorem operator_defect?_eq_none_iff {op : Operator} {i n : ℕ} : op.defect? i n = none ↔ op.neutral.length = op.dests.length ∧
    op.combiner.params.length = 2 * op.dests.length ∧ op.combiner.results.length = op.dests.length ∧
    n = op.dests.length ∧ op.bucketIndices.length = op.shape.length := by
  unfold Operator.defect?
  dsimp only
  split_ifs with h1 h2 h3 h4
  · exact iff_of_false nofun fun h => h1 h.1
  · exact iff_of_false nofun fun h => h2.elim (absurd h.2.1) (absurd h.2.2.1)
  · exact iff_of_false nofun fun h => h3 h.2.2.2.1
  · exact iff_of_false nofun fun h => h4 h.2.2.2.2
  · simp only [not_not, not_or] at h1 h2 h3 h4
    exact iff_of_true rfl ⟨h1, h2.1, h2.2, h3, h4⟩

theorem operatorDefect?_eq_none_iff {l : List (Operator × Contribution)} {i : ℕ} : operatorDefect? i l = none ↔
    ∀ x ∈ l, x.1.neutral.length = x.1.dests.length ∧ x.1.combiner.params.length = 2 * x.1.dests.length ∧
      x.1.combiner.results.length = x.1.dests.length ∧ x.2.values.length = x.1.dests.length ∧
      x.1.bucketIndices.length = x.1.shape.length := by
  induction l generalizing i with
  | nil => simp [operatorDefect?]
  | cons x l ih =>
    rw [operatorDefect?, List.forall_mem_cons, ← operator_defect?_eq_none_iff (i := i), ← ih (i := i + 1)]
    cases x.1.defect? i x.2.values.length <;> simp

/-- a histogram is accepted exactly if its counts fit together -/
theorem validate_iff {h : Histogram} : h.validate = .ok () ↔ h.space ≠ [] ∧
    h.contributions.length = h.operators.length ∧ ∀ x ∈ h.inputs, x.1.neutral.length = x.1.dests.length ∧
      x.1.combiner.params.length = 2 * x.1.dests.length ∧ x.1.combiner.results.length = x.1.dests.length ∧
      x.2.values.length = x.1.dests.length ∧ x.1.bucketIndices.length = x.1.shape.length := by
  rw [validate_eq_ok_iff, inputs, ← operatorDefect?_eq_none_iff (i := 0)]
  unfold defect?
  split_ifs with h1 h2
  · exact iff_of_false nofun fun h => h.1 (List.isEmpty_iff.1 h1)
  · exact iff_of_false nofun fun h => h2 h.2.1
  · have hspace : h.space ≠ [] := fun h => h1 (List.isEmpty_iff.2 h)
    simp only [hspace, not_not.1 h2, ne_eq, not_false_eq_true, true_and]

theorem validate_ok {h : Histogram} (hv : h.validate = .ok ()) : h.space ≠ [] ∧
    h.contributions.length = h.operators.length ∧ ∀ x ∈ h.inputs, x.1.neutral.length = x.1.dests.length ∧
      x.1.combiner.params.length = 2 * x.1.dests.length ∧ x.1.combiner.results.length = x.1.dests.length ∧
      x.2.values.length = x.1.dests.length ∧ x.1.bucketIndices.length = x.1.shape.length := validate_iff.1 hv

namespace Regular

variable {h : Histogram} {k : ℕ} {R A : List Name} {op : Operator} {x : Operator × Contribution}

theorem contributions_length (hr : h.Regular k R A) : h.contributions.length = h.operators.length :=
  (validate_ok hr.valid).2.1

/-- every operator has a contribution -/
theorem exists_input (hr : h.Regular k R A) (hop : op ∈ h.operators) : ∃ c, (op, c) ∈ h.inputs := by
  obtain ⟨i, hi⟩ := List.mem_iff_getElem?.1 hop
  have hlt := (List.getElem?_eq_some_iff.1 hi).1
  exact ⟨h.contributions.get ⟨i, by rw [hr.contributions_length]; exact hlt⟩,
    List.mem_iff_getElem?.2 ⟨i, List.getElem?_zip_eq_some.2 ⟨hi, List.getElem?_eq_getElem _⟩⟩⟩

theorem op_mem (hx : x ∈ h.inputs) : x.1 ∈ h.operators := (List.of_mem_zip hx).1

theorem mem_locals (hop : op ∈ h.operators) {n : Name} (hn : n ∈ op.bucketIndices ++ op.combiner.names) : n ∈ h.locals :=
  List.mem_append_right _ (List.mem_flatMap.2 ⟨op, hop, hn⟩)

theorem locals_nodup (hr : h.Regular k R A) : h.locals.Nodup := hr.distinct.of_append_left.of_append_left

theorem indexNames_nodup (hr : h.Regular k R A) : h.indexNames.Nodup := hr.locals_nodup.of_append_left

theorem operator_nodup (hr : h.Regular k R A) (hop : op ∈ h.operators) :
    (op.bucketIndices ++ op.combiner.names).Nodup :=
  (List.nodup_flatMap.1 hr.locals_nodup.of_append_right).1 op hop

theorem dims (hr : h.Regular k R A) (hop : op ∈ h.operators) : op.bucketIndices.length = op.shape.length := by
  obtain ⟨c, hc⟩ := hr.exists_input hop
  exact ((validate_ok hr.valid).2.2 _ hc).2.2.2.2

/-- the combiner of an operator fits the tuples of its destinations -/
theorem typed (hr : h.Regular k R A) (hop : op ∈ h.operators) : op.combiner.Typed op.scalars where
  body := hr.combiner op hop
  params := hr.params op hop
  results := by simpa using congrArg List.length (hr.results op hop)
  nodup := (hr.operator_nodup hop).of_append_right

theorem ty_of_map {es : List Expr} {ss : List Scalar} (h : es.map (·.ty) = ss.map .scalar) {i : ℕ} {e : Expr} {sc : Scalar}
    (he : es[i]? = some e) (hs : ss[i]? = some sc) : e.ty = .scalar sc := by
  have hi : (es.map (·.ty))[i]? = (ss.map Ty.scalar)[i]? := by rw [h]
  rwa [List.getElem?_map, List.getElem?_map, he, hs, Option.map_some, Option.map_some, Option.some.injEq] at hi

theorem values_length (hr : h.Regular k R A) (hx : x ∈ h.inputs) : x.2.values.length = x.1.scalars.length := by
  simpa using congrArg List.length (hr.values x hx)

/-- the bucket indices and parameters of an operator are no indices of the space -/
theorem not_indexName (hr : h.Regular k R A) (hop : op ∈ h.operators) {n : Name}
    (hn : n ∈ op.bucketIndices ++ op.combiner.names) : n ∉ h.indexNames :=
  fun hm => List.disjoint_of_nodup_append hr.locals_nodup hm (List.mem_flatMap.2 ⟨op, hop, hn⟩)

theorem before_local (hr : h.Regular k R A) {n : Name} (hn : n ∈ h.locals) : n.Before k :=
  hr.before n (List.mem_append_left _ (List.mem_append_left _ hn))

/-- a variable that is read is neither a local name nor an array -/
theorem not_mem_of_read (hr : h.Regular k R A) {n : Name} (hn : n ∈ R) :
    n ∉ h.locals ++ (h.destNames ++ h.mapNames ++ A) :=
  fun hm => List.disjoint_of_nodup_append hr.distinct hm hn

end Regular

/-! ## Values -/

end Histogram

namespace Machine

/-- the state in which variables have values -/
def State.setAll (s : State) : List Name → List Value → State
  | n :: ns, v :: vs => (s.setAll ns vs).set n v
  | _, _ => s

theorem State.memory_setAll (s : State) (ns : List Name) (vs : List Value) : (s.setAll ns vs).memory = s.memory := by
  induction ns generalizing vs with
  | nil => rfl
  | cons n ns ih =>
    cases vs with
    | nil => rfl
    | cons v vs => exact ih vs

theorem State.launched_setAll (s : State) (ns : List Name) (vs : List Value) :
    (s.setAll ns vs).launched = s.launched := by
  induction ns generalizing vs with
  | nil => rfl
  | cons n ns ih =>
    cases vs with
    | nil => rfl
    | cons v vs => exact ih vs

theorem State.get?_setAll {s : State} {ns : List Name} {vs : List Value} {n : Name} (hn : n ∉ ns) :
    (s.setAll ns vs).vars.get? n = s.vars.get? n := by
  induction ns generalizing vs with
  | nil => rfl
  | cons m ns ih =>
    cases vs with
    | nil => rfl
    | cons v vs =>
      simp only [List.mem_cons, not_or] at hn
      rw [State.setAll, State.get?_set, if_neg (Ne.symm hn.1)]
      exact ih hn.2

theorem State.holds_setAll (s : State) {ns : List Name} (vs : List Value) (hnd : ns.Nodup) : Holds (s.setAll ns vs) ns vs := by
  induction ns generalizing vs with
  | nil => exact fun i n v hn => by cases hn
  | cons m ns ih =>
    rw [List.nodup_cons] at hnd
    cases vs with
    | nil => exact fun i n v _ hv => by cases hv
    | cons w vs =>
      intro i n v hn hv
      rw [State.setAll, State.get?_set]
      cases i with
      | zero =>
        cases hn
        cases hv
        exact if_pos rfl
      | succ i =>
        rw [if_neg fun he : m = n => hnd.1 (he ▸ List.mem_of_getElem? hn)]
        exact ih vs hnd.2 i n v hn hv

/-- a state that holds the values has those of `setAll` -/
theorem Holds.get?_setAll {s t : State} {ns : List Name} {vs : List Value} (h : Holds t ns vs)
    (hlen : ns.length = vs.length) {n : Name} (hn : n ∈ ns) : (s.setAll ns vs).vars.get? n = t.vars.get? n := by
  induction ns generalizing vs with
  | nil => cases hn
  | cons m ns ih =>
    cases vs with
    | nil => cases hlen
    | cons v vs =>
      rw [State.setAll, State.get?_set]
      split_ifs with hm
      · rw [← hm, h 0 m v rfl rfl]
      · exact ih (fun i m v => h (i + 1) m v) (by simpa using hlen) ((List.mem_cons.1 hn).resolve_left fun h => hm h.symm)

/-- what only reads some variables and arrays has one value wherever these are the same -/
theorem Evals.transfer {f : Form} {c c' : Context} {s t : State} {e : Expr} {v : Value} {R A : List Name}
    (h : Evals f c s e v) (he : e.ReadsOnly R A) (hR : ∀ n ∈ R, s.vars.get? n = t.vars.get? n)
    (hA : ∀ n ∈ A, ∀ i, s.memory.read n i = t.memory.read n i) : Evals f c' t e v := by
  unfold Evals at h ⊢
  rw [← h]
  exact (eval_congr (fun n hn => hR n (he.2.reads.1 n (f.reads_expr e _ hn)))
    (fun n hn i => hA n (he.2.reads.2 n (f.reads_expr e _ hn)) i) (.inl (f.isClosed_expr he.1))).symm

end Machine

namespace Histogram

/-- what has to hold where the code of a histogram starts to run: its expressions have the values that `M` gives, also
when they are folded -/
structure HasValues (h : Histogram) (M : Meaning) (c : Context) (s : State) (R : List Name) : Prop where
  segmentDims : List.Forall₂ (Expr.IsSize s R) (h.segmentDims.map (·.2)) M.segmentDims
  elements : ∀ x, h.elementDim? = some x → x.2.IsSize s R M.elements
  width : ∀ op ∈ h.operators, op.width.IsSize s R (M.width op)
  shape : ∀ op ∈ h.operators, List.Forall₂ (Expr.IsSize s R) op.shape (M.shape op)
  bucket : ∀ x ∈ h.inputs, ∀ e < M.total, Word64.fits (M.bucket x.2 e) = true ∧ ∀ f,
    Evals f c (s.setAll h.indexNames (words (M.indices e))) (x.2.bucket.castIfNeeded .i64) (.word (M.bucket x.2 e))
  value : ∀ x ∈ h.inputs, ∀ e < M.total, ∀ r < M.bucketSize x.1, ∀ f,
    AllEval f c ((s.setAll h.indexNames (words (M.indices e))).setAll x.1.bucketIndices (words (digits (M.shape x.1) r)))
      x.2.values (M.value x.1 x.2 e r).cells
  mapped : ∀ m ∈ h.maps, ∀ e < M.total, ∀ f,
    Evals f c (s.setAll h.indexNames (words (M.indices e))) m.value (M.mapped m e)
  combine : ∀ op ∈ h.operators, ∀ x y f,
    AllEval f c (s.setAll op.combiner.names (x.cells ++ y.cells)) op.combiner.results (M.combine op x y).cells
  neutral : ∀ op ∈ h.operators, ∀ f, AllEval f c s op.neutral (M.neutral op).cells

/-- the expressions have the values that `M` gives, and tuples are combined commutatively -/
structure Evaluates (h : Histogram) (M : Meaning) (c : Context) (s : State) (R : List Name) : Prop
    extends h.HasValues M c s R where
  commutes : ∀ op ∈ h.operators, Commutes (M.combine op) (M.neutral op)

variable {h : Histogram} {M : Meaning} {k : ℕ} {R A : List Name} {c : Context} {s : State}

theorem length_indices (he : h.HasValues M c s R) (hr : h.Regular k R A) (e : ℕ) :
    h.indexNames.length = (words (M.indices e)).length := by
  have hdims := he.segmentDims.length_eq
  have hne := (validate_ok hr.valid).1
  have hpos := List.length_pos_of_ne_nil hne
  simp only [List.length_map, segmentDims, List.length_dropLast] at hdims
  simp only [indexNames, List.length_map, words, Meaning.indices, List.length_append, length_digits, List.length_singleton]
  omega

/-- **Values.** Wherever the code sees the outside world as it was, the expressions have their values. -/
theorem HasValues.means (he : h.HasValues M c s R) (hr : h.Regular k R A) :
    h.Means M k (h.locals ++ (h.destNames ++ h.mapNames ++ A)) A s := by
  have hR {t : State} (ht : Sees k (h.locals ++ (h.destNames ++ h.mapNames ++ A)) A s t) {n : Name} (hn : n ∈ R) :
      t.vars.get? n = s.vars.get? n := ht.vars n (hr.before n (List.mem_append_right _ hn)) (hr.not_mem_of_read hn)
  have hlocal {n : Name} (hn : n ∈ R) (hl : n ∈ h.locals) : False := hr.not_mem_of_read hn (List.mem_append_left _ hl)
  have hindex {t : State} (ht : Sees k (h.locals ++ (h.destNames ++ h.mapNames ++ A)) A s t) {e : ℕ}
      (hvals : Holds t h.indexNames (words (M.indices e))) {n : Name} (hn : n ∈ h.indexNames ++ R) :
      (s.setAll h.indexNames (words (M.indices e))).vars.get? n = t.vars.get? n := by
    rcases List.mem_append.1 hn with hn | hn
    · exact hvals.get?_setAll (length_indices he hr e) hn
    · rw [State.get?_setAll fun hm => hlocal hn (List.mem_append_left _ hm), hR ht hn]
  have hcast {e : Expr} {V A : List Name} (he : e.ReadsOnly V A) : (e.castIfNeeded .i64).ReadsOnly V A := by
    unfold Expr.castIfNeeded
    split
    · exact he
    · exact he
  refine ⟨fun x hx e hlt f c t ht hvals => ?_, fun x hx e hlt r hr' f c t ht hvals hdigits i v y hv hy => ?_,
    fun m hm e hlt f c t ht hvals => ?_, fun op hop f c t ht x y hvals i e v hi hv => ?_,
    fun op hop f c t ht i e v hi hv => ?_⟩
  · obtain ⟨hfit, hval⟩ := he.bucket x hx e hlt
    exact ⟨(hval f).transfer (hcast (hr.readsBucket x hx)) (fun n hn => hindex ht hvals hn)
      (fun n hn i => by rw [State.memory_setAll, ht.arrays n hn]), hfit⟩
  · have hop : x.1 ∈ h.operators := Regular.op_mem hx
    refine (he.value x hx e hlt r hr' f i v y hv hy).transfer (hr.readsValues x hx v (List.mem_of_getElem? hv))
      (fun n hn => ?_) (fun n hn i => by rw [State.memory_setAll, State.memory_setAll, ht.arrays n hn])
    by_cases hb : n ∈ x.1.bucketIndices
    · refine hdigits.get?_setAll ?_ hb
      rw [words, List.length_map, length_digits, hr.dims hop]
      exact (he.shape x.1 hop).length_eq
    · rw [State.get?_setAll hb]
      refine hindex ht hvals ?_
      simp only [List.mem_append] at hn ⊢
      tauto
  · exact (he.mapped m hm e hlt f).transfer (hr.readsMaps m hm) (fun n hn => hindex ht hvals hn)
      (fun n hn i => by rw [State.memory_setAll, ht.arrays n hn])
  · refine (he.combine op hop x y f i e v hi hv).transfer (hr.readsResults op hop e (List.mem_of_getElem? hi)) (fun n hn => ?_)
      (fun n hn i => by rw [State.memory_setAll, ht.arrays n hn])
    have hlen : op.combiner.names.length = (x.cells ++ y.cells).length := by
      rw [x.length_append, Combiner.names, List.length_map, (hr.typed hop).length_params]
    rcases List.mem_append.1 hn with hn | hn
    · exact hvals.get?_setAll hlen hn
    · rw [State.get?_setAll fun hm => hlocal hn (Regular.mem_locals hop (List.mem_append_right _ hm)), hR ht hn]
  · exact (he.neutral op hop f i e v hi hv).transfer (hr.readsNeutral op hop e (List.mem_of_getElem? hi))
      (fun n hn => (hR ht hn).symm) (fun n hn i => (ht.arrays n hn i).symm)

end Histogram

end GpuHistogram
