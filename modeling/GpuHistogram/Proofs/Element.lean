/-
What the code for one element does. For every operator it computes the bucket and, unless that is out of range, updates
the tuples of the bucket in the order of their numbers (`bucketUpdate_runs`); for every map result it stores one value.

`element_runs` puts this together for any way of updating: from what an update does to the arrays of its own operator
follows what an element does to all arrays.
-/
import GpuHistogram.Histogram.Plan
import GpuHistogram.Proofs.Regular

namespace GpuHistogram

open Machine

variable {f : Form} {L : LaunchSpec → List Stmt → Exec Unit} {c : Context} {s t : State} {Q : State → Prop}
  {k k' : ℕ} {X A : List Name}

/-! ## One operator -/

theorem Operator.bucketDims_names {op : Operator} (h : op.bucketIndices.length = op.shape.length) :
    op.bucketDims.map (·.1) = op.bucketIndices := by
  rw [bucketDims, map_zip_fst (fun n : Name => n) h.le, List.map_id']

theorem Operator.bucketDims_sizes {op : Operator} (h : op.bucketIndices.length = op.shape.length) :
    op.bucketDims.map (·.2) = op.shape := by
  rw [bucketDims, map_zip_snd (fun e : Expr => e) h.ge, List.map_id']

theorem Operator.bucketLoops_eq (op : Operator) (body : List Stmt) : op.bucketLoops body = loops op.bucketDims body := rfl

/-- the update of one operator: the tuples of the bucket one after the other, or nothing -/
theorem bucketUpdate_runs {part : Part} {bucket : Name} {u : Stmt} {b : Int} {w : ℕ} {ds : List ℕ}
    (J : ℕ → Memory → Prop) (hc : c.thread.isSome = true)
    (hdims : part.op.bucketIndices.length = part.op.shape.length)
    (hb : Evals f c s (part.contribution.bucket.castIfNeeded .i64) (.word b)) (hfit : Word64.fits b = true)
    (hw : Quantity k X s part.width w)
    (hds : Sizes k X s part.op.shape ds) (hpos : ∀ d ∈ ds, 0 < d) (hlim : ∀ d ∈ ds, d ≤ c.rounds)
    (hX : ∀ n ∈ part.op.bucketIndices, n ∈ X) (hnd : part.op.bucketIndices.Nodup) (hfresh : ¬ bucket.Before k)
    (hbucket : bucket ∉ part.op.bucketIndices)
    (hu : ∀ n ∈ u.uses .sets, n ∉ part.op.bucketIndices ∧ n ≠ bucket ∧ (n.Before k → n ∈ X))
    (hstep : ∀ r t, r < ds.prod → 0 ≤ b → b < w →
      Keeps (bucket :: (part.op.bucketIndices ++ u.uses .sets)) (u.uses .stores) s t →
      t.vars.get? bucket = some (.word b) → Holds t part.op.bucketIndices (words (digits ds r)) → J r t.memory →
      Runs f L c [u] t fun t => J (r + 1) t.memory)
    (hs : J 0 s.memory)
    (hq : ∀ t, (if 0 ≤ b ∧ b < w then J ds.prod t.memory else J 0 t.memory) →
      Keeps (bucket :: (part.op.bucketIndices ++ u.uses .sets)) (u.uses .stores) s t → Q t) :
    Runs f L c (Plan.bucketUpdate part bucket u) s Q := by
  have hset : Keeps (bucket :: (part.op.bucketIndices ++ u.uses .sets)) (u.uses .stores) s (s.set bucket (.word b)) :=
    .set (List.mem_cons_self ..) _
  have hbv : (s.set bucket (.word b)).vars.get? bucket = some (.word b) := by
    rw [State.get?_set, if_pos rfl]
  have hw' : Quantity k X (s.set bucket (.word b)) part.width w :=
    hw.keeps (Keeps.set (List.mem_singleton_self _) _ (W := [])) fun n hn hbn =>
      absurd (List.mem_singleton.1 hn ▸ hbn) hfresh
  have hds' : Sizes k X (s.set bucket (.word b)) part.op.shape ds :=
    hds.keeps (Keeps.set (List.mem_singleton_self _) _ (W := [])) fun n hn hbn =>
      absurd (List.mem_singleton.1 hn ▸ hbn) hfresh
  have hname : Computes f c (s.set bucket (.word b)) (.ofName bucket) b := .ofName hbv hfit
  have hty : (part.contribution.bucket.castIfNeeded .i64).ty = .scalar .i64 := by
    unfold Expr.castIfNeeded
    split
    · assumption
    · rfl
  unfold Plan.bucketUpdate
  refine Runs.bind hty hb (Value.fits_word (Scalar.wrap_i64 hfit)) ?_
  have hcond := (Evals.ge hname .zero).and fun _ => Evals.lt hname (hw'.computes f c)
  refine Runs.ifThen hcond (fun hr => ?_) fun hr => ?_
  · simp only [Bool.and_eq_true, decide_eq_true_eq] at hr
    rw [Operator.bucketLoops_eq]
    have hsets : blockSets [u] = u.uses .sets := by simp
    have hstores : blockStores [u] = u.uses .stores := by simp
    refine loops_runs (fun r t => J r t.memory) hc part.op.bucketDims ds
      (by rw [part.op.bucketDims_sizes hdims]; exact hds') hpos hlim (by rwa [part.op.bucketDims_names hdims])
      (by rwa [part.op.bucketDims_names hdims]) ?_ (fun _ _ _ _ _ h => h) 0 ?_ hs ?_
    · intro n hn
      rw [hsets] at hn
      rw [part.op.bucketDims_names hdims]
      exact ⟨(hu n hn).1, (hu n hn).2.2⟩
    · intro r t hlt ht hvals hJ
      rw [part.op.bucketDims_names hdims, hsets, hstores] at ht
      rw [part.op.bucketDims_names hdims] at hvals
      rw [zero_add] at hJ ⊢
      refine hstep r t hlt hr.1 hr.2 (hset.trans (ht.mono (List.subset_cons_self _ _) (List.Subset.refl _))) ?_ hvals hJ
      rw [ht.vars bucket, hbv]
      exact fun hm => (List.mem_append.1 hm).elim hbucket fun hm => (hu bucket hm).2.1 rfl
    · intro t hJ ht
      rw [part.op.bucketDims_names hdims, hsets, hstores] at ht
      rw [zero_add] at hJ
      refine hq t ?_ (hset.trans (ht.mono (List.subset_cons_self _ _) (List.Subset.refl _)))
      rwa [if_pos hr]
  · refine hq _ ?_ hset
    rw [if_neg]
    · exact hs
    · simpa using hr

/-! ## All operators -/

section Bucketed

variable {α : Type} {update : Part → α → Expr → Gen Stmt}

/-- the variable for the bucket when the symbol is the next unused one -/
def bucketName (k : ℕ) : Name := ⟨"bucket", some k⟩

/-- the code for the buckets of operators, with the symbols that their variables are drawn from -/
inductive Bucketed (update : Part → α → Expr → Gen Stmt) : List (Part × α) → ℕ → List Stmt → ℕ → Prop where
  | nil (k : ℕ) : Bucketed update [] k [] k
  | cons {q : Part × α} {rest : List (Part × α)} {k k₁ k₂ : ℕ} {u : Stmt} {l : List Stmt}
    (hu : update q.1 q.2 (.ofName (bucketName k)) (k + 1) = some (u, k₁)) (hk : k < k₁)
    (h : Bucketed update rest k₁ l k₂) : Bucketed update (q :: rest) k (Plan.bucketUpdate q.1 (bucketName k) u ++ l) k₂

theorem Bucketed.le {parts : List (Part × α)} {l : List Stmt} (h : Bucketed update parts k l k') : k ≤ k' := by
  induction h with
  | nil => exact Nat.le_refl _
  | cons hu hk h ih => omega

theorem bucketUpdates_spec (parts : List (Part × α)) (k : ℕ)
    (h : ∀ q ∈ parts, ∀ j, k ≤ j → ∃ u k', update q.1 q.2 (.ofName (bucketName j)) (j + 1) = some (u, k') ∧ j < k') :
    ∃ l k', Plan.bucketUpdates update parts k = some (l, k') ∧ Bucketed update parts k l k' := by
  induction parts generalizing k with
  | nil => exact ⟨[], k, rfl, .nil k⟩
  | cons q rest ih =>
    obtain ⟨u, k₁, hu, hk⟩ := h q (List.mem_cons_self ..) k (Nat.le_refl k)
    obtain ⟨l, k₂, hl, hb⟩ := ih k₁ fun q' hq' j hj => h q' (List.mem_cons_of_mem q hq') j (by omega)
    refine ⟨_, k₂, ?_, .cons hu hk hb⟩
    obtain ⟨part, a⟩ := q
    rw [Plan.bucketUpdates]
    change (update part a (.ofName (bucketName k)) (k + 1)).bind (fun r =>
      (Plan.bucketUpdates update rest r.2).bind fun r' =>
        some (Plan.bucketUpdate part (bucketName k) r.1 ++ r'.1, r'.2)) = _
    rw [hu, Option.bind_some, hl, Option.bind_some]

theorem not_before_bucketName {i : ℕ} (h : k ≤ i) : ¬ (bucketName i).Before k :=
  fun hb => absurd (hb i rfl) (by omega)

theorem sets_bucketUpdate {part : Part} {bucket n : Name} {u : Stmt}
    (hn : n ∈ blockSets (Plan.bucketUpdate part bucket u)) :
    n = bucket ∨ n ∈ part.op.bucketIndices ∨ n ∈ u.uses .sets := by
  simp only [Plan.bucketUpdate, Operator.bucketLoops_eq, blockSets, blockUses_cons, blockUses_nil, Stmt.bind, Stmt.ifThen,
    Stmt.uses, Use.among, List.append_nil, List.nil_append, List.mem_append, List.mem_singleton] at hn
  rcases hn with rfl | hn
  · exact .inl rfl
  · rcases mem_sets_loops.1 hn with hn | hn
    · obtain ⟨a, ha, rfl⟩ := List.mem_map.1 hn
      exact .inr (.inl (List.of_mem_zip ha).1)
    · exact .inr (.inr (by simpa using hn))

theorem stores_bucketUpdate (part : Part) (bucket : Name) (u : Stmt) :
    blockStores (Plan.bucketUpdate part bucket u) = u.uses .stores := by
  have h := stores_loops part.op.bucketDims [u]
  simp only [blockStores, blockUses_cons, blockUses_nil, List.append_nil] at h
  simp [Plan.bucketUpdate, Operator.bucketLoops_eq, blockStores, Stmt.bind, Stmt.ifThen, Stmt.uses, Use.among, h]

theorem Bucketed.stores {parts : List (Part × α)} {l : List Stmt} {j : ℕ} (h : Bucketed update parts j l k') (hkj : k ≤ j)
    (arr : Part × α → List Name) (extra : List Name)
    (hstores : ∀ q ∈ parts, ∀ i u k', k ≤ i → update q.1 q.2 (.ofName (bucketName i)) (i + 1) = some (u, k') →
      ∀ n ∈ u.uses .stores, n ∈ arr q ∨ n ∈ extra) {n : Name} (hn : n ∈ blockStores l) :
    n ∈ extra ∨ ∃ q ∈ parts, n ∈ arr q := by
  induction h with
  | nil => cases hn
  | @cons q rest j k₁ k₂ u l hu hk h ih =>
    simp only [blockStores, blockUses_append, List.mem_append] at hn
    rcases hn with hn | hn
    · have hn' : n ∈ u.uses .stores := stores_bucketUpdate q.1 (bucketName j) u ▸ hn
      exact (hstores q (List.mem_cons_self ..) j u k₁ hkj hu n hn').elim
        (fun h => .inr ⟨q, List.mem_cons_self .., h⟩) .inl
    · refine (ih (by omega) (fun q' h => hstores q' (List.mem_cons_of_mem q h)) hn).imp_right fun h => ?_
      obtain ⟨q', h, h'⟩ := h
      exact ⟨q', List.mem_cons_of_mem q h, h'⟩

theorem Bucketed.sets {parts : List (Part × α)} {l : List Stmt} {j : ℕ} (h : Bucketed update parts j l k') (hkj : k ≤ j)
    (hsets : ∀ q ∈ parts, ∀ i u k', k ≤ i → update q.1 q.2 (.ofName (bucketName i)) (i + 1) = some (u, k') →
      ∀ n ∈ u.uses .sets, n.Before k → n ∈ q.1.op.bucketIndices ++ q.1.op.combiner.names)
    {n : Name} (hn : n ∈ blockSets l) (hb : n.Before k) :
    ∃ q ∈ parts, n ∈ q.1.op.bucketIndices ++ q.1.op.combiner.names := by
  induction h with
  | nil => cases hn
  | @cons q rest j k₁ k₂ u l hu hk h ih =>
    simp only [blockSets, blockUses_append, List.mem_append] at hn
    rcases hn with hn | hn
    · refine ⟨q, List.mem_cons_self .., ?_⟩
      rcases sets_bucketUpdate hn with rfl | hn | hn
      · exact absurd hb (not_before_bucketName hkj)
      · exact List.mem_append_left _ hn
      · exact hsets q (List.mem_cons_self ..) j u k₁ hkj hu n hn hb
    · obtain ⟨q', h, h'⟩ := ih (by omega) (fun q' h => hsets q' (List.mem_cons_of_mem q h)) hn
      exact ⟨q', List.mem_cons_of_mem q h, h'⟩

/-- what the update of an operator does to its own arrays `arr` and what it maintains, `G`, follows for all operators -/
theorem Bucketed.runs {parts : List (Part × α)} {l : List Stmt} {j : ℕ} (h : Bucketed update parts j l k') (hkj : k ≤ j)
    (hc : c.thread.isSome = true) (arr : Part × α → List Name) (extra : List Name) (E : State → Prop)
    (I I' : Part × α → Memory → Prop) (G : Memory → Prop)
    (hE : ∀ t u V W, E t → Keeps V W t u → (∀ n ∈ V, n.Before k → ∃ q ∈ parts, n ∈ q.1.op.bucketIndices ++ q.1.op.combiner.names) →
      (∀ n ∈ W, n ∈ extra ∨ ∃ q ∈ parts, n ∈ arr q) → E u)
    (hI : ∀ q ∈ parts, ∀ m m' W, Memory.Keeps W m m' → (∀ n ∈ arr q, m.Apart W n) → I q m → I q m')
    (hI' : ∀ q ∈ parts, ∀ m m' W, Memory.Keeps W m m' → (∀ n ∈ arr q, m.Apart W n) → I' q m → I' q m')
    (hap : parts.Pairwise fun q q' => ∀ n ∈ arr q', s.memory.Apart (arr q) n)
    (hextra : ∀ q ∈ parts, ∀ n ∈ arr q, s.memory.Apart extra n)
    (hsets : ∀ q ∈ parts, ∀ i u k', k ≤ i → update q.1 q.2 (.ofName (bucketName i)) (i + 1) = some (u, k') →
      ∀ n ∈ u.uses .sets, n.Before k → n ∈ q.1.op.bucketIndices ++ q.1.op.combiner.names)
    (hstores : ∀ q ∈ parts, ∀ i u k', k ≤ i → update q.1 q.2 (.ofName (bucketName i)) (i + 1) = some (u, k') →
      ∀ n ∈ u.uses .stores, n ∈ arr q ∨ n ∈ extra)
    (hstep : ∀ q ∈ parts, ∀ i u k' t, k ≤ i → update q.1 q.2 (.ofName (bucketName i)) (i + 1) = some (u, k') →
      E t → I q t.memory → G t.memory →
      Runs f L c (Plan.bucketUpdate q.1 (bucketName i) u) t fun t => I' q t.memory ∧ G t.memory)
    (hs : E s) (hIs : ∀ q ∈ parts, I q s.memory) (hG : G s.memory)
    (hq : ∀ t, E t → (∀ q ∈ parts, I' q t.memory) → G t.memory → Q t) : Runs f L c l s Q := by
  induction h generalizing s Q with
  | nil j => exact Runs.nil (hq s hs (fun q hq' => absurd hq' List.not_mem_nil) hG)
  | @cons q rest j k₁ k₂ u l hu hk h ih =>
    have hqin : q ∈ q :: rest := List.mem_cons_self ..
    have hin {q' : Part × α} (h : q' ∈ rest) : q' ∈ q :: rest := List.mem_cons_of_mem q h
    rw [List.pairwise_cons] at hap
    refine Runs.append (((hstep q hqin j u k₁ s hkj hu hs (hIs q hqin) hG).keeps hc).mono ?_)
    rintro t ⟨⟨hI't, hGt⟩, ht⟩
    rw [stores_bucketUpdate] at ht
    have hEt : E t := by
      refine hE s t _ _ hs ht (fun n hn hb => ⟨q, hqin, ?_⟩) fun n hn => ?_
      · rcases sets_bucketUpdate hn with rfl | hn | hn
        · exact absurd hb (not_before_bucketName hkj)
        · exact List.mem_append_left _ hn
        · exact hsets q hqin j u k₁ hkj hu n hn hb
      · exact (hstores q hqin j u k₁ hkj hu n hn).elim (fun h => .inr ⟨q, hqin, h⟩) .inl
    have hW {q' : Part × α} (hq' : q' ∈ rest) (n : Name) (hn : n ∈ arr q') : s.memory.Apart (u.uses .stores) n := by
      intro w hw
      rcases hstores q hqin j u k₁ hkj hu w hw with hw | hw
      · exact hap.1 q' hq' n hn w hw
      · exact hextra q' (hin hq') n hn w hw
    have hrest : Runs f L c l t fun u => E u ∧ (∀ q' ∈ rest, I' q' u.memory) ∧ G u.memory := by
      refine ih (by omega) (fun t u V W ht hk hV hW => hE t u V W ht hk
          (fun n hn hb => (hV n hn hb).imp fun q' h => ⟨hin h.1, h.2⟩)
          fun n hn => (hW n hn).imp_right fun ⟨q', h, h'⟩ => ⟨q', hin h, h'⟩)
        (fun q' h => hI q' (hin h)) (fun q' h => hI' q' (hin h))
        (hap.2.imp fun h n hn => (h n hn).keeps ht.memory) (fun q' h n hn => (hextra q' (hin h) n hn).keeps ht.memory)
        (fun q' h => hsets q' (hin h)) (fun q' h => hstores q' (hin h)) (fun q' h => hstep q' (hin h)) hEt
        (fun q' h => hI q' (hin h) _ _ _ ht.memory (hW h) (hIs q' (hin h))) hGt fun u hu hI'u hGu => ⟨hu, hI'u, hGu⟩
    refine (hrest.keeps hc).mono fun v ⟨⟨hEv, hI'v, hGv⟩, hv⟩ => hq v hEv (fun q' hq' => ?_) hGv
    rcases List.mem_cons.1 hq' with rfl | hq'
    · refine hI' q' hqin _ _ _ hv.memory (fun n hn w hw p hp hp' => ?_) hI't
      rw [ht.memory.names] at hp hp'
      rcases h.stores (k := k) (by omega) arr extra (fun q'' h => hstores q'' (hin h)) hw with hw | ⟨q'', hq'', hw⟩
      · exact hextra q' hqin n hn w hw p hp hp'
      · exact hap.1 q'' hq'' w hw n hn p hp' hp
    · exact hI'v q' hq'

end Bucketed

/-! ## One element -/

section Element

variable {α : Type} {update : Part → α → Expr → Gen Stmt} {h : Histogram} {M : Histogram.Meaning} {p : Plan}

/-- the code of an element: the indices, the map results and the updates -/
theorem element_spec {segment index size : Expr} {n : Name} (hn : p.hist.elementDim? = some (n, size))
    (hbody : p.hist.body = []) (parts : List (Part × α)) (k : ℕ)
    (hu : ∀ q ∈ parts, ∀ j, k ≤ j → ∃ u k', update q.1 q.2 (.ofName (bucketName j)) (j + 1) = some (u, k') ∧ j < k') :
    ∃ l k', p.element segment index parts update k =
      some (defineIndices segment p.segmentDims ++ [.bind n index] ++ p.mapStores (segment * p.elements + .ofName n) ++ l,
        k') ∧ Bucketed update parts k l k' := by
  obtain ⟨l, k', hl, hb⟩ := bucketUpdates_spec parts k hu
  refine ⟨l, k', ?_, hb⟩
  have hname : p.elementName k = (n, k) := by
    unfold Plan.elementName
    rw [hn]
    rfl
  unfold Plan.element
  change (let r := p.elementName k
    (Plan.bucketUpdates update parts r.2).bind fun r' => some
      (defineIndices segment p.segmentDims ++ [.bind r.1 index] ++ p.hist.body
        ++ p.mapStores (segment * p.elements + .ofName r.1) ++ r'.1, r'.2)) = _
  rw [hname]
  dsimp only
  rw [hl, hbody, List.append_nil]
  rfl

theorem Memory.Unaliased.apart {m : Memory} {l l' : List Name} (hun : m.Unaliased (l ++ l')) {n : Name} (hn : n ∈ l) :
    m.Apart l' n := by
  intro w hw q hq
  exact (List.pairwise_append.1 hun).2.2 n hn w hw q hq

theorem Memory.Unaliased.apart' {m : Memory} {l l' : List Name} (hun : m.Unaliased (l ++ l')) {n : Name} (hn : n ∈ l') :
    m.Apart l n := by
  intro w hw q hq hq'
  exact (List.pairwise_append.1 hun).2.2 w hw n hn q hq' hq

theorem Memory.Unaliased.right {m : Memory} {l l' : List Name} (hun : m.Unaliased (l ++ l')) : m.Unaliased l' :=
  (List.pairwise_append.1 hun).2.1

theorem Histogram.Meaning.indices_of_digits (M : Histogram.Meaning) {sg e : ℕ} (he : e < M.elements) :
    M.indices (sg * M.elements + e) = digits M.segmentDims sg ++ [e] := by
  have hpos : 0 < M.elements := by omega
  rw [indices, mul_comm, Nat.mul_add_div hpos, Nat.div_eq_of_lt he, add_zero, Nat.mul_add_mod, Nat.mod_eq_of_lt he]

/-- the indices of an element -/
theorem defineElement_runs {base : State} {segment index : Expr} {n : Name} {sg e : ℕ}
    (hdims : Sizes k X base (p.segmentDims.map (·.2)) M.segmentDims) (hpos : ∀ d ∈ M.segmentDims, 0 < d)
    (hfit : Word64.fits (M.total : ℕ) = true) (hnames : p.segmentDims.map (·.1) ++ [n] = h.indexNames)
    (hX : ∀ m ∈ h.indexNames, m ∈ X) (hnd : h.indexNames.Nodup) (hs : Sees k X A base s) (hsg : sg < M.segments)
    (he : e < M.elements) (hsegment : ∀ t, Keeps h.indexNames [] s t → Computes f c t segment sg)
    (hindex : ∀ t, Keeps h.indexNames [] s t → Computes f c t index e)
    (hq : ∀ t, Keeps h.indexNames [] s t → Holds t h.indexNames (words (M.indices (sg * M.elements + e))) →
      t.vars.get? n = some (.word e) → Q t) :
    Runs f L c (defineIndices segment p.segmentDims ++ [.bind n index]) s Q := by
  rw [← hnames] at hX hnd hsegment hindex hq
  rw [M.indices_of_digits he] at hq
  have hprod : Word64.fits (M.segmentDims.prod : ℕ) = true :=
    Word64.fits_le hfit (Nat.le_mul_of_pos_right _ (by omega : 0 < M.elements))
  have hsub : p.segmentDims.map (·.1) ⊆ p.segmentDims.map (·.1) ++ [n] := List.subset_append_left _ _
  refine Runs.append (defineIndices_runs p.segmentDims M.segmentDims
    (Sizes.steady (hdims.sees hs) fun m hm => hX m (hsub hm)) hpos hprod (List.Subset.refl _) hnd.of_append_left hsg
    (fun t ht => hsegment t (ht.mono hsub (List.Subset.refl _))) fun t ht hdigits => ?_)
  have htn := ht.mono hsub (List.Subset.refl _)
  have hn : n ∉ p.segmentDims.map (·.1) := fun hm => List.disjoint_of_nodup_append hnd hm (List.mem_singleton_self n)
  refine Runs.bindWord (hindex t htn) (Runs.nil ?_)
  refine hq _ (htn.trans (.set (List.mem_append_right _ (List.mem_singleton_self n)) _)) (fun i m v hm hv => ?_)
    (by rw [State.get?_set, if_pos rfl])
  have hlen : (p.segmentDims.map (·.1)).length = (words (digits M.segmentDims sg)).length := by
    simpa [words, length_digits] using hdims.length_eq
  rw [words, List.map_append] at hv
  rw [List.getElem?_append] at hm hv
  change (if i < (words (digits M.segmentDims sg)).length then _ else _) = _ at hv
  rw [← hlen] at hv
  split_ifs at hm hv with hi
  · rw [State.get?_set, if_neg]
    · exact hdigits i m v hm hv
    · rintro rfl
      exact hn (List.mem_of_getElem? hm)
  · obtain rfl : m = n := by simpa using List.mem_of_getElem? hm
    obtain rfl : v = .word e := by simpa using List.mem_of_getElem? hv
    rw [State.get?_set, if_pos rfl]

/-- the map results of an element -/
theorem mapStores_runs {base : State} {segment : Expr} {n : Name} {sg e : ℕ} {gm : ℕ → ℕ → Value} {len : ℕ → ℕ}
    (helements : Quantity k X base p.elements M.elements) (hfit : Word64.fits (M.total : ℕ) = true) (hp : p.hist = h)
    (hM : h.Means M k X A base) (hs : Sees k X A base s) (hsg : sg < M.segments) (he : e < M.elements)
    (hsegment : ∀ t, Keeps [] h.mapNames s t → Computes f c t segment sg) (hn : s.vars.get? n = some (.word e))
    (hvals : Holds s h.indexNames (words (M.indices (sg * M.elements + e))))
    (hmaps : ∀ (i : ℕ) mo, h.maps[i]? = some mo → s.memory.Column mo.dest.name mo.dest.elem (len i) (gm i))
    (hlen : ∀ i < h.maps.length, M.total ≤ len i) (hun : s.memory.Unaliased h.mapNames)
    (hA : ∀ m ∈ A, s.memory.Apart h.mapNames m)
    (hq : ∀ t, Keeps [] h.mapNames s t →
      (∀ (i : ℕ) mo, h.maps[i]? = some mo → t.memory.Column mo.dest.name mo.dest.elem (len i)
        (Function.update (gm i) (sg * M.elements + e) ((M.mapped mo (sg * M.elements + e)).convert mo.dest.elem))) →
      Q t) :
    Runs f L c (p.mapStores (segment * p.elements + .ofName n)) s Q := by
  have hnext : sg * M.elements + e < (sg + 1) * M.elements := by
    rw [add_mul, one_mul]
    omega
  have hlt : sg * M.elements + e < M.total := hnext.trans_le (Nat.mul_le_mul_right _ hsg)
  have hsees {t : State} (ht : Keeps [] h.mapNames s t) : Sees k X A base t :=
    hs.keeps ht (Nat.le_refl k) (fun _ hm => absurd hm List.not_mem_nil) hA
  unfold Plan.mapStores
  rw [hp]
  refine Runs.storeElements (fun m : MapOutput => m.dest.name) (fun m => m.value) (fun m => m.dest.elem) .device _
    (k := sg * M.elements + e) len h.maps (h.maps.map fun m => M.mapped m (sg * M.elements + e)) gm (by simp)
    (fun i hi => hlt.trans_le (hlen i hi)) hmaps hun ?_ ?_ ?_
  · intro t ht
    have hword : Computes f c t (.ofName n) e :=
      .ofName ((ht.vars n (by simp)).trans hn) (Word64.fits_le hfit (by omega))
    exact ((hsegment t ht).mulNat ((helements.sees (hsees ht)).computes f c) (Word64.fits_le hfit (by omega))).addNat hword
      (Word64.fits_le hfit hlt.le)
  · intro t ht i m v hm hv
    rw [List.getElem?_map, hm, Option.map_some, Option.some.injEq] at hv
    subst hv
    exact hM.mapped m (List.mem_of_getElem? hm) _ hlt f c t (hsees ht) (hvals.keeps ht fun _ _ hm => absurd hm List.not_mem_nil)
  · intro t ht hcols
    exact hq t ht fun i m hm => hcols i m _ hm (by rw [List.getElem?_map, hm]; rfl)

/-- **One element.** The map results of the element are stored, and every operator is updated. -/
theorem element_runs {base : State} {segment index : Expr} {n : Name} {sg e j : ℕ} {parts : List (Part × α)}
    {l : List Stmt} {gm : ℕ → ℕ → Value} {len : ℕ → ℕ} (hc : c.thread.isSome = true)
    -- the plan and the indices
    (hdims : Sizes k X base (p.segmentDims.map (·.2)) M.segmentDims) (hpos : ∀ d ∈ M.segmentDims, 0 < d)
    (helements : Quantity k X base p.elements M.elements) (hfit : Word64.fits (M.total : ℕ) = true) (hp : p.hist = h)
    (hnames : p.segmentDims.map (·.1) ++ [n] = h.indexNames) (hX : ∀ m ∈ h.indexNames, m ∈ X ∧ m.Before k)
    (hnd : h.indexNames.Nodup) (hM : h.Means M k X A base) (hs : Sees k X A base s) (hsg : sg < M.segments)
    (he : e < M.elements) (hsegment : ∀ t, Keeps h.indexNames h.mapNames s t → Computes f c t segment sg)
    (hindex : ∀ t, Keeps h.indexNames [] s t → Computes f c t index e)
    -- the map results
    (hmaps : ∀ (i : ℕ) mo, h.maps[i]? = some mo → s.memory.Column mo.dest.name mo.dest.elem (len i) (gm i))
    (hlen : ∀ i < h.maps.length, M.total ≤ len i)
    -- the operators
    (hb : Bucketed update parts j l k') (hkj : k ≤ j) (arr : Part × α → List Name) (extra : List Name)
    (I I' : Part × α → Memory → Prop) (G : Memory → Prop)
    (hun : s.memory.Unaliased (h.mapNames ++ extra ++ parts.flatMap arr))
    (hA : ∀ m ∈ A, s.memory.Apart (h.mapNames ++ extra ++ parts.flatMap arr) m)
    (hlocals : ∀ q ∈ parts, ∀ m ∈ q.1.op.bucketIndices ++ q.1.op.combiner.names,
      m ∈ X ∧ m.Before k ∧ m ∉ h.indexNames)
    (hI : ∀ q ∈ parts, ∀ m m' W, Memory.Keeps W m m' → (∀ n ∈ arr q, m.Apart W n) → I q m → I q m')
    (hI' : ∀ q ∈ parts, ∀ m m' W, Memory.Keeps W m m' → (∀ n ∈ arr q, m.Apart W n) → I' q m → I' q m')
    (hGm : ∀ m m' W, Memory.Keeps W m m' → (∀ n ∈ extra, m.Apart W n) → G m → G m')
    (hsets : ∀ q ∈ parts, ∀ i u k', j ≤ i → update q.1 q.2 (.ofName (bucketName i)) (i + 1) = some (u, k') →
      ∀ n ∈ u.uses .sets, n.Before j → n ∈ q.1.op.bucketIndices ++ q.1.op.combiner.names)
    (hstores : ∀ q ∈ parts, ∀ i u k', j ≤ i → update q.1 q.2 (.ofName (bucketName i)) (i + 1) = some (u, k') →
      ∀ n ∈ u.uses .stores, n ∈ arr q ∨ n ∈ extra)
    (hstep : ∀ q ∈ parts, ∀ i u k' t, j ≤ i → update q.1 q.2 (.ofName (bucketName i)) (i + 1) = some (u, k') →
      Sees j X A s t → Holds t h.indexNames (words (M.indices (sg * M.elements + e))) →
      Memory.Keeps (h.mapNames ++ extra ++ parts.flatMap arr) s.memory t.memory → I q t.memory → G t.memory →
      Runs f L c (Plan.bucketUpdate q.1 (bucketName i) u) t fun t => I' q t.memory ∧ G t.memory)
    (hIs : ∀ q ∈ parts, I q s.memory) (hG : G s.memory)
    (hq : ∀ t, (∀ q ∈ parts, I' q t.memory) → G t.memory →
      (∀ (i : ℕ) mo, h.maps[i]? = some mo → t.memory.Column mo.dest.name mo.dest.elem (len i)
        (Function.update (gm i) (sg * M.elements + e) ((M.mapped mo (sg * M.elements + e)).convert mo.dest.elem))) →
      Q t) :
    Runs f L c (defineIndices segment p.segmentDims ++ [.bind n index]
      ++ p.mapStores (segment * p.elements + .ofName n) ++ l) s Q := by
  rw [List.append_assoc] at hun
  have hmapsUn : s.memory.Unaliased h.mapNames := (List.pairwise_append.1 hun).1
  have hmapsA : ∀ m ∈ A, s.memory.Apart h.mapNames m := fun m hm =>
    (hA m hm).mono fun w hw => by simp [hw]
  have hpartsA : ∀ m ∈ A, s.memory.Apart (extra ++ parts.flatMap arr) m := fun m hm =>
    (hA m hm).mono fun w hw => by simpa [or_assoc] using Or.inr hw
  have hpartsUn := hun.right
  refine Runs.append (Runs.append ?_)
  refine defineElement_runs hdims hpos hfit hnames (fun m hm => (hX m hm).1) hnd hs hsg he
    (fun t ht => hsegment t (ht.mono (List.Subset.refl _) (List.nil_subset _))) hindex fun t ht hvals hn => ?_
  have htj : Sees j X A s t :=
    (Sees.refl j X A s).keeps ht (Nat.le_refl j) (fun m hm _ => (hX m hm).1) fun _ _ _ hw => absurd hw List.not_mem_nil
  have hmem : t.memory.names = s.memory.names := ht.memory.names
  refine mapStores_runs helements hfit hp hM (hs.trans htj hkj) hsg he
    (fun u hu => hsegment u ((ht.mono (List.Subset.refl _) (List.nil_subset _)).trans
      (hu.mono (List.nil_subset _) (List.Subset.refl _)))) hn hvals
    (fun i mo hm => (hmaps i mo hm).keeps ht.memory fun _ hw => absurd hw List.not_mem_nil) hlen
    (by rw [Memory.Unaliased, hmem]; exact hmapsUn) (fun m hm => (hmapsA m hm).keeps ht.memory) fun u hu hcols => ?_
  have hsu : Keeps h.indexNames h.mapNames s u :=
    (ht.mono (List.Subset.refl _) (List.nil_subset _)).trans (hu.mono (List.nil_subset _) (List.Subset.refl _))
  have hnames' : u.memory.names = s.memory.names := hsu.memory.names
  have hun' : u.memory.Unaliased (extra ++ parts.flatMap arr) := by rwa [Memory.Unaliased, hnames']
  have hsubset : extra ++ parts.flatMap arr ⊆ h.mapNames ++ extra ++ parts.flatMap arr := fun w hw => by
    simpa [or_assoc] using Or.inr hw
  have harr {q : Part × α} (hqin : q ∈ parts) {m : Name} (hm : m ∈ arr q) : m ∈ parts.flatMap arr :=
    List.mem_flatMap.2 ⟨q, hqin, hm⟩
  have hmapsApart {m : Name} (hm : m ∈ extra ++ parts.flatMap arr) : s.memory.Apart h.mapNames m := hun.apart' hm
  refine hb.runs (k := j) (Nat.le_refl j) hc arr extra (fun v => Sees j X A s v ∧
      Holds v h.indexNames (words (M.indices (sg * M.elements + e))) ∧
      Memory.Keeps (extra ++ parts.flatMap arr) u.memory v.memory) I I' G ?_ hI hI' ?_
    (fun q hqin m hm => hun'.apart' (harr hqin hm)) hsets hstores ?_ ?_ ?_ ?_ ?_
  · rintro v w V W ⟨hsees, hholds, hkeeps⟩ hvw hV hW
    have hW' : W ⊆ extra ++ parts.flatMap arr := fun m hm => by
      rcases hW m hm with hm | ⟨q, hqin, hm⟩
      · exact List.mem_append_left _ hm
      · exact List.mem_append_right _ (harr hqin hm)
    refine ⟨hsees.keeps hvw (Nat.le_refl j) (fun m hm hb => ?_) fun m hm => ?_, hholds.keeps hvw fun m hm hV' => ?_,
      hkeeps.trans (hvw.memory.mono hW')⟩
    · obtain ⟨q, hqin, hm⟩ := hV m hm hb
      exact (hlocals q hqin m hm).1
    · exact (((hpartsA m hm).mono hW').keeps hsu.memory).keeps hkeeps
    · obtain ⟨q, hqin, hm'⟩ := hV m hV' ((hX m hm).2.mono hkj)
      exact (hlocals q hqin m hm').2.2 hm
  · refine (List.pairwise_flatMap.1 hun'.right).2.imp fun h n hn w hw p hp hp' => h w hw n hn p hp' hp
  · rintro q hqin i x k'' v hi hx ⟨hsees, hholds, hkeeps⟩ hIv hGv
    exact hstep q hqin i x k'' v hi hx hsees hholds
      ((hsu.memory.mono fun w hw => by simp [hw]).trans (hkeeps.mono hsubset)) hIv hGv
  · exact ⟨htj.keeps hu (Nat.le_refl j) (fun _ hm => absurd hm List.not_mem_nil) fun m hm => (hmapsA m hm).keeps ht.memory,
      hvals.keeps hu (fun _ _ hm => absurd hm List.not_mem_nil), .refl _ _⟩
  · exact fun q hqin => hI q hqin _ _ _ hsu.memory (fun m hm => hmapsApart (List.mem_append_right _ (harr hqin hm)))
      (hIs q hqin)
  · exact hGm _ _ _ hsu.memory (fun m hm => hmapsApart (List.mem_append_left _ hm)) hG
  · rintro v ⟨-, -, hkeeps⟩ hI'v hGv
    refine hq v hI'v hGv fun i mo hm => (hcols i mo hm).keeps hkeeps ?_
    exact (hun.apart (List.mem_map_of_mem (List.mem_of_getElem? hm))).keeps hsu.memory

end Element

end GpuHistogram
