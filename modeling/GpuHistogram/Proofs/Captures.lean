/-
What the code of kernels takes from outside. If the expressions that it is made from are over some variables and arrays,
so is the code of an update, by whatever method (`IsUpdate.over`), and the code of an element (`element_over`).
-/
import GpuHistogram.Proofs.Element
import GpuHistogram.Proofs.Method

namespace GpuHistogram

open Machine

variable {V A : Name → Prop} {X : List Name} {k k' : ℕ}

/-! ## Updates -/

/-- the code that applies a combiner -/
theorem Combiner.apply_over {F : Combiner} (hF : F.body = []) {args : List Expr} {outs : List Name}
    (hargs : ∀ e ∈ args, e.Over V A) (hres : ∀ e ∈ F.results, e.Over (fun n => n ∈ F.names ∨ V n) A)
    (hlen : F.params.length ≤ args.length) (houts : ∀ n ∈ outs, V n) : (F.apply args outs).Over V A := by
  have hbinders : blockBinders ((F.params.zip args).map fun a => .bind a.1.1 (a.2.castIfNeeded a.1.2)) = F.names := by
    rw [blockBinders_binds, map_zip_fst (fun p : Name × Scalar => p.1) hlen]
    rfl
  change (Stmt.block ((F.params.zip args).map (fun a => .bind a.1.1 (a.2.castIfNeeded a.1.2)) ++ F.body
    ++ ((F.results.zip outs).zip F.params).map fun a => .store (.scalarVar a.1.2 a.2.2) a.1.1)).Over V A
  rw [hF, List.append_nil, over_block, blockOver_append, hbinders]
  refine ⟨blockOver_of_forall fun s hs => ?_, blockOver_of_forall fun s hs => ?_⟩
  · obtain ⟨a, ha, rfl⟩ := List.mem_map.1 hs
    exact over_bind.2 (over_castIfNeeded (hargs _ (List.of_mem_zip ha).2))
  · obtain ⟨a, ha, rfl⟩ := List.mem_map.1 hs
    have ha' := List.of_mem_zip (List.of_mem_zip ha).1
    exact over_store.2 ⟨over_scalarVar.2 (.inr (houts _ ha'.2)), hres _ ha'.1⟩

/-- the code that compares and swaps -/
theorem casLoop_over {ns : CasNames} {sc : Scalar} {sp : Space} {F : Combiner} {n : Name} {addr value : Expr}
    (hF : F.Typed [sc]) (haddr : addr.Over V A) (hvalue : value.Over V A)
    (hres : ∀ e ∈ F.results, e.Over (fun n => n ∈ F.names ∨ V n) A) (hn : A n) :
    blockOver V A (casLoop ns sc sp F n addr value) := by
  have happly {V' : Name → Prop} (hV : ∀ n, V n → V' n) (hx : V' ns.x) (hy : V' ns.y) :
      (F.apply [.scalarVar ns.x sc, .scalarVar ns.y sc] [ns.x]).Over V' A :=
    Combiner.apply_over hF.body (by simp [hx, hy]) (fun e he => (hres e he).mono (fun m => Or.imp_right (hV m)) fun _ h => h)
      (by simp [hF.length_params]) (by simp [hx])
  have hweak {V' : Name → Prop} (hV : ∀ n, V n → V' n) {e : Expr} (he : e.Over V A) : e.Over V' A := he.mono hV fun _ h => h
  simp only [casLoop, casAttempt, blockOver_cons, over_bind, binders_bind, over_sameBits, over_element, over_ofName,
    Stmt.Over, Stmt.binders, over_scalarVar, over_truth, over_truthVar, over_not, over_eq, over_updateTruth, over_updateVar,
    blockOver_nil, List.mem_singleton, true_or, or_true, and_true, true_and]
  exact ⟨haddr, hweak (fun _ => .inr) hvalue, hn, happly (by tauto) (by tauto) (by tauto), hn⟩

/-- the code under a lock -/
theorem lockedUpdate_over {ns : LockNames} {t : LockTable} {sp : Space} {op : Operator} {targets : List Name}
    {addr : Expr} {values : List Expr} (hF : op.combiner.Typed op.scalars) (haddr : addr.Over V A)
    (hvalues : ∀ e ∈ values, e.Over V A)
    (hres : ∀ e ∈ op.combiner.results, e.Over (fun n => n ∈ op.combiner.names ∨ V n) A) (htargets : ∀ n ∈ targets, A n)
    (ht : A t.name) (hcount : t.count.Over V A) (hlen : targets.length = op.scalars.length)
    (hxs : ns.xs.length = op.scalars.length) (hys : ns.ys.length = op.scalars.length)
    (hvlen : values.length = op.scalars.length) : blockOver V A (lockedUpdate ns t sp op targets addr values) := by
  have hweak {V' : Name → Prop} (hV : ∀ n, V n → V' n) {e : Expr} (he : e.Over V A) : e.Over V' A := he.mono hV fun _ h => h
  have happly {V' : Name → Prop} (hV : ∀ n, V n → V' n) (hxs' : ∀ x ∈ ns.xs, V' x) (hys' : ∀ y ∈ ns.ys, V' y) :
      (op.combiner.apply (((ns.xs ++ ns.ys).zip (op.scalars ++ op.scalars)).map fun a => .scalarVar a.1 a.2)
        ns.xs).Over V' A := by
    refine Combiner.apply_over hF.body (fun e he => ?_)
      (fun e he => (hres e he).mono (fun m => Or.imp_right (hV m)) fun _ h => h) (by simp [hF.length_params, hxs, hys]) hxs'
    obtain ⟨a, ha, rfl⟩ := List.mem_map.1 he
    exact over_scalarVar.2 ((List.mem_append.1 (List.of_mem_zip ha).1).elim (hxs' _) (hys' _))
  have hbindYs : blockBinders ((ns.ys.zip values).map fun a => .bind a.1 a.2) = ns.ys := by
    rw [blockBinders_binds, map_zip_fst (fun n : Name => n) (by omega), List.map_id']
  have hbindXs : blockBinders ((ns.xs.zip (targets.zip op.scalars)).map fun a =>
      .bind a.1 (.element a.2.1 a.2.2 sp (.ofName ns.idx))) = ns.xs := by
    rw [blockBinders_binds, map_zip_fst (fun n : Name => n) (by rw [List.length_zip]; omega), List.map_id']
  have hplace {a : Name × Name × Scalar} (ha : a ∈ ns.xs.zip (targets.zip op.scalars)) : A a.2.1 ∧ a.1 ∈ ns.xs :=
    ⟨htargets _ (List.of_mem_zip (List.of_mem_zip ha).2).1, (List.of_mem_zip ha).1⟩
  simp only [lockedUpdate, lockAttempt, criticalSection, blockOver_cons, blockOver_append, over_bind, binders_bind,
    over_ofName, over_ifThen, LockTable.hash, over_mod, over_literal, Stmt.Over, Stmt.binders, over_scalarVar, over_truth,
    over_truthVar, over_not, over_eq, over_updateTruth, blockOver_nil, blockBinders_append, blockBinders_cons,
    blockBinders_nil, hbindYs, hbindXs, List.mem_append, List.mem_singleton, List.append_nil, true_or, or_true, and_true,
    true_and]
  refine ⟨⟨haddr, blockOver_of_forall fun s hs => ?_⟩, hweak (by tauto) hcount, ht,
    ⟨⟨blockOver_of_forall fun s hs => ?_, happly (by tauto) (by tauto) (by tauto)⟩, blockOver_of_forall fun s hs => ?_⟩, ht⟩
  · obtain ⟨a, ha, rfl⟩ := List.mem_map.1 hs
    exact over_bind.2 (hweak (by tauto) (hvalues _ (List.of_mem_zip ha).2))
  · obtain ⟨a, ha, rfl⟩ := List.mem_map.1 hs
    exact over_bind.2 (over_element.2 ⟨(hplace ha).1, over_ofName.2 (by tauto)⟩)
  · obtain ⟨a, ha, rfl⟩ := List.mem_map.1 hs
    have hx := (hplace ha).2
    exact over_store.2 ⟨over_element.2 ⟨(hplace ha).1, over_ofName.2 (by tauto)⟩, over_scalarVar.2 (by tauto)⟩

theorem Operator.IsUpdate.over {op : Operator} {sp : Space} {targets : List Name} {addr : Expr} {values : List Expr}
    {method : UpdateMethod} {u : Stmt} {table : Option LockTable} (h : op.IsUpdate sp targets addr values k method u k')
    (hm : method.Suits op table) (hF : op.combiner.Typed op.scalars) (hlen : values.length = op.scalars.length)
    (htlen : targets.length = op.scalars.length) (haddr : addr.Over V A) (hvalues : ∀ e ∈ values, e.Over V A)
    (hres : ∀ e ∈ op.combiner.results, e.Over (fun n => n ∈ op.combiner.names ∨ V n) A) (htargets : ∀ n ∈ targets, A n)
    (hlocks : ∀ t, table = some t → A t.name ∧ t.count.Over V A) : u.Over V A := by
  cases h with
  | primitive hop hsc ht hv =>
    subst ht hv
    rw [over_block, primitiveUpdate, blockOver_cons]
    simp only [Stmt.Over, blockOver_nil, and_true]
    exact ⟨htargets _ (by simp), haddr, over_castIfNeeded (hvalues _ (by simp))⟩
  | compareSwap hop hsc ht hv hnd hns =>
    subst ht hv
    rw [hsc] at hF
    exact over_block.2 (casLoop_over hF haddr (hvalues _ (by simp)) hres (htargets _ (by simp)))
  | locked hys hxs hnd hns =>
    obtain ⟨ht, hcount⟩ := hlocks _ hm
    exact over_block.2 (lockedUpdate_over hF haddr hvalues hres htargets ht hcount htlen (hxs.trans hlen) (hys.trans hlen)
      hlen)

/-! ## Indices -/

theorem foldl_mul_over {es : List Expr} {e : Expr} (he : e.Over V A) (h : ∀ e ∈ es, e.Over V A) :
    (es.foldl (· * ·) e).Over V A := by
  induction es generalizing e with
  | nil => exact he
  | cons e' es ih =>
    exact ih (over_mul.2 ⟨he, h e' (List.mem_cons_self ..)⟩) fun x hx => h x (List.mem_cons_of_mem e' hx)

theorem product_over {es : List Expr} (h : ∀ e ∈ es, e.Over V A) : (Expr.product es).Over V A := by
  cases es with
  | nil => exact over_numeral
  | cons e es => exact foldl_mul_over (h e (List.mem_cons_self ..)) fun x hx => h x (List.mem_cons_of_mem e hx)

theorem defineIndicesRest_over {flat : Expr} {dims : List (Name × Expr)} (hflat : flat.Over V A)
    (hdims : ∀ e ∈ dims.map (·.2), e.Over V A) :
    blockOver V A (defineIndicesRest flat dims) ∧ blockBinders (defineIndicesRest flat dims) = dims.map (·.1) := by
  induction dims with
  | nil => exact ⟨blockOver_nil, blockBinders_nil⟩
  | cons x dims ih =>
    obtain ⟨n, size⟩ := x
    obtain ⟨hrest, hbinders⟩ := ih fun e he => hdims e (List.mem_cons_of_mem size he)
    rw [defineIndicesRest, blockOver_cons, blockBinders_cons, binders_bind, hbinders, over_bind, over_mod, over_div]
    refine ⟨⟨⟨⟨hflat, product_over fun e he => hdims e (List.mem_cons_of_mem size he)⟩, hdims _ (List.mem_cons_self ..)⟩, ?_⟩,
      rfl⟩
    exact blockOver_mono (fun _ h => h) hrest fun _ => .inr

/-- the definitions of indices -/
theorem defineIndices_over {flat : Expr} {dims : List (Name × Expr)} (hflat : flat.Over V A)
    (hdims : ∀ e ∈ dims.map (·.2), e.Over V A) :
    blockOver V A (defineIndices flat dims) ∧ blockBinders (defineIndices flat dims) = dims.map (·.1) := by
  cases dims with
  | nil => exact ⟨blockOver_nil, blockBinders_nil⟩
  | cons x dims =>
    obtain ⟨n, size⟩ := x
    have hdims' : ∀ e ∈ dims.map (·.2), e.Over V A := fun e he => hdims e (List.mem_cons_of_mem size he)
    obtain ⟨hrest, hbinders⟩ := defineIndicesRest_over hflat hdims'
    rw [defineIndices, blockOver_cons, blockBinders_cons, binders_bind, hbinders, over_bind, over_div]
    exact ⟨⟨⟨hflat, product_over hdims'⟩, blockOver_mono (fun _ h => h) hrest fun _ => .inr⟩, rfl⟩

theorem flatIndex_over {dims : List (Expr × Expr)} (h : ∀ x ∈ dims, x.1.Over V A ∧ x.2.Over V A) :
    (flatIndex dims).Over V A := by
  cases dims with
  | nil => exact over_numeral
  | cons x dims =>
    have hfold (dims : List (Expr × Expr)) (acc : Expr) (hacc : acc.Over V A) (h : ∀ x ∈ dims, x.1.Over V A ∧ x.2.Over V A) :
        (dims.foldl (fun acc x => acc * x.2 + x.1) acc).Over V A := by
      induction dims generalizing acc with
      | nil => exact hacc
      | cons y dims ih =>
        have hy := h y (List.mem_cons_self ..)
        exact ih _ (over_add.2 ⟨over_mul.2 ⟨hacc, hy.2⟩, hy.1⟩) fun z hz => h z (List.mem_cons_of_mem y hz)
    exact hfold dims x.1 (h x (List.mem_cons_self ..)).1 fun y hy => h y (List.mem_cons_of_mem x hy)

/-- nested loops -/
theorem loops_over {dims : List (Name × Expr)} {body : List Stmt} (hdims : ∀ e ∈ dims.map (·.2), e.Over V A)
    (hbody : blockOver (fun n => n ∈ dims.map (·.1) ∨ V n) A body) : blockOver V A (loops dims body) := by
  induction dims generalizing V with
  | nil => exact blockOver_mono (fun _ h => h) hbody fun n hn => by simpa using hn
  | cons x dims ih =>
    obtain ⟨n, size⟩ := x
    change blockOver V A [.count n 0 size (loops dims body)]
    rw [blockOver_cons, and_iff_left blockOver_nil]
    refine over_count over_numeral (hdims _ (List.mem_cons_self ..)) (ih (fun e he => ?_) ?_)
    · exact (hdims e (List.mem_cons_of_mem size he)).mono (fun _ => .inr) fun _ h => h
    · refine blockOver_mono (fun _ h => h) hbody fun m hm => ?_
      simp only [List.map_cons, List.mem_cons] at hm
      tauto

/-! ## Elements -/

/-- the update of one operator -/
theorem bucketUpdate_over {part : Part} {bucket : Name} {u : Stmt}
    (hdims : part.op.bucketIndices.length = part.op.shape.length) (hbucket : part.contribution.bucket.Over V A)
    (hwidth : part.width.Over V A) (hshape : ∀ e ∈ part.op.shape, e.Over V A)
    (hu : u.Over (fun n => n ∈ part.op.bucketIndices ∨ n = bucket ∨ V n) A) :
    blockOver V A (Plan.bucketUpdate part bucket u) := by
  rw [Plan.bucketUpdate, blockOver_cons, blockOver_cons, over_bind, over_ifThen, binders_bind, Operator.bucketLoops_eq]
  have hb : (Expr.ofName bucket).Over (fun n => n ∈ [bucket] ∨ V n) A := over_ofName.2 (.inl (by simp))
  refine ⟨over_castIfNeeded hbucket, ⟨⟨⟨hb, over_numeral⟩, hb, hwidth.mono (fun _ => .inr) fun _ h => h⟩, ?_⟩, blockOver_nil⟩
  refine loops_over (fun e he => ?_) ?_
  · rw [Operator.bucketDims_sizes hdims] at he
    exact (hshape e he).mono (fun _ => .inr) fun _ h => h
  · rw [Operator.bucketDims_names hdims, blockOver_cons, and_iff_left blockOver_nil]
    simpa using hu

variable {α : Type} {update : Part → α → Expr → Gen Stmt}

theorem Bucketed.over {parts : List (Part × α)} {l : List Stmt} {j : ℕ} (h : Bucketed update parts j l k') (hkj : k ≤ j)
    (hu : ∀ q ∈ parts, ∀ i u k', k ≤ i → update q.1 q.2 (.ofName (bucketName i)) (i + 1) = some (u, k') →
      blockOver V A (Plan.bucketUpdate q.1 (bucketName i) u)) : blockOver V A l := by
  induction h with
  | nil => exact blockOver_nil
  | @cons q rest j k₁ k₂ u l hu' hk h ih =>
    rw [blockOver_append]
    refine ⟨hu q (List.mem_cons_self ..) j u k₁ hkj hu', blockOver_mono (fun _ h => h) (ih (by omega) ?_) fun _ => .inr⟩
    exact fun q' hq' => hu q' (List.mem_cons_of_mem q hq')

/-- **The code of an element.** -/
theorem element_over {p : Plan} {parts : List (Part × α)} {segment index : Expr} {n : Name} {l : List Stmt} {j : ℕ}
    (hb : Bucketed update parts j l k') (hsegment : segment.Over V A) (hindex : index.Over V A)
    (hdims : ∀ e ∈ p.segmentDims.map (·.2), e.Over V A) (helements : p.elements.Over V A)
    (hmaps : ∀ m ∈ p.hist.maps, A m.dest.name ∧
      m.value.Over (fun x => x ∈ p.segmentDims.map (·.1) ++ [n] ∨ V x) A)
    (hu : ∀ q ∈ parts, ∀ i u k', j ≤ i → update q.1 q.2 (.ofName (bucketName i)) (i + 1) = some (u, k') →
      blockOver (fun x => x ∈ p.segmentDims.map (·.1) ++ [n] ∨ V x) A (Plan.bucketUpdate q.1 (bucketName i) u)) :
    blockOver V A (defineIndices segment p.segmentDims ++ [.bind n index]
      ++ p.mapStores (segment * p.elements + .ofName n) ++ l) := by
  obtain ⟨hdefine, hbinders⟩ := defineIndices_over hsegment hdims
  have hweak {V' : Name → Prop} (hV : ∀ n, V n → V' n) {e : Expr} (he : e.Over V A) : e.Over V' A := he.mono hV fun _ h => h
  rw [blockOver_append, blockOver_append, blockOver_append, blockOver_cons, over_bind, hbinders]
  refine ⟨⟨⟨hdefine, hweak (fun _ => .inr) hindex, blockOver_nil⟩, blockOver_of_forall fun s hs => ?_⟩, ?_⟩
  · obtain ⟨m, hm, rfl⟩ := List.mem_map.1 hs
    refine over_store.2 ⟨over_element.2 ⟨(hmaps m hm).1, over_add.2 ⟨over_mul.2 ⟨hweak (fun _ => .inr) hsegment,
      hweak (fun _ => .inr) helements⟩, over_ofName.2 (by simp)⟩⟩, ?_⟩
    simpa [hbinders] using (hmaps m hm).2
  · refine blockOver_mono (fun _ h => h) (hb.over (Nat.le_refl j) hu) fun x hx => ?_
    simp only [blockBinders_append, blockBinders_cons, blockBinders_nil, binders_bind, hbinders, List.mem_append,
      List.mem_singleton, List.append_nil] at hx ⊢
    tauto

end GpuHistogram
