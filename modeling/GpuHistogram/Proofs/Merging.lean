/-
Combining copies. A thread reads the first copy of an element into accumulators, combines the other copies into them one
after the other and stores the result: `combineCopies_runs`. With it `merge_runs` says that the kernel that merges the
copies of an operator stores in every destination what `Copies.merged` gives, and `finish_works` that this is done for all
operators, whose arrays of copies are freed.
-/
import GpuHistogram.Histogram.Merge
import GpuHistogram.Proofs.Allocation
import GpuHistogram.Proofs.Captures
import GpuHistogram.Proofs.Groups

namespace GpuHistogram

open Machine

variable {f : Form} {L : LaunchSpec → List Stmt → Exec Unit} {c : Context} {s t : State} {Q : State → Prop} {k k' : ℕ}
  {X A : List Name}

/-! ## The copies of one element -/

/-- read the first copy and combine the others into it -/
def combineCopies (F : Combiner) (arrays : List (Name × Scalar)) (sp : Space) (accs : List Name) (vars : List Expr)
    (n : Name) (first next count : Expr) : List Stmt :=
  (accs.zip (arrays.map fun a => Expr.element a.1 a.2 sp first)).map (fun a => .bind a.1 a.2)
    ++ [.count n 1 count [F.apply (vars ++ arrays.map fun a => Expr.element a.1 a.2 sp next) accs]]

theorem combineCopies_runs {F : Combiner} {ss : List Scalar} {combine : Tuple ss → Tuple ss → Tuple ss}
    {arrays : List (Name × Scalar)} {sp : Space} {accs : List Name} {n : Name} {first next count : Expr}
    {T : ℕ → Tuple ss} {C Z i len : ℕ} (hF : F.Typed ss) (harrays : arrays.map (·.2) = ss) (haccs : accs.length = ss.length)
    (hnd : (F.names ++ accs).Nodup) (hn : n ∉ F.names ++ accs) (hc : c.thread.isSome = true) (hC : 0 < C)
    (hlim : C ≤ c.rounds + 1) (hlen : ∀ r < C, Copies.place C Z i r < len)
    (hT : s.memory.Table (arrays.map (·.1)) ss len T)
    (hfirst : ∀ t, Keeps accs [] s t → Computes f c t first (Copies.place C Z i 0))
    (hnext : ∀ t r, r < C → Keeps (n :: (F.names ++ accs)) [] s t → t.vars.get? n = some (.word r) →
      Computes f c t next (Copies.place C Z i r))
    (hcount : ∀ t, Keeps accs [] s t → Computes f c t count C) (hscalars : ∀ m ∈ count.scalars, m ∉ n :: (F.names ++ accs))
    (hcountArrays : count.arrays = [])
    (hres : ∀ t, Keeps (n :: (F.names ++ accs)) [] s t → F.Yields f c t combine)
    (hq : ∀ t, Keeps (n :: (F.names ++ accs)) [] s t → Holds t accs (Copies.merged combine C Z T i).cells → Q t) :
    Runs f L c (combineCopies F arrays sp accs ((accs.zip ss).map fun a => .scalarVar a.1 a.2) n first next count) s Q := by
  have hlenArrays : arrays.length = ss.length := by rw [← harrays, List.length_map]
  have hzipNames : (accs.zip arrays).map (·.1) = accs := by
    rw [map_zip_fst (fun n : Name => n) (by omega), List.map_id']
  have hzipArrays : (accs.zip arrays).map (·.2.1) = arrays.map (·.1) := map_zip_snd _ (by omega)
  have hzipScalars : (accs.zip arrays).map (·.2.2) = ss := by rw [map_zip_snd _ (by omega), harrays]
  have hsub : accs ⊆ n :: (F.names ++ accs) := fun m hm => List.mem_cons_of_mem _ (List.mem_append_right _ hm)
  unfold combineCopies
  refine Runs.append ?_
  rw [List.zip_map_right, List.map_map]
  refine Runs.readTuple (accs.zip arrays) (fun a => a.1) (fun a => a.2.1) (fun a => a.2.2) hzipScalars
    (by rw [hzipNames]; exact hnd.of_append_right) (hlen 0 hC) (by rw [hzipNames]; exact hfirst)
    (by rw [hzipArrays]; exact hT) fun t ht hvals => ?_
  rw [hzipNames] at ht hvals
  have hbody (m : Name) (hm : m ∈ blockSets [F.apply (((accs.zip ss).map fun a => .scalarVar a.1 a.2) ++
      arrays.map fun a => Expr.element a.1 a.2 sp next) accs]) : m ∈ F.names ++ accs := by
    simp only [blockSets, blockUses_cons, blockUses_nil, List.append_nil] at hm
    exact List.mem_append.2 (Combiner.sets_apply hF.body hm)
  have hstores : blockStores [F.apply (((accs.zip ss).map fun a => .scalarVar a.1 a.2) ++
      arrays.map fun a => Expr.element a.1 a.2 sp next) accs] = [] := by
    simp only [blockStores, blockUses_cons, blockUses_nil, List.append_nil]
    exact Combiner.stores_apply hF.body _ _
  have hone : Computes f c t 1 (1 : ℕ) := .one
  refine Runs.countKeeps (fun r t => Holds t accs (Copies.mergedUpTo combine C Z T i (r - 1)).cells) hc hone
    (hcount t ht) hC (by omega) (fun hm => hn (hbody n hm)) (fun m hm hm' => hscalars m hm ?_) hcountArrays
    (fun r t w hI j m v hm hv => ?_) ?_ hvals fun u hI hu => ?_
  · rcases List.mem_cons.1 hm' with rfl | hm'
    · exact List.mem_cons_self ..
    · exact List.mem_cons_of_mem _ (hbody m hm')
  · rw [State.get?_set, if_neg]
    · exact hI j m v hm hv
    · rintro rfl
      exact hn (List.mem_append_right _ (List.mem_of_getElem? hm))
  · intro r u hr hrC hu hnu hI
    rw [hstores] at hu
    have hsu : Keeps (n :: (F.names ++ accs)) [] s u :=
      (ht.mono hsub (List.Subset.refl _)).trans (hu.mono (List.cons_subset_cons n fun m hm => hbody m hm) (List.Subset.refl _))
    have hTu : u.memory.Table (arrays.map (·.1)) ss len T := hT.keeps hsu.memory fun _ _ _ hw => absurd hw List.not_mem_nil
    have hsub' : F.names ++ accs ⊆ n :: (F.names ++ accs) := List.subset_cons_self _ _
    refine Combiner.apply_runs F hF combine (Copies.mergedUpTo combine C Z T i (r - 1)) (T (Copies.place C Z i r)) haccs
      (by simp [haccs, hlenArrays]) hnd ?_ ?_ ?_ ?_
    · intro j e sc he hsc
      rw [List.getElem?_append] at he hsc
      have hlen' : ((accs.zip ss).map fun a => Expr.scalarVar a.1 a.2).length = ss.length := by simp [haccs]
      rw [hlen'] at he
      split_ifs at he hsc with hj
      · rw [List.getElem?_map, Option.map_eq_some_iff] at he
        obtain ⟨a, ha, rfl⟩ := he
        rw [List.getElem?_zip_eq_some] at ha
        rw [Option.some.inj (hsc.symm.trans ha.2)]
        rfl
      · rw [List.getElem?_map, Option.map_eq_some_iff] at he
        obtain ⟨a, ha, rfl⟩ := he
        rw [← harrays, List.length_map, hlenArrays, List.getElem?_map, ha, Option.map_some, Option.some.injEq] at hsc
        rw [← hsc]
        rfl
    · intro v hv j e w he hw
      have hsv : Keeps (n :: (F.names ++ accs)) [] s v := hsu.trans (hv.mono
        (fun m hm => List.mem_cons_of_mem _ (List.mem_append_left _ hm)) (List.Subset.refl _))
      have hlen' : ((accs.zip ss).map fun a => Expr.scalarVar a.1 a.2).length = ss.length := by simp [haccs]
      rw [List.getElem?_append] at he hw
      rw [hlen'] at he
      rw [(Copies.mergedUpTo combine C Z T i (r - 1)).length_eq] at hw
      split_ifs at he hw with hj
      · rw [List.getElem?_map, Option.map_eq_some_iff] at he
        obtain ⟨a, ha, rfl⟩ := he
        rw [List.getElem?_zip_eq_some] at ha
        refine Evals.scalarVar ?_
        rw [hv.vars _ fun hm => List.disjoint_of_nodup_append hnd hm (List.mem_of_getElem? ha.1)]
        exact hI j a.1 w ha.1 hw
      · have hTv : v.memory.Table (arrays.map (·.1)) ss len T := hT.keeps hsv.memory fun _ _ _ hw => absurd hw List.not_mem_nil
        have hnv : v.vars.get? n = some (.word r) := by
          rw [hv.vars n fun hm => hn (List.mem_append_left _ hm), hnu]
        rw [List.getElem?_map, Option.map_eq_some_iff] at he
        obtain ⟨a, ha, rfl⟩ := he
        have hcol := hTv.column (j - ss.length) a.1 a.2 (by rw [List.getElem?_map, ha]; rfl)
          (by rw [← harrays, List.length_map, hlenArrays, List.getElem?_map, ha]; rfl)
        have h : Evals f c v (.element a.1 a.2 sp next) _ := .element (hnext v r hrC hsv hnv) hcol (hlen r hrC)
        rwa [Tuple.cell_eq hw] at h
    · exact fun v hv => hres v (hsu.trans (hv.mono hsub' (List.Subset.refl _)))
    · intro v hv hvals'
      obtain ⟨r, rfl⟩ : ∃ r', r = r' + 1 := ⟨r - 1, by omega⟩
      simpa only [Nat.add_sub_cancel, Copies.mergedUpTo] using hvals'
  · rw [hstores] at hu
    exact hq u ((ht.mono hsub (List.Subset.refl _)).trans
      (hu.mono (List.cons_subset_cons n fun m hm => hbody m hm) (List.Subset.refl _))) hI

theorem combineCopies_over {V Arr : Name → Prop} {F : Combiner} {ss : List Scalar} {arrays : List (Name × Scalar)}
    {accs : List Name} {n : Name} {first next count : Expr} (sp : Space) (hF : F.Typed ss) (harrays : arrays.map (·.2) = ss)
    (haccs : accs.length = ss.length) (hArr : ∀ a ∈ arrays, Arr a.1) (hfirst : first.Over V Arr)
    (hnext : next.Over (fun m => m = n ∨ V m) Arr) (hcount : count.Over V Arr)
    (hres : ∀ e ∈ F.results, e.Over (fun n => n ∈ F.names ∨ V n) Arr) :
    blockOver V Arr (combineCopies F arrays sp accs ((accs.zip ss).map fun a => .scalarVar a.1 a.2) n first next count) ∧
      accs ⊆ blockBinders
        (combineCopies F arrays sp accs ((accs.zip ss).map fun a => .scalarVar a.1 a.2) n first next count) := by
  have hlen : arrays.length = ss.length := by rw [← harrays, List.length_map]
  have hweak {V' : Name → Prop} (hV : ∀ n, V n → V' n) {e : Expr} (he : e.Over V Arr) : e.Over V' Arr :=
    he.mono hV fun _ h => h
  have hbinders : blockBinders ((accs.zip (arrays.map fun a => Expr.element a.1 a.2 sp first)).map
      fun a => .bind a.1 a.2) = accs := by
    rw [blockBinders_binds, map_zip_fst (fun n : Name => n) (by simp; omega), List.map_id']
  unfold combineCopies
  rw [blockOver_append, blockOver_cons, hbinders]
  refine ⟨⟨blockOver_of_forall fun s hs => ?_, over_count over_numeral (hweak (fun _ => .inr) hcount) ?_, blockOver_nil⟩, ?_⟩
  · obtain ⟨a, ha, rfl⟩ := List.mem_map.1 hs
    obtain ⟨b, hb, he⟩ := List.mem_map.1 (List.of_mem_zip ha).2
    rw [over_bind, ← he]
    exact over_element.2 ⟨hArr b hb, hfirst⟩
  · rw [blockOver_cons]
    refine ⟨Combiner.apply_over hF.body (fun e he => ?_) (fun e he => (hres e he).mono (fun m => Or.imp_right fun h =>
      .inr (.inr h)) fun _ h => h) (by simp [hF.length_params, haccs, hlen]) fun m hm => .inr (.inl hm), blockOver_nil⟩
    rcases List.mem_append.1 he with he | he
    · obtain ⟨a, ha, rfl⟩ := List.mem_map.1 he
      exact over_scalarVar.2 (.inr (.inl (List.of_mem_zip ha).1))
    · obtain ⟨a, ha, rfl⟩ := List.mem_map.1 he
      exact over_element.2 ⟨hArr a ha, hnext.mono (fun m => Or.imp_right .inr) fun _ h => h⟩
  · rw [blockBinders_append, hbinders]
    exact List.subset_append_left _ _

/-! ## The kernel that merges the copies of one operator -/

/-- the variables of a merge -/
def MergeNames.all (ns : MergeNames) : List Name := [ns.thread, ns.segment, ns.j, ns.s] ++ ns.accs

theorem mergeNames_create (dests : List Destination) (k : ℕ) : ∃ ns k', MergeNames.create dests k = (ns, k') ∧ k ≤ k' ∧
    ns.accs.length = dests.length ∧ ns.all.Nodup ∧ ∀ n ∈ ns.all, n.Within k k' := by
  refine ⟨⟨⟨"gtid", some k⟩, ⟨"seg", some (k + 1)⟩, ⟨"j", some (k + 2)⟩, ⟨"s", some (k + 3)⟩,
    freshNames (dests.map fun d => d.name.text ++ "_acc") (k + 4)⟩, k + 4 + dests.length, ?_, by omega,
    by simp [length_freshNames], ?_, fun n hn => ?_⟩
  · have h := mapM_fresh (fun d : Destination => d.name.text ++ "_acc") dests (k + 4)
    change ((let r := (dests.mapM fun d => fresh (d.name.text ++ "_acc")) (k + 4);
      ((⟨⟨"gtid", some k⟩, ⟨"seg", some (k + 1)⟩, ⟨"j", some (k + 2)⟩, ⟨"s", some (k + 3)⟩, r.1⟩ : MergeNames), r.2)) :
        MergeNames × ℕ) = _
    rw [h]
  · have hyoung {i : ℕ} {t : String} (hi : i < k + 4) :
        (⟨t, some i⟩ : Name) ∉ freshNames (dests.map fun d => d.name.text ++ "_acc") (k + 4) := fun hm => by
      obtain ⟨j, hj, hle, -⟩ := within_freshNames hm
      cases hj
      omega
    simp only [MergeNames.all, List.cons_append, List.nil_append, List.nodup_cons, List.mem_cons, Name.mk.injEq,
      Option.some.injEq, not_or, nodup_freshNames, and_true]
    refine ⟨⟨?_, ?_, ?_, hyoung (by omega)⟩, ⟨?_, ?_, hyoung (by omega)⟩, ⟨?_, hyoung (by omega)⟩, hyoung (by omega)⟩ <;>
      exact fun h => absurd h.2 (by omega)
  · simp only [MergeNames.all, List.cons_append, List.nil_append, List.mem_cons] at hn
    rcases hn with rfl | rfl | rfl | rfl | hn
    any_goals exact Name.within_mk _ (by omega) (by omega)
    exact (within_freshNames hn).mono (by omega) (by simp)

namespace Subhistograms

variable {x : Subhistograms} {F : Combiner} {ns : MergeNames} {count : Expr}

theorem arrays_names (h : x.subs.length = x.dests.length) : x.arrays.map (·.1) = x.subs := by
  rw [arrays, List.map_map]
  exact (map_zip_fst (fun n : Name => n) h.le).trans (List.map_id' _)

theorem arrays_scalars (h : x.subs.length = x.dests.length) : x.arrays.map (·.2) = x.dests.map (·.elem) := by
  rw [arrays, List.map_map]
  exact map_zip_snd (fun d : Destination => d.elem) h.ge

/-- what a merge stores for one element -/
def storeMerged (x : Subhistograms) (ns : MergeNames) : List Stmt :=
  (x.dests.zip (ns.accs.zip (x.dests.map (·.elem)))).map fun a =>
    .store (.element a.1.name a.1.elem .device (x.destIndex (.ofName ns.segment) (.ofName ns.j)))
      (.scalarVar a.2.1 a.2.2)

/-- a merge in terms of the copies of its element -/
theorem mergeElement_eq (x : Subhistograms) (F : Combiner) (ns : MergeNames) (count : Expr) :
    x.mergeElement F ns count =
      [.bind ns.segment (.ofName ns.thread / x.size), .bind ns.j (.ofName ns.thread % x.size)]
        ++ (combineCopies F x.arrays .device ns.accs ((ns.accs.zip (x.dests.map (·.elem))).map fun a => .scalarVar a.1 a.2)
            ns.s (x.subIndex count (.ofName ns.segment) 0 (.ofName ns.j))
            (x.subIndex count (.ofName ns.segment) (.ofName ns.s) (.ofName ns.j)) count
          ++ x.storeMerged ns) := by
  have haccs : x.accumulators ns = (ns.accs.zip (x.dests.map (·.elem))).map fun a => Expr.scalarVar a.1 a.2 := by
    rw [accumulators, List.zip_map_right, List.map_map]
    rfl
  have hstores : ((x.destAccesses (x.destIndex (.ofName ns.segment) (.ofName ns.j))).zip (x.accumulators ns)).map
      (fun a => Stmt.store a.1 a.2) = x.storeMerged ns := by
    rw [haccs, destAccesses, List.zip_map, List.map_map]
    rfl
  rw [← hstores, ← haccs]
  simp only [mergeElement, combineCopies, List.append_assoc]
  rfl

theorem sets_mergeBody (hF : F.body = []) {n : Name} (hn : n ∈ blockSets (x.mergeBody F ns count)) :
    n ∈ ns.all ∨ n ∈ F.names := by
  simp only [mergeBody, mergeElement_eq, combineCopies, storeMerged, MergeNames.all, blockSets, blockUses_cons,
    blockUses_nil, blockUses_append, blockUses_map, Stmt.bind, Stmt.ifThen, Stmt.count, Stmt.countBy, Stmt.store, Stmt.uses,
    Use.among, Expr.element, Expr.settable, List.mem_append, List.mem_flatMap, List.mem_cons, List.not_mem_nil, false_or,
    or_false, and_false, exists_false] at hn ⊢
  rcases hn with rfl | (rfl | rfl) | ⟨a, ha, rfl⟩ | rfl | hn
  any_goals tauto
  · exact .inl (.inr (List.of_mem_zip ha).1)
  · exact (Combiner.sets_apply hF hn).elim .inr fun h => .inl (.inr h)

theorem stores_mergeBody (hF : F.body = []) (hsize : x.size.arrays = []) {n : Name}
    (hn : n ∈ blockStores (x.mergeBody F ns count)) : n ∈ x.dests.map (·.name) := by
  have hindex : (x.destIndex (.ofName ns.segment) (.ofName ns.j)).reads .array = [] := by
    change ([] ++ x.size.arrays) ++ [] = []
    rw [hsize]
    rfl
  simp only [mergeBody, mergeElement_eq, combineCopies, storeMerged, blockStores, blockUses_cons, blockUses_nil,
    blockUses_append, blockUses_map, Combiner.stores_apply hF, Stmt.bind, Stmt.ifThen, Stmt.count, Stmt.countBy, Stmt.store,
    Stmt.uses, Use.among, Expr.element, Expr.typed, Expr.reads, hindex, List.mem_append, List.mem_flatMap, List.mem_cons,
    List.not_mem_nil, false_or, or_false, and_false, exists_false, List.append_nil, List.nil_append] at hn
  obtain ⟨a, ha, rfl⟩ := hn
  exact List.mem_map_of_mem (List.of_mem_zip ha).1

theorem mergeBody_over {V Arr : Name → Prop} {ss : List Scalar} (hF : F.Typed ss) (hsubs : x.subs.length = x.dests.length)
    (hss : x.dests.map (·.elem) = ss) (haccs : ns.accs.length = ss.length) (hArr : ∀ n ∈ x.subs, Arr n)
    (hArr' : ∀ n ∈ x.dests.map (·.name), Arr n) (hsegments : x.segments.Over V Arr) (hsize : x.size.Over V Arr)
    (hcount : count.Over V Arr) (hres : ∀ e ∈ F.results, e.Over (fun n => n ∈ F.names ∨ V n) Arr) :
    blockOver V Arr (x.mergeBody F ns count) := by
  have hweak {V' : Name → Prop} (hV : ∀ n, V n → V' n) {e : Expr} (he : e.Over V Arr) : e.Over V' Arr :=
    he.mono hV fun _ h => h
  have hindex {V' : Name → Prop} (hV : ∀ n, V n → V' n) {e : Expr} (hseg : V' ns.segment) (hj : V' ns.j)
      (he : e.Over V' Arr) : (x.subIndex count (.ofName ns.segment) e (.ofName ns.j)).Over V' Arr := by
    simp only [subIndex, over_add, over_mul, over_ofName]
    exact ⟨⟨⟨⟨hseg, hweak hV hcount⟩, he⟩, hweak hV hsize⟩, hj⟩
  have hacc : ∀ a ∈ x.arrays, Arr a.1 := fun a ha => by
    obtain ⟨b, hb, rfl⟩ := List.mem_map.1 ha
    exact hArr _ (List.of_mem_zip hb).1
  simp only [mergeBody, mergeElement_eq, blockOver_cons, blockOver_append, over_bind, over_ifThen, binders_bind, over_lt,
    over_ofName, over_mul, over_div, over_mod, blockOver_nil, blockBinders_cons, blockBinders_nil, List.append_nil,
    List.mem_append, List.mem_singleton, true_or, and_true, true_and]
  refine ⟨trivial, ⟨hweak (fun _ => .inr) hsegments, hweak (fun _ => .inr) hsize⟩, ⟨hweak (fun _ => .inr) hsize, ?_⟩, ?_⟩
  · exact ⟨.inr trivial, hweak (fun _ h => .inr (.inr h)) hsize⟩
  · obtain ⟨hcopies, hbinders⟩ := combineCopies_over (V := fun n => (n = ns.segment ∨ n = ns.j) ∨ n = ns.thread ∨ V n)
      (n := ns.s) .device hF (by rw [arrays_scalars hsubs, hss]) haccs hacc
      (hindex (fun _ h => .inr (.inr h)) (.inl (.inl rfl)) (.inl (.inr rfl)) over_numeral)
      (hindex (fun _ h => .inr (.inr (.inr h))) (.inr (.inl (.inl rfl))) (.inr (.inl (.inr rfl))) (over_ofName.2 (.inl rfl)))
      (hweak (fun _ h => .inr (.inr h)) hcount)
      fun e he => (hres e he).mono (fun n => Or.imp_right fun h => .inr (.inr h)) fun _ h => h
    rw [hss]
    refine ⟨hcopies, blockOver_of_forall fun s hs => ?_⟩
    obtain ⟨a, ha, rfl⟩ := List.mem_map.1 hs
    have ha' := List.of_mem_zip ha
    refine over_store.2 ⟨over_element.2 ⟨hArr' _ (List.mem_map_of_mem ha'.1), ?_⟩,
      over_scalarVar.2 (.inl (hbinders (List.of_mem_zip ha'.2).1))⟩
    simp only [destIndex, over_add, over_mul, over_ofName]
    exact ⟨⟨by simp, hweak (fun _ h => .inr (.inr (.inr h))) hsize⟩, by simp⟩

end Subhistograms

/-- the variables of the host that code may read: those there were before `k` that have values, but for `X` -/
def Visible (k : ℕ) (X : List Name) (s : State) (n : Name) : Prop :=
  n.Before k ∧ n ∉ X ∧ (s.vars.get? n).isSome = true

/-- the combiner of an operator computes a function: it has no statements, reads the variables `R` and the arrays `A` of the
host, and gives what the function does wherever these are as they were -/
structure Operator.Combines (op : Operator) (k : ℕ) (R A X : List Name) (s : State)
    (combine : Tuple op.scalars → Tuple op.scalars → Tuple op.scalars) : Prop where
  typed : op.combiner.Typed op.scalars
  names : ∀ n ∈ op.combiner.names, n.Before k ∧ n ∈ X
  reads : ∀ e ∈ op.combiner.results, e.Over (· ∈ op.combiner.names ++ R) (· ∈ A)
  scalars : ∀ n ∈ R, Visible k X s n
  arrays : ∀ n ∈ A, n ∈ X
  yields : ∀ f c t, Sees k X A s t → op.combiner.Yields f c t combine

namespace Operator.Combines

variable {op : Operator} {R : List Name} {combine : Tuple op.scalars → Tuple op.scalars → Tuple op.scalars}

theorem results_over (h : op.Combines k R A X s combine) {Arr : Name → Prop} (hArr : ∀ n ∈ A, Arr n) :
    ∀ e ∈ op.combiner.results, e.Over (fun n => n ∈ op.combiner.names ∨ Visible k X s n) Arr :=
  fun e he => (h.reads e he).mono (fun n hn => (List.mem_append.1 hn).imp_right (h.scalars n)) hArr

theorem sees (h : op.Combines k R A X s combine) (hs : Sees k X A s t) : op.Combines k R A X t combine where
  typed := h.typed
  names := h.names
  reads := h.reads
  scalars := fun n hn => by
    obtain ⟨h1, h2, h3⟩ := h.scalars n hn
    exact ⟨h1, h2, by rw [hs.vars n h1 h2]; exact h3⟩
  arrays := h.arrays
  yields := fun f c u hu => h.yields f c u (hs.trans hu (Nat.le_refl k))

end Operator.Combines

/-- the variables that a histogram reads are there, and the names of its own are among `X` -/
structure Histogram.Scope (h : Histogram) (k : ℕ) (R A X : List Name) (s : State) : Prop where
  locals : ∀ n ∈ h.locals, n ∈ X
  arrays : ∀ n ∈ A, n ∈ X
  reads : ∀ n ∈ R, Visible k X s n

namespace Histogram.Scope

variable {h : Histogram} {M : Histogram.Meaning} {R : List Name} {k₀ : ℕ} {op : Operator}

theorem keep (hs : h.Scope k R A X s) (hk : k ≤ k') (ht : ∀ n : Name, n.Before k → t.vars.get? n = s.vars.get? n) :
    h.Scope k' R A X t :=
  ⟨hs.locals, hs.arrays, fun n hn => by
    obtain ⟨h1, h2, h3⟩ := hs.reads n hn
    exact ⟨h1.mono hk, h2, by rw [ht n h1]; exact h3⟩⟩

theorem results_over (hs : h.Scope k R A X s) (hr : h.Regular k₀ R A) (hop : op ∈ h.operators) {Arr : Name → Prop}
    (hArr : ∀ n ∈ A, Arr n) : ∀ e ∈ op.combiner.results, e.Over (fun n => n ∈ op.combiner.names ∨ Visible k X s n) Arr :=
  fun e he => (hr.readsResults op hop e he).2.mono
    (fun n hn => (List.mem_append.1 hn).imp_right fun h => hs.reads n h) hArr

/-- the parameters of a combiner are no variables of the host -/
theorem names_mem (hs : h.Scope k R A X s) (hop : op ∈ h.operators) {n : Name} (hn : n ∈ op.combiner.names) : n ∈ X :=
  hs.locals n (Histogram.Regular.mem_locals hop (List.mem_append_right _ hn))

theorem combines (hs : h.Scope k R A X s) (hr : h.Regular k₀ R A) (hk : k₀ ≤ k) (hM : h.Means M k X A s)
    (hop : op ∈ h.operators) : op.Combines k R A X s (M.combine op) where
  typed := hr.typed hop
  names := fun _ hn => ⟨(hr.before_local (Histogram.Regular.mem_locals hop (List.mem_append_right _ hn))).mono hk,
    hs.names_mem hop hn⟩
  reads := fun e he => (hr.readsResults op hop e he).2
  scalars := hs.reads
  arrays := hs.arrays
  yields := hM.combine op hop

end Histogram.Scope

namespace Part

variable {q : Part} {R : List Name} {S Z : ℕ} {combine : Tuple q.op.scalars → Tuple q.op.scalars → Tuple q.op.scalars}

/-- what one thread does for its element -/
theorem mergeElement_runs {base : State} {ns : MergeNames} {count : Expr} {C th : ℕ} {T D : ℕ → Tuple q.op.scalars}
    (hq : q.Sized k X base S Z) (hcombine : q.op.Combines k R A X base combine) (hc : c.thread.isSome = true) (hcount : Quantity k X base count C) (hC : 0 < C)
    (hlarge : Word64.fits (S * C * Z : ℕ) = true) (hlim : C ≤ c.rounds + 1)
    (haccs : ns.accs.length = q.op.dests.length) (hnd : ns.all.Nodup) (hns : ∀ n ∈ ns.all, n.Within k k')
    (hsees : Sees k X A base s) (hthread : s.vars.get? ns.thread = some (.word th))
    (hth : th < S * Z)
    (hT : s.memory.Table q.subs.subs q.op.scalars (S * C * Z) T)
    (hD : s.memory.Table q.destNames q.op.scalars (S * Z) D) :
    Runs f L c (q.subs.mergeElement q.op.combiner ns count) s fun t =>
      t.memory.Table q.destNames q.op.scalars (S * Z)
        (Function.update D th (Copies.merged combine C (Z) T th)) := by
  have hZ : 0 < Z := Nat.pos_of_mul_pos_left (Nat.zero_lt_of_lt hth)
  have hF := hcombine.typed
  have hsubsLen : q.subs.subs.length = q.subs.dests.length := by rw [hq.subs, hq.dests]
  have hscalars : q.subs.dests.map (·.elem) = q.op.scalars := by rw [hq.dests, Operator.scalars]
  have haccs' : ns.accs.length = q.op.scalars.length := by rw [haccs, q.op.length_scalars]
  have hall {n : Name} (hn : n ∈ ns.all) : ¬ n.Before k := (hns n hn).not_before
  have hnames {n : Name} (hn : n ∈ q.op.combiner.names) : n ∉ ns.all := fun hm => hall hm (hcombine.names n hn).1
  have hmem : ns.thread ∈ ns.all ∧ ns.segment ∈ ns.all ∧ ns.j ∈ ns.all ∧ ns.s ∈ ns.all ∧ ns.accs ⊆ ns.all := by
    refine ⟨?_, ?_, ?_, ?_, List.subset_append_right _ _⟩ <;> simp [MergeNames.all]
  obtain ⟨hthreadM, hsegmentM, hjM, hsM, haccsM⟩ := hmem
  have hnd' := hnd
  simp only [MergeNames.all, List.cons_append, List.nil_append, List.nodup_cons, List.mem_cons, not_or] at hnd'
  obtain ⟨⟨hts, htj, htn, hta⟩, ⟨hsj, hsn, hsa⟩, ⟨hjn, hja⟩, hna, haccsNd⟩ := hnd'
  -- what holds in every state of the thread
  have hlater {t : State} {V : List Name} (ht : Keeps V [] s t) (hV : ∀ n ∈ V, n ∈ ns.all ∨ n ∈ q.op.combiner.names) :
      Sees k X A base t :=
    hsees.keeps ht (Nat.le_refl k) (fun n hn hb => (hV n hn).elim (fun h => absurd hb (hall h)) fun h => (hcombine.names n h).2)
      fun _ _ _ hw => absurd hw List.not_mem_nil
  have hthfit : Word64.fits (th : ℕ) = true := Word64.fits_le hlarge
    (hth.le.trans (Nat.mul_le_mul_right _ (Nat.le_mul_of_pos_right _ hC)))
  have hdivfit : Word64.fits (th / Z : ℕ) = true := Word64.fits_le hthfit (Nat.div_le_self _ _)
  have hmodfit : Word64.fits (th % Z : ℕ) = true := Word64.fits_le hthfit (Nat.mod_le _ _)
  have hplace {t : State} {V : List Name} {e : Expr} {r : ℕ} (ht : Keeps V [] s t)
      (hV : ∀ n ∈ V, n ∈ ns.all ∨ n ∈ q.op.combiner.names)
      (hseg : t.vars.get? ns.segment = some (.word (th / Z : ℕ)))
      (hj : t.vars.get? ns.j = some (.word (th % Z : ℕ))) (hr : r < C) (he : Computes f c t e r) :
      Computes f c t (q.subs.subIndex count (.ofName ns.segment) e (.ofName ns.j)) (Copies.place C (Z) th r) := by
    have hst := hlater ht hV
    have hlt := Copies.place_lt hth hr
    have hfit := Word64.fits_le hlarge hlt.le
    unfold Copies.place at hfit ⊢
    have hrow : th / Z * C + r ≤ (th / Z * C + r) * Z := Nat.le_mul_of_pos_right _ hZ
    have h1 := (Computes.ofName (f := f) (c := c) hseg hdivfit).mulNat ((hcount.sees hst).computes f c)
      (Word64.fits_le hfit (by omega))
    have h2 := (h1.addNat he (Word64.fits_le hfit (by omega))).mulNat ((hq.size.sees hst).computes f c)
      (Word64.fits_le hfit (by omega))
    exact h2.addNat (.ofName hj hmodfit) hfit
  rw [Subhistograms.mergeElement_eq, hscalars]
  have hbind {n : Name} {v : Value} {t : State} : Keeps [n] [] t (t.set n v) := .set (List.mem_singleton_self n) v
  refine Runs.append (Runs.bindWord ((Computes.ofName hthread hthfit).div ((hq.size.sees hsees).computes f c) hZ) ?_)
  have hs1 := hbind (n := ns.segment) (v := .word (th / Z : ℕ)) (t := s)
  have hsees1 := hlater hs1 (by simp [hsegmentM])
  have hthread1 : (s.set ns.segment (.word (th / Z : ℕ))).vars.get? ns.thread = some (.word th) := by
    rw [State.get?_set, if_neg (Ne.symm hts), hthread]
  refine Runs.bindWord ((Computes.ofName hthread1 hthfit).mod ((hq.size.sees hsees1).computes f c) hZ) (Runs.nil ?_)
  generalize hu : (s.set ns.segment (.word (th / Z : ℕ))).set ns.j (.word (th % Z : ℕ)) = u
  have hsu : Keeps [ns.segment, ns.j] [] s u := by
    rw [← hu]
    exact (hs1.mono (by simp) (List.Subset.refl _)).trans (hbind.mono (by simp) (List.Subset.refl _))
  have hsegu : u.vars.get? ns.segment = some (.word (th / Z : ℕ)) := by
    rw [← hu, State.get?_set, if_neg (Ne.symm hsj), State.get?_set, if_pos rfl]
  have hju : u.vars.get? ns.j = some (.word (th % Z : ℕ)) := by
    rw [← hu, State.get?_set, if_pos rfl]
  have hmemu : u.memory = s.memory := by rw [← hu]; rfl
  -- the variables that the copies are combined in
  have hV : ∀ n ∈ ns.s :: (q.op.combiner.names ++ ns.accs), n ∈ ns.all ∨ n ∈ q.op.combiner.names := by
    intro n hn
    rcases List.mem_cons.1 hn with rfl | hn
    · exact .inl hsM
    · exact (List.mem_append.1 hn).elim .inr fun h => .inl (haccsM h)
  have hvars {t : State} (ht : Keeps (ns.s :: (q.op.combiner.names ++ ns.accs)) [] u t) :
      Keeps ([ns.segment, ns.j] ++ ns.s :: (q.op.combiner.names ++ ns.accs)) [] s t ∧
        t.vars.get? ns.segment = some (.word (th / Z : ℕ)) ∧
        t.vars.get? ns.j = some (.word (th % Z : ℕ)) := by
    refine ⟨(hsu.mono (List.subset_append_left _ _) (List.Subset.refl _)).trans
      (ht.mono (List.subset_append_right _ _) (List.Subset.refl _)), ?_, ?_⟩
    · rw [ht.vars, hsegu]
      simp only [List.mem_cons, List.mem_append, not_or]
      exact ⟨hsn, fun h => hnames h hsegmentM, hsa⟩
    · rw [ht.vars, hju]
      simp only [List.mem_cons, List.mem_append, not_or]
      exact ⟨hjn, fun h => hnames h hjM, hja⟩
  have hV' : ∀ n ∈ [ns.segment, ns.j] ++ ns.s :: (q.op.combiner.names ++ ns.accs), n ∈ ns.all ∨ n ∈ q.op.combiner.names := by
    intro n hn
    rcases List.mem_append.1 hn with hn | hn
    · simp only [List.mem_cons, List.not_mem_nil, or_false] at hn
      rcases hn with rfl | rfl
      · exact .inl hsegmentM
      · exact .inl hjM
    · exact hV n hn
  have hsub : ns.accs ⊆ ns.s :: (q.op.combiner.names ++ ns.accs) := fun n hn =>
    List.mem_cons_of_mem _ (List.mem_append_right _ hn)
  refine Runs.append (combineCopies_runs (T := T) (i := th) (Z := Z)
    hF (by rw [Subhistograms.arrays_scalars hsubsLen, hscalars]) haccs' ?_ ?_ hc hC
    hlim (fun r hr => Copies.place_lt hth hr) (by rw [hmemu, Subhistograms.arrays_names hsubsLen]; exact hT) ?_ ?_ ?_ ?_
    hcount.arrays (fun t ht => hcombine.yields f c t (hlater (hvars ht).1 hV')) ?_)
  · exact List.nodup_append.2 ⟨hF.nodup, haccsNd, fun n hn m hm he => hnames hn (he ▸ haccsM hm)⟩
  · rw [List.mem_append, not_or]
    exact ⟨fun h => hnames h hsM, hna⟩
  · intro t ht
    obtain ⟨h1, h2, h3⟩ := hvars (ht.mono hsub (List.Subset.refl _))
    exact hplace h1 hV' h2 h3 hC Computes.zero
  · intro t r hr ht hn
    obtain ⟨h1, h2, h3⟩ := hvars ht
    exact hplace h1 hV' h2 h3 hr (.ofName hn (Word64.fits_le hcount.fits hr.le))
  · intro t ht
    exact (hcount.sees (hlater (hvars (ht.mono hsub (List.Subset.refl _))).1 hV')).computes f c
  · intro n hn hm
    obtain ⟨hb, hnX⟩ := hcount.scalars n hn
    exact (hV n hm).elim (fun h => hall h hb) fun h => hnX (hcombine.names n h).2
  · intro t ht hvals
    obtain ⟨h1, h2, h3⟩ := hvars ht
    have hDt : t.memory.Table q.destNames q.op.scalars (S * Z) D :=
      hD.keeps h1.memory fun _ _ _ hw => absurd hw List.not_mem_nil
    have hzip : q.subs.dests.length ≤ (ns.accs.zip q.op.scalars).length := by
      rw [List.length_zip, haccs', Nat.min_self, ← hscalars, List.length_map]
    have hzipNames : (q.subs.dests.zip (ns.accs.zip q.op.scalars)).map (·.1.name) = q.destNames := by
      rw [map_zip_fst (fun d : Destination => d.name) hzip, hq.dests, destNames]
    unfold Subhistograms.storeMerged
    rw [hscalars]
    refine Runs.writeTuple (q.subs.dests.zip (ns.accs.zip q.op.scalars)) (fun a => a.1.name) (fun a => a.1.elem)
      (fun a => .scalarVar a.2.1 a.2.2) (Copies.merged combine C (Z) T th)
      ((map_zip_fst (fun d : Destination => d.elem) hzip).trans hscalars) hth ?_ ?_
      (by rw [hzipNames]; exact hDt) ?_
    · intro v hv
      have hsv : Sees k X [] base v := by
        refine ⟨fun n hn hnX => ?_, fun _ hn => absurd hn List.not_mem_nil⟩
        rw [hv.vars n (fun h => absurd h List.not_mem_nil)]
        exact (hlater h1 hV').vars n hn hnX
      have hseg : v.vars.get? ns.segment = some (.word (th / Z : ℕ)) := (hv.vars _ fun h => absurd h List.not_mem_nil).trans h2
      have hj : v.vars.get? ns.j = some (.word (th % Z : ℕ)) := (hv.vars _ fun h => absurd h List.not_mem_nil).trans h3
      have hsplit : th / Z * Z + th % Z = th := by
        rw [mul_comm]
        exact Nat.div_add_mod ..
      have hle : th / Z * Z ≤ th := by omega
      have h := ((Computes.ofName (f := f) (c := c) hseg hdivfit).mulNat ((hq.size.sees hsv).computes f c)
        (Word64.fits_le hthfit hle)).addNat (.ofName hj hmodfit) (by rw [hsplit]; exact hthfit)
      rwa [hsplit] at h
    · intro v hv i e w he hw
      rw [List.getElem?_map, Option.map_eq_some_iff] at he
      obtain ⟨a, ha, rfl⟩ := he
      rw [List.getElem?_zip_eq_some, List.getElem?_zip_eq_some] at ha
      exact Evals.scalarVar ((hv.vars _ fun h => absurd h List.not_mem_nil).trans (hvals i _ w ha.2.1 hw))
    · intro v _ hTv
      rwa [hzipNames] at hTv

/-- **A merge.** The kernel combines the copies of every element into the destinations. -/
theorem merge_runs {p : Plan} {ns : MergeNames} {count : Expr} {name : Name} {o : Origin} {C g : ℕ}
    {T : ℕ → Tuple q.op.scalars} (hq : q.Sized k X s S Z) (hcombine : q.op.Combines k R A X s combine)
    (hX : ∀ n ∈ q.arrays, n ∈ X) (hc : c.thread = none)
    (hcount : Quantity k X s count C) (hC : 0 < C) (hone : C ≠ 1) (hgroup : Quantity k X s p.groupSize g) (hg : 0 < g)
    (hmax : (g : Int) ≤ c.limits.maxGroupSize) (hlarge : Word64.fits (S * C * Z : ℕ) = true)
    (hgrid : Word64.fits (S * Z + g : ℕ) = true) (hlim : C ≤ c.rounds + 1)
    (haccs : ns.accs.length = q.op.dests.length) (hnd : ns.all.Nodup) (hns : ∀ n ∈ ns.all, n.Within k k')
    (hready : q.Ready S (Z) C T s.memory)
    (hA : ∀ n ∈ A, (∃ p b, s.memory.Has n p b) ∧ s.memory.Apart q.destNames n) :
    Runs f (Machine.launch c) c [(Kernel.make name (q.subs.mergeBody q.op.combiner ns count) []
        [Expr.ceilDiv (q.subs.segments * q.subs.size) p.groupSize] [p.groupSize] o).toStmt .unknown] s fun t =>
      t.vars = s.vars ∧ t.launched = s.launched.push name.text ∧ Memory.Keeps q.destNames s.memory t.memory ∧
      t.memory.Table q.destNames q.op.scalars (S * Z)
        (Copies.merged combine C (Z) T) := by
  have hF := hcombine.typed
  have hdests : q.subs.dests.map (·.name) = q.destNames := by rw [hq.dests, destNames]
  have hsubsLen : q.subs.subs.length = q.subs.dests.length := by rw [hq.subs, hq.dests]
  have hscalars : q.subs.dests.map (·.elem) = q.op.scalars := by rw [hq.dests, Operator.scalars]
  have haccs' : ns.accs.length = q.op.scalars.length := by rw [haccs, q.op.length_scalars]
  obtain ⟨D, hD⟩ := hready.dests
  have hrows : Quantity k X s (q.subs.segments * q.subs.size) (S * Z) :=
    hq.segments.mul hq.size (Word64.fits_le hgrid (by omega))
  have hgroups := hrows.ceilDiv hgroup hg hgrid
  have hcover := Nat.div_mul_le_self (S * Z + g - 1) g
  have henough : S * Z ≤ (S * Z + g - 1) / g * g := by
    have h := Nat.div_add_mod (S * Z + g - 1) g
    have hlt := Nat.mod_lt (S * Z + g - 1) hg
    rw [mul_comm] at h
    omega
  have hall {n : Name} (hn : n ∈ ns.all) : ¬ n.Before k := (hns n hn).not_before
  have hthread : ns.thread ∈ ns.all := by simp [MergeNames.all]
  have hover : blockOver (Visible k X s) (fun n => n ∈ q.arrays ++ A) (q.subs.mergeBody q.op.combiner ns count) := by
    refine Subhistograms.mergeBody_over hF hsubsLen hscalars haccs' (fun n hn => by simp [arrays, hn])
      (fun n hn => by simp [arrays, ← hdests, hn]) ?_ ?_ ?_ (hcombine.results_over fun n hn => by simp [hn])
    · exact hq.segments.scope.mono (fun _ h => h) fun _ h => h.elim
    · exact hq.size.scope.mono (fun _ h => h) fun _ h => h.elim
    · exact hcount.scope.mono (fun _ h => h) fun _ h => h.elim
  have hcontains {n : Name} (hn : n ∈ q.arrays ++ A) : s.memory.contains n = true := by
    obtain ⟨p, b, hb⟩ := (List.mem_append.1 hn).elim hready.has fun h => (hA n h).1
    exact hb.contains
  refine Runs.launch (V := Visible k X s) (A := fun n => n ∈ q.arrays ++ A)
    (fun th m => m.Table q.destNames q.op.scalars (S * Z) fun a =>
      if a < th then Copies.merged combine C (Z) T a else D a) hc (hgroups.computes f c)
    (hgroup.computes f c) hmax hover
    (fun n hn => ⟨hn.2.2, fun hm => hn.2.1 ((List.mem_append.1 hm).elim (hX n) (hcombine.arrays n))⟩)
    (fun n hn => hcontains hn) ?_ (hD.congr fun a _ => by simp) ?_
  · intro i j w m hi hjg hI hkeeps hw
    have hth : i * g + j < (S * Z + g - 1) / g * g := by
      have : (i + 1) * g ≤ (S * Z + g - 1) / g * g := Nat.mul_le_mul_right _ hi
      rw [add_mul, one_mul] at this
      omega
    have hthfit : Word64.fits (i * g + j : ℕ) = true := Word64.fits_le hgrid (by omega)
    have hkeeps' : Memory.Keeps q.destNames s.memory m := hkeeps.mono fun n hn => hdests ▸
      Subhistograms.stores_mergeBody hF.body hq.size.arrays hn
    have hsees : Sees k X A s ⟨w, m, s.launched.push name.text⟩ := by
      refine ⟨fun n hn hnX => hw n fun hm => ?_, fun n hn i => (hA n hn).2.read_eq hkeeps' i⟩
      rcases Subhistograms.sets_mergeBody hF.body (blockBinders_subset _ hm) with hm | hm
      · exact hall hm hn
      · exact hnX (hcombine.names n hm).2
    have hTm : m.Table q.subs.subs q.op.scalars (S * C * Z) T :=
      hready.copies.keeps hkeeps' fun n hn w hw p hp hp' => hready.apart hone w hw n hn p hp' hp
    have hid : Computes f (c.inGrid ((S * Z + g - 1) / g) g i j)
        ⟨w, m, s.launched.push name.text⟩ (.atPlace .globalId .x) (i * g + j : ℕ) := .globalId hthfit
    generalize i * g + j = th at hI hth hthfit hid ⊢
    unfold Subhistograms.mergeBody
    refine Runs.bindWord hid ?_
    have hset : Keeps [ns.thread] [] (⟨w, m, s.launched.push name.text⟩ : State)
        (State.set ⟨w, m, s.launched.push name.text⟩ ns.thread (.word th)) := .set (List.mem_singleton_self _) _
    have hsees' := hsees.keeps hset (Nat.le_refl k)
      (fun n hn hb => absurd hb (hall (List.mem_singleton.1 hn ▸ hthread))) fun _ _ _ hw => absurd hw List.not_mem_nil
    have hthread' : (State.set ⟨w, m, s.launched.push name.text⟩ ns.thread (.word th)).vars.get? ns.thread =
        some (.word th) := by rw [State.get?_set, if_pos rfl]
    refine Runs.ifThen (Evals.lt (.ofName hthread' hthfit) ((hrows.sees hsees').computes f _)) (fun hlt => ?_) fun hlt => ?_
    · have hth' : th < S * Z := Int.ofNat_lt.1 (of_decide_eq_true hlt)
      refine (mergeElement_runs (c := c.inGrid _ g i j) hq hcombine rfl hcount hC hlarge hlim haccs hnd hns hsees'
        hthread' hth' hTm hI).mono fun t ht => ht.congr fun a _ => ?_
      by_cases ha : a = th
      · rw [ha, Function.update_self, if_pos (Nat.lt_succ_self _)]
      · rw [Function.update_of_ne ha]
        have hiff : a < th + 1 ↔ a < th := by omega
        simp only [hiff]
    · have hth' : S * Z ≤ th :=
        Nat.le_of_not_lt fun h => of_decide_eq_false hlt (Int.ofNat_lt.2 h)
      refine hI.congr fun a ha => ?_
      rw [if_pos (by omega), if_pos (by omega)]
  · intro t hv hl hkt hI
    refine ⟨hv, hl, hkt.mono fun n hn => hdests ▸ Subhistograms.stores_mergeBody hF.body hq.size.arrays hn, hI.congr fun a ha => ?_⟩
    rw [if_pos (by omega)]

/-- the merge is left out when the copies are the destinations -/
theorem mergeIf_runs {p : Plan} {ns : MergeNames} {count : Expr} {name : Name} {o : Origin} {C g : ℕ}
    {T : ℕ → Tuple q.op.scalars} (hq : q.Sized k X s S Z) (hcombine : q.op.Combines k R A X s combine)
    (hX : ∀ n ∈ q.arrays, n ∈ X) (hc : c.thread = none)
    (hcount : Quantity k X s count C) (hC : 0 < C) (hgroup : Quantity k X s p.groupSize g) (hg : 0 < g)
    (hmax : (g : Int) ≤ c.limits.maxGroupSize)
    (hmerged : C ≠ 1 → Word64.fits (S * C * Z : ℕ) = true ∧ Word64.fits (S * Z + g : ℕ) = true ∧ C ≤ c.rounds + 1)
    (haccs : ns.accs.length = q.op.dests.length) (hnd : ns.all.Nodup) (hns : ∀ n ∈ ns.all, n.Within k k')
    (hready : q.Ready S (Z) C T s.memory)
    (hA : ∀ n ∈ A, (∃ p b, s.memory.Has n p b) ∧ s.memory.Apart q.destNames n) :
    Runs f (Machine.launch c) c [.ifThen (count.ne 1) [(Kernel.make name (q.subs.mergeBody q.op.combiner ns count) []
        [Expr.ceilDiv (q.subs.segments * q.subs.size) p.groupSize] [p.groupSize] o).toStmt .unknown]] s fun t =>
      t.vars = s.vars ∧ Memory.Keeps q.destNames s.memory t.memory ∧
      t.memory.Table q.destNames q.op.scalars (S * Z)
        (Copies.merged combine C (Z) T) := by
  refine Runs.ifThen (Evals.ne (hcount.computes f c) Computes.one) (fun hne => ?_) fun heq => ?_
  · have hone : C ≠ 1 := fun h => of_decide_eq_true hne (by rw [h]; rfl)
    exact (merge_runs hq hcombine hX hc hcount hC hone hgroup hg hmax (hmerged hone).1 (hmerged hone).2.1 (hmerged hone).2.2 haccs
      hnd hns hready hA).mono
      fun t ht => ⟨ht.1, ht.2.2⟩
  · obtain rfl : C = 1 := by
      have h := of_decide_eq_false heq
      omega
    obtain ⟨D, hD⟩ := hready.dests
    have hT := hready.copies
    rw [mul_one] at hT
    refine ⟨rfl, .refl _ _, (hT.rename (by rw [hD.length_eq, hT.length_eq]) fun i n d hn hd =>
      (hready.same rfl i n d hn hd).symm).congr fun a _ => ?_⟩
    rw [Copies.merged_one]

theorem frees_run (hc : c.thread = none) (l : List Name) (hnd : l.Nodup) (hbound : ∀ n ∈ l, s.memory.contains n = true) :
    Runs f L c (l.map fun n => .free n .unknown) s fun t => t.vars = s.vars ∧ t.memory.buffers = s.memory.buffers ∧
      (∀ n ∉ l, t.memory.names.get? n = s.memory.names.get? n) ∧ ∀ n ∈ l, t.memory.names.get? n = none := by
  induction l generalizing s with
  | nil => exact Runs.nil ⟨rfl, rfl, fun _ _ => rfl, fun _ hn => absurd hn List.not_mem_nil⟩
  | cons n l ih =>
    rw [List.nodup_cons] at hnd
    have hkeep {x : Name} (hx : x ≠ n) : (s.memory.names.erase n).get? x = s.memory.names.get? x := by
      rw [Bindings.get?_erase, if_neg hx.symm]
    refine Runs.free hc (hbound n (List.mem_cons_self ..)) ((ih hnd.2 fun x hx => ?_).mono ?_)
    · have h := hbound x (List.mem_cons_of_mem n hx)
      unfold Memory.contains Bindings.contains at h ⊢
      rw [hkeep fun he => hnd.1 (he ▸ hx)]
      exact h
    · rintro t ⟨hv, hb, hrest, hgone⟩
      refine ⟨hv, hb, fun x hx => ?_, fun x hx => ?_⟩
      · simp only [List.mem_cons, not_or] at hx
        rw [hrest x hx.2]
        exact hkeep hx.1
      · rcases List.mem_cons.1 hx with rfl | hx
        · rw [hrest x hnd.1]
          simp
        · exact hgone x hx

/-- arrays of copies that are not the destinations are freed; if they are, nothing happens -/
theorem release_runs {count : Expr} {C : ℕ} {D : ℕ → Tuple q.op.scalars} {len : ℕ} (hc : c.thread = none)
    (hcount : Computes f c s count C) (hnd : q.subs.subs.Nodup) (hdisj : ∀ n ∈ q.destNames, n ∉ q.subs.subs)
    (hbound : ∀ n ∈ q.subs.subs, s.memory.contains n = true) (hD : s.memory.Table q.destNames q.op.scalars len D) :
    Runs f L c [q.subs.release count] s fun t => t.vars = s.vars ∧ Memory.Frames q.arrays q.arrays s.memory t.memory ∧
      (∀ n p, t.memory.names.get? n = some p → s.memory.names.get? n = some p) ∧
      t.memory.Table q.destNames q.op.scalars len D ∧
      (C ≠ 1 → ∀ n ∈ q.subs.subs, t.memory.names.get? n = none) ∧ (C = 1 → t = s) := by
  unfold Subhistograms.release
  refine Runs.ifThen (Evals.ne hcount Computes.one) (fun hne => ?_) fun heq =>
    ⟨rfl, .refl _ _, fun _ _ h => h, hD, fun h => absurd (of_decide_eq_false heq) (by simpa using h), fun _ => rfl⟩
  refine (frees_run hc _ hnd hbound).mono ?_
  rintro t ⟨hv, hb, hrest, hgone⟩
  refine ⟨hv, fun n p b hn hap hbn => ?_, fun n p hn => ?_, ⟨hD.length_eq, fun i n sc hn hsc => ?_, ?_⟩, fun _ => hgone,
    fun h => absurd (congrArg (Nat.cast (R := Int)) h) (of_decide_eq_true hne)⟩
  · have hname := hrest n fun hm => hn (List.mem_append_left _ hm)
    refine ⟨⟨hname.trans hbn.name, by rw [hb]; exact hbn.buffer⟩, fun w hw p' hp hp' => ?_⟩
    rw [hname] at hp
    by_cases hw' : w ∈ q.subs.subs
    · rw [hgone w hw'] at hp'
      cases hp'
    · rw [hrest w hw'] at hp'
      exact hap w hw p' hp hp'
  · by_cases hm : n ∈ q.subs.subs
    · rw [hgone n hm] at hn
      cases hn
    · rwa [hrest n hm] at hn
  · obtain ⟨p, b, hbn, hrest'⟩ := hD.column i n sc hn hsc
    exact ⟨p, b, ⟨(hrest n (hdisj n (List.mem_of_getElem? hn))).trans hbn.name, by rw [hb]; exact hbn.buffer⟩, hrest'⟩
  · refine List.Pairwise.imp_of_mem (fun {n n'} hn hn' hnn p hp hp' => ?_) hD.unaliased
    rw [hrest n (hdisj n hn)] at hp
    rw [hrest n' (hdisj n' hn')] at hp'
    exact hnn p hp hp'

end Part

/-! ## All operators -/

theorem merge_spec (p : Plan) (q : Part) (count : Expr) (k : ℕ) : ∃ (ns : MergeNames) (name : Name) (o : Origin) (k₁ : ℕ),
    p.merge q count k = (.ifThen (count.ne 1) [(Kernel.make name (q.subs.mergeBody q.op.combiner ns count) []
      [Expr.ceilDiv (q.subs.segments * q.subs.size) p.groupSize] [p.groupSize] o).toStmt .unknown], k₁ + 1) ∧ k ≤ k₁ ∧
    ns.accs.length = q.subs.dests.length ∧ ns.all.Nodup ∧ ∀ n ∈ ns.all, n.Within k k₁ := by
  obtain ⟨ns, k₁, hns, hk, hlen, hnd, hin⟩ := mergeNames_create q.subs.dests k
  refine ⟨ns, ⟨p.hist.name ++ "_fold", some k₁⟩, p.hist.origin.within "subhistogram fold", k₁, ?_, hk, hlen, hnd, hin⟩
  unfold Plan.merge
  change (let r := MergeNames.create q.subs.dests k
    let r' := p.kernel "_fold" "subhistogram fold" (q.subs.mergeBody q.op.combiner r.1 count) []
      (Expr.ceilDiv (q.subs.segments * q.subs.size) p.groupSize) r.2
    ((Stmt.ifThen (count.ne 1) [r'.1.toStmt .unknown], r'.2) : Stmt × ℕ)) = _
  rw [hns]
  rfl

/-- **All operators.** Their copies are merged into the destinations, and their arrays of copies are freed. -/
theorem finish_works {h : Histogram} {M : Histogram.Meaning} {R : List Name} {k₀ g : ℕ} (count : Part → ℕ) {p : Plan}
    {T : (q : Part) → ℕ → Tuple q.op.scalars} (hr : h.Regular k₀ R A) (hc : c.thread = none) (hg : 0 < g)
    (hmax : (g : Int) ≤ c.limits.maxGroupSize) (hkk : k₀ ≤ k) (l : List (Part × Expr))
    (hq : ∀ a ∈ l, a.1.Stands h M k X s ∧ Quantity k X s a.2 (count a.1) ∧ 0 < count a.1 ∧
      Word64.fits (M.segments * count a.1 * M.size a.1.op : ℕ) = true ∧
      (count a.1 ≠ 1 → Word64.fits (M.segments * M.size a.1.op + g : ℕ) = true ∧ count a.1 ≤ c.rounds + 1) ∧
      a.1.subs.subs.Nodup ∧
      (∀ n ∈ a.1.destNames, n ∉ a.1.subs.subs) ∧ ∀ n ∈ a.1.arrays, n ∈ X)
    (hgroup : Quantity k X s p.groupSize g) (hs : h.Scope k R A X s) (hM : h.Means M k X A s)
    (hready : ∀ a ∈ l, a.1.Ready M.segments (M.size a.1.op) (count a.1) (T a.1) s.memory)
    (hdistinct : l.Pairwise fun a b => a.1.Distinct b.1) (hsep : l.Pairwise fun a b => Part.Separate s.memory a.1 b.1)
    (hA : Readable A (l.flatMap fun a => a.1.arrays) (l.flatMap fun a => a.1.arrays) s.memory) :
    Works f (Machine.launch c) c (p.finish l) k s fun _ _ t =>
      (∀ a ∈ l, t.memory.Table a.1.destNames a.1.op.scalars (M.segments * M.size a.1.op)
        (Copies.merged (M.combine a.1.op) (count a.1) (M.size a.1.op) (T a.1))) ∧
      Memory.Frames (l.flatMap fun a => a.1.arrays) (l.flatMap fun a => a.1.arrays) s.memory t.memory ∧
      ∀ n p, t.memory.names.get? n = some p → s.memory.names.get? n = some p := by
  induction l generalizing k s with
  | nil => exact Works.pure ⟨(fun _ ha => absurd ha List.not_mem_nil), .refl _ _, fun _ _ h => h⟩
  | cons a l ih =>
    obtain ⟨q, count'⟩ := a
    rw [List.pairwise_cons] at hdistinct hsep
    obtain ⟨hst, hcount, hpos, hlarge, hmerged, hnd, hdisj, hX⟩ := hq _ (List.mem_cons_self ..)
    have hreadyq := hready _ (List.mem_cons_self ..)
    simp only [List.flatMap_cons] at hA ⊢
    have hAq : Readable A q.arrays q.arrays s.memory :=
      hA.mono (List.subset_append_left _ _) (List.subset_append_left _ _)
    obtain ⟨ns, name, o, k₁, hmerge, hk₁, haccs, hnsnd, hns⟩ := merge_spec p q count' k
    rw [Plan.finish]
    refine Works.emit (congrArg some hmerge) (by omega) ((Part.mergeIf_runs hst.sized (hs.combines hr hkk hM hst.op_mem) hX hc hcount hpos hgroup hg
      hmax (fun h => ⟨hlarge, hmerged h⟩) (by rw [haccs, hst.dests]) hnsnd hns hreadyq fun n hn =>
        ⟨(hA n hn).1, ((hAq n hn).2.2).mono (List.subset_append_right _ _)⟩).mono ?_)
    rintro t ⟨hv, hk, hT⟩
    have hframe : Frame k s t := fun n _ => by rw [hv]
    have hboundt (n : Name) (hn : n ∈ q.subs.subs) : t.memory.contains n = true := by
      obtain ⟨p', b, hb⟩ := hreadyq.copies.has hn
      rw [hk.contains_eq, hb.contains]
    refine ⟨hframe, Works.bind (Q := fun _ _ u => u.vars = t.vars ∧ Memory.Frames q.arrays q.arrays t.memory u.memory ∧
      (∀ n p, u.memory.names.get? n = some p → t.memory.names.get? n = some p) ∧
      u.memory.Table q.destNames q.op.scalars (M.segments * M.size q.op)
        (Copies.merged (M.combine q.op) (count q) (M.size q.op) (T q)))
      (Works.stmt ((Part.release_runs hc ((hcount.frame (Nat.le_refl k) hframe).computes f c) hnd hdisj hboundt hT).mono
        fun u hu => ⟨fun n _ => by rw [hu.1], hu.1, hu.2.1, hu.2.2.1, hu.2.2.2.1⟩)) ?_⟩
    rintro _ k₂ u hk₂ hf₂ ⟨hvu, hfu, hshrink, hTu⟩
    have hf : Frame k s u := fun n _ => by rw [hvu, hv]
    have hkk₂ : k ≤ k₂ := by omega
    have hframes : Memory.Frames q.arrays q.arrays s.memory u.memory :=
      (hk.mono (List.subset_append_right _ _)).frames.trans hfu (List.Subset.refl _)
    -- what the later operators need is left alone
    have hlater {b : Part × Expr} (hb : b ∈ l) {n : Name} (hn : n ∈ b.1.arrays) : n ∉ q.arrays ∧ s.memory.Apart q.arrays n :=
      ⟨hdistinct.1 b hb n hn, hsep.1 b hb n hn⟩
    have hname {b : Part × Expr} (hb : b ∈ l) {n : Name} (hn : n ∈ b.1.arrays) :
        u.memory.names.get? n = s.memory.names.get? n ∧ u.memory.Apart q.arrays n := by
      obtain ⟨p', b', hb'⟩ := (hready b (List.mem_cons_of_mem _ hb)).has hn
      obtain ⟨h1, h2⟩ := hframes n p' b' (hlater hb hn).1 (hlater hb hn).2 hb'
      exact ⟨by rw [h1.name, hb'.name], h2⟩
    have hAu : Readable A (l.flatMap fun a => a.1.arrays) (l.flatMap fun a => a.1.arrays) u.memory := fun n hn => by
      obtain ⟨⟨p', b, hb⟩, hW, hap⟩ := hA n hn
      rw [List.mem_append, not_or] at hW
      have hb' := (hframes n p' b hW.1 (hap.mono (List.subset_append_left _ _)) hb).1
      refine ⟨⟨p', b, hb'⟩, hW.2, (hap.mono (List.subset_append_right _ _)).of_names (by rw [hb'.name, hb.name]) ?_⟩
      intro w hw
      obtain ⟨b, hb, hw⟩ := List.mem_flatMap.1 hw
      exact (hname hb hw).1
    refine (ih (k := k₂) (s := u) (hkk.trans hkk₂) (fun b hb => ?_) (hgroup.frame hkk₂ hf) (hs.keep hkk₂ hf)
      (hM.later (hAq.sees hf hframes) hkk₂) (fun b hb => ?_) hdistinct.2 ?_ hAu).mono ?_
    · obtain ⟨h1, h2, h3⟩ := hq b (List.mem_cons_of_mem _ hb)
      exact ⟨h1.keep hkk₂ fun n hn _ => hf n hn, h2.frame hkk₂ hf, h3⟩
    · exact (hready b (List.mem_cons_of_mem _ hb)).frames hframes fun n hn => hlater hb hn
    · refine List.Pairwise.imp_of_mem (fun {a b} ha hb hab n hn => ?_) hsep.2
      exact (hab n hn).of_names (hname hb hn).1 fun w hw => (hname ha hw).1
    · rintro _ k₃ v - - ⟨hTv, hfv, hshrinkv⟩
      have hhead {n : Name} (hn : n ∈ q.destNames) : n ∉ (l.flatMap fun a => a.1.arrays) ∧
          u.memory.Apart (l.flatMap fun a => a.1.arrays) n := by
        refine ⟨fun hm => ?_, fun w hw p' hp hp' => ?_⟩
        · obtain ⟨b, hb, hm⟩ := List.mem_flatMap.1 hm
          exact hdistinct.1 b hb n hm (List.mem_append_right _ hn)
        · obtain ⟨b, hb, hw⟩ := List.mem_flatMap.1 hw
          exact (hname hb hw).2 n (List.mem_append_right _ hn) p' hp' hp
      -- no name is given to a buffer
      have hnames (n : Name) (p' : ℕ) (hp : v.memory.names.get? n = some p') : s.memory.names.get? n = some p' := by
        rw [← hk.names]
        exact hshrink n p' (hshrinkv n p' hp)
      refine ⟨fun b hb => ?_, fun n p' b hn hap hb => ?_, hnames⟩
      · rcases List.mem_cons.1 hb with rfl | hb
        · exact hTu.frames hfv fun n hn => hhead hn
        · exact hTv b hb
      · rw [List.mem_append, not_or] at hn
        obtain ⟨h1, h2⟩ := hframes n p' b hn.1 (hap.mono (List.subset_append_left _ _)) hb
        have h3 : u.memory.Apart (l.flatMap fun a => a.1.arrays) n :=
          (hap.mono (List.subset_append_right _ _)).of_names (by rw [h1.name, hb.name]) fun w hw => by
            obtain ⟨b, hb, hw⟩ := List.mem_flatMap.1 hw
            exact (hname hb hw).1
        exact ⟨(hfv n p' b hn.2 h3 h1).1, fun w hw i hi hi' => hap w hw i (hnames n i hi) (hnames w i hi')⟩

end GpuHistogram
