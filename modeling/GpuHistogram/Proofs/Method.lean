/-
The update an operator is given. `chooseMethodsFrom_spec` says which methods are chosen and that one lock table at most is
made for them; `IsUpdate` says what code is generated for a method, and `IsUpdate.combines`, for all methods at once,
that this code stores at an address what the combiner gives for the tuple there and given values.
-/
import GpuHistogram.Proofs.Generate
import GpuHistogram.Proofs.Update

namespace GpuHistogram

open Machine

/-! ## Choosing methods -/

/-- the method fits the operator, and if it takes locks they are those of the table -/
def UpdateMethod.Suits (op : Operator) (table : Option LockTable) : UpdateMethod → Prop
  | .primitive a => op.primitive? = some a
  | .compareSwap s => op.swappable? = some s
  | .locked t => table = some t

/-- the table is an old one, or a new one if there was none -/
def LockTable.Extends (count : Expr) (space : Space) (k k' : ℕ) (old new : Option LockTable) : Prop :=
  new = old ∨ (old = none ∧ ∃ n : Name, n.Within k k' ∧ new = some ⟨n, count, space⟩)

theorem LockTable.Extends.of_some {count : Expr} {space : Space} {k k' : ℕ} {t : LockTable} {new : Option LockTable}
    (h : Extends count space k k' (some t) new) : new = some t := by
  rcases h with h | ⟨h, -⟩
  · exact h
  · cases h

theorem chooseMethod_spec (op : Operator) (table : Option LockTable) (count : Expr) (space : Space) (k : ℕ) :
    ∃ table' method k', op.chooseMethod table (LockTable.create count space) k = ((table', method), k') ∧ k ≤ k' ∧
      LockTable.Extends count space k k' table table' ∧ method.Suits op table' := by
  unfold Operator.chooseMethod
  cases hp : op.primitive? with
  | some a => exact ⟨_, _, k, rfl, Nat.le_refl k, .inl rfl, hp⟩
  | none =>
    cases hs : op.swappable? with
    | some s => exact ⟨_, _, k, rfl, Nat.le_refl k, .inl rfl, hs⟩
    | none =>
      cases table with
      | some t => exact ⟨_, _, k, rfl, Nat.le_refl k, .inl rfl, rfl⟩
      | none =>
        exact ⟨_, _, k + 1, rfl, Nat.le_succ k,
          .inr ⟨rfl, _, Name.within_mk "locks" (Nat.le_refl k) (Nat.lt_succ_self k), rfl⟩, rfl⟩

theorem chooseMethodsFrom_spec (count : Expr) (space : Space) (ops : List Operator) (table : Option LockTable) (k : ℕ) :
    ∃ table' methods k', chooseMethodsFrom table (LockTable.create count space) ops k = ((table', methods), k') ∧
      k ≤ k' ∧ methods.length = ops.length ∧ LockTable.Extends count space k k' table table' ∧
      ∀ x ∈ ops.zip methods, x.2.Suits x.1 table' := by
  induction ops generalizing table k with
  | nil => exact ⟨table, [], k, rfl, Nat.le_refl k, rfl, .inl rfl, fun x hx => absurd hx List.not_mem_nil⟩
  | cons op ops ih =>
    obtain ⟨t₁, method, k₁, h₁, hk₁, he₁, hs₁⟩ := chooseMethod_spec op table count space k
    obtain ⟨t₂, methods, k₂, h₂, hk₂, hlen, he₂, hs₂⟩ := ih t₁ k₁
    refine ⟨t₂, method :: methods, k₂, ?_, hk₁.trans hk₂, by simp [hlen], ?_, fun x hx => ?_⟩
    · rw [chooseMethodsFrom]
      change (let r := op.chooseMethod table (LockTable.create count space) k
        let r' := chooseMethodsFrom r.1.1 (LockTable.create count space) ops r.2
        (((r'.1.1, r.1.2 :: r'.1.2) : Option LockTable × List UpdateMethod), r'.2)) = _
      rw [h₁]
      change (let r' := chooseMethodsFrom t₁ (LockTable.create count space) ops k₁
        (((r'.1.1, method :: r'.1.2) : Option LockTable × List UpdateMethod), r'.2)) = _
      rw [h₂]
    · rcases he₁ with rfl | ⟨rfl, n, hn, rfl⟩
      · rcases he₂ with rfl | ⟨rfl, n, hn, rfl⟩
        · exact .inl rfl
        · exact .inr ⟨rfl, n, hn.mono hk₁ (Nat.le_refl _), rfl⟩
      · exact .inr ⟨rfl, n, hn.mono (Nat.le_refl _) hk₂, he₂.of_some⟩
    · rcases List.mem_cons.1 hx with rfl | hx
      · cases method with
        | primitive a => exact hs₁
        | compareSwap s => exact hs₁
        | locked t =>
          obtain rfl : t₁ = some t := hs₁
          exact he₂.of_some
      · exact hs₂ x hx

/-- an operator needs a lock where a table of locks is made -/
theorem needsLock_of_chooseMethods (create : Fresh LockTable) (ops : List Operator) (k : ℕ)
    (h : (chooseMethodsFrom none create ops k).1.1.isSome = true) : ops.any Operator.needsLock = true := by
  induction ops generalizing k with
  | nil => cases h
  | cons op ops ih =>
    rw [List.any_cons, Bool.or_eq_true]
    cases hop : op.needsLock with
    | true => exact .inl rfl
    | false =>
      refine .inr (ih k ?_)
      have hchoose : ∃ m, op.chooseMethod none create k = ((none, m), k) := by
        unfold Operator.needsLock at hop
        unfold Operator.chooseMethod
        cases hp : op.primitive? with
        | some a => exact ⟨_, rfl⟩
        | none =>
          cases hs : op.swappable? with
          | some s => exact ⟨_, rfl⟩
          | none => simp [hp, hs] at hop
      obtain ⟨m, hm⟩ := hchoose
      change (chooseMethodsFrom (op.chooseMethod none create k).1.1 create ops (op.chooseMethod none create k).2).1.1.isSome = true at h
      rwa [hm] at h

/-! ## The code of a method -/

/-- the code that a method generates, with variables drawn between two symbols -/
inductive Operator.IsUpdate (op : Operator) (sp : Space) (targets : List Name) (addr : Expr) (values : List Expr)
    (k : ℕ) : UpdateMethod → Stmt → ℕ → Prop where
  | primitive {a : Atomic} {sc : Scalar} {n : Name} {v : Expr} (hop : op.primitive? = some a) (hsc : op.scalars = [sc])
    (ht : targets = [n]) (hv : values = [v]) :
    op.IsUpdate sp targets addr values k (.primitive a) (.block (primitiveUpdate a sp sc n addr v)) k
  | compareSwap {sc : Scalar} {n : Name} {v : Expr} {ns : CasNames} (hop : op.swappable? = some sc)
    (hsc : op.scalars = [sc]) (ht : targets = [n]) (hv : values = [v]) (hnd : ns.all.Nodup)
    (hns : ∀ m ∈ ns.all, m.Within k (k + 6)) :
    op.IsUpdate sp targets addr values k (.compareSwap sc) (.block (casLoop ns sc sp op.combiner n addr v)) (k + 6)
  | locked {t : LockTable} {ns : LockNames} (hys : ns.ys.length = values.length) (hxs : ns.xs.length = values.length)
    (hnd : ns.all.Nodup) (hns : ∀ m ∈ ns.all, m.Within k (k + 4 + values.length + values.length)) :
    op.IsUpdate sp targets addr values k (.locked t) (.block (lockedUpdate ns t sp op targets addr values))
      (k + 4 + values.length + values.length)

theorem Operator.length_scalars (op : Operator) : op.scalars.length = op.dests.length := by
  simp [scalars]

theorem Operator.scalars_of_primitive? {op : Operator} {a : Atomic} (h : op.primitive? = some a) :
    ∃ d, op.dests = [d] := by
  unfold primitive? at h
  split at h
  · rename_i d _ _ _ _ _ hd _ _
    exact ⟨d, hd⟩
  · cases h

theorem Operator.scalars_of_swappable? {op : Operator} {s : Scalar} (h : op.swappable? = some s) :
    ∃ d, op.dests = [d] ∧ d.elem = s ∧ (s.bytes = 4 ∨ s.bytes = 8) := by
  unfold swappable? at h
  split at h
  · rename_i d hd
    split at h
    · rename_i hb
      cases h
      exact ⟨d, hd, rfl, hb⟩
    · cases h
  · cases h

theorem Operator.isInteger_of_swappable? {op : Operator} {s : Scalar} (h : op.swappable? = some s)
    (hs : s.isFloat = false) : s.isInteger = true := by
  obtain ⟨_, -, -, hb⟩ := op.scalars_of_swappable? h
  cases s <;> simp_all [Scalar.isFloat, Scalar.bytes, Scalar.isInteger, Scalar.isSigned, Scalar.isUnsigned]

theorem casNames_create (k : ℕ) : ∃ ns : CasNames, CasNames.create k = (ns, k + 6) ∧ ns.all.Nodup ∧
    ∀ m ∈ ns.all, m.Within k (k + 6) := by
  refine ⟨_, rfl, ?_, fun m hm => ?_⟩
  · simp [CasNames.all]
  · simp only [CasNames.all, List.mem_cons, List.not_mem_nil, or_false] at hm
    rcases hm with rfl | rfl | rfl | rfl | rfl | rfl <;> exact Name.within_mk _ (by omega) (by omega)

theorem lockNames_create (count k : ℕ) : ∃ ns : LockNames, LockNames.create count k = (ns, k + 4 + count + count) ∧
    ns.ys.length = count ∧ ns.xs.length = count ∧ ns.all.Nodup ∧ ∀ m ∈ ns.all, m.Within k (k + 4 + count + count) := by
  have hys := mapM_fresh (fun t : String => t) (List.replicate count "y") (k + 4)
  have hxs := mapM_fresh (fun t : String => t) (List.replicate count "x") (k + 4 + count)
  simp only [List.map_id', List.length_replicate] at hys hxs
  refine ⟨⟨⟨"idx", some k⟩, ⟨"lock", some (k + 1)⟩, ⟨"prev", some (k + 2)⟩, ⟨"done", some (k + 3)⟩,
    freshNames (List.replicate count "y") (k + 4), freshNames (List.replicate count "x") (k + 4 + count)⟩,
    ?_, by simp [length_freshNames], by simp [length_freshNames], ?_, fun m hm => ?_⟩
  · change (let r := (List.replicate count "y").mapM fresh (k + 4)
      let r' := (List.replicate count "x").mapM fresh r.2
      ((⟨⟨"idx", some k⟩, ⟨"lock", some (k + 1)⟩, ⟨"prev", some (k + 2)⟩, ⟨"done", some (k + 3)⟩, r.1, r'.1⟩ : LockNames),
        r'.2)) = _
    rw [hys]
    dsimp only
    rw [hxs]
  · have hy (m : Name) (hm : m ∈ freshNames (List.replicate count "y") (k + 4)) : m.Within (k + 4) (k + 4 + count) := by
      have h := within_freshNames hm
      rwa [List.length_replicate] at h
    have hx (m : Name) (hm : m ∈ freshNames (List.replicate count "x") (k + 4 + count)) :
        m.Within (k + 4 + count) (k + 4 + count + count) := by
      have h := within_freshNames hm
      rwa [List.length_replicate] at h
    refine List.nodup_append.2 ⟨by simp, List.nodup_append.2 ⟨nodup_freshNames _ _, nodup_freshNames _ _, ?_⟩, ?_⟩
    · exact fun a ha b hb => (hy a ha).before.ne (hx b hb)
    · intro a ha b hb
      have hb' : b.Within (k + 4) (k + 4 + count + count) := by
        rcases List.mem_append.1 hb with hb | hb
        · exact (hy b hb).mono (Nat.le_refl _) (by omega)
        · exact (hx b hb).mono (by omega) (Nat.le_refl _)
      have ha' : a.Before (k + 4) := by
        simp only [List.mem_cons, List.not_mem_nil, or_false] at ha
        rcases ha with rfl | rfl | rfl | rfl <;> intro j hj <;> cases hj <;> omega
      exact ha'.ne hb'
  · simp only [LockNames.all, List.mem_append, List.mem_cons, List.not_mem_nil, or_false] at hm
    rcases hm with (rfl | rfl | rfl | rfl) | hm | hm
    · exact Name.within_mk _ (by omega) (by omega)
    · exact Name.within_mk _ (by omega) (by omega)
    · exact Name.within_mk _ (by omega) (by omega)
    · exact Name.within_mk _ (by omega) (by omega)
    · have h := within_freshNames hm
      rw [List.length_replicate] at h
      exact h.mono (by omega) (by omega)
    · have h := within_freshNames hm
      rw [List.length_replicate] at h
      exact h.mono (by omega) (by omega)

/-- code is generated for every method that suits the operator -/
theorem updateCode_spec (op : Operator) {method : UpdateMethod} {table : Option LockTable} (hm : method.Suits op table)
    (sp : Space) {targets : List Name} (addr : Expr) {values : List Expr} (ht : targets.length = op.dests.length)
    (hv : values.length = op.dests.length) (k : ℕ) :
    ∃ u k', op.updateCode method sp targets addr values k = some (u, k') ∧
      op.IsUpdate sp targets addr values k method u k' := by
  cases method with
  | primitive a =>
    obtain ⟨d, hd⟩ := op.scalars_of_primitive? hm
    rw [hd, List.length_singleton, List.length_eq_one_iff] at ht hv
    obtain ⟨n, rfl⟩ := ht
    obtain ⟨v, rfl⟩ := hv
    refine ⟨_, k, ?_, .primitive hm (by rw [Operator.scalars, hd]; rfl) rfl rfl⟩
    unfold Operator.updateCode
    rw [hd]
    rfl
  | compareSwap s =>
    obtain ⟨d, hd, rfl, -⟩ := op.scalars_of_swappable? hm
    rw [hd, List.length_singleton, List.length_eq_one_iff] at ht hv
    obtain ⟨n, rfl⟩ := ht
    obtain ⟨v, rfl⟩ := hv
    obtain ⟨ns, hns, hnd, hw⟩ := casNames_create k
    refine ⟨_, _, ?_, .compareSwap hm (by rw [Operator.scalars, hd]; rfl) rfl rfl hnd hw⟩
    unfold Operator.updateCode
    rw [hd]
    change some ((let r := CasNames.create k
      (.block (casLoop r.1 d.elem sp op.combiner n addr v), r.2)) : Stmt × ℕ) = _
    rw [hns]
  | locked t =>
    obtain ⟨ns, hns, hys, hxs, hnd, hw⟩ := lockNames_create values.length k
    refine ⟨_, _, ?_, .locked hys hxs hnd hw⟩
    unfold Operator.updateCode
    change some ((let r := LockNames.create values.length k
      (.block (lockedUpdate r.1 t sp op targets addr values), r.2)) : Stmt × ℕ) = _
    rw [hns]

/-! ## What the code touches -/

theorem Combiner.sets_apply {F : Combiner} (hF : F.body = []) {args : List Expr} {outs : List Name} {n : Name}
    (hn : n ∈ (F.apply args outs).uses .sets) : n ∈ F.names ∨ n ∈ outs := by
  simp only [apply, hF, List.append_nil, Stmt.block, Stmt.uses, blockUses_append, blockUses_map, Stmt.bind, Stmt.store,
    Use.among, Expr.scalarVar, Expr.typed, Expr.settable, Expr.reads, List.mem_append, List.mem_flatMap,
    List.mem_singleton] at hn
  rcases hn with ⟨⟨p, arg⟩, ha, rfl⟩ | ⟨⟨⟨e, out⟩, p⟩, ha, rfl⟩
  · exact .inl (List.mem_map_of_mem (List.of_mem_zip ha).1)
  · exact .inr (List.of_mem_zip (List.of_mem_zip ha).1).2

theorem Combiner.stores_apply {F : Combiner} (hF : F.body = []) (args : List Expr) (outs : List Name) :
    (F.apply args outs).uses .stores = [] := by
  simp [apply, hF, Stmt.block, Stmt.uses, blockUses_map, Stmt.bind, Stmt.store, Use.among, Expr.scalarVar, Expr.typed,
    Expr.reads]

/-- the names of a table of locks, if there is one -/
def lockNames (table : Option LockTable) : List Name := table.toList.map (·.name)

namespace Operator.IsUpdate

variable {op : Operator} {sp : Space} {targets : List Name} {addr : Expr} {values : List Expr} {k k' : ℕ}
  {method : UpdateMethod} {u : Stmt} {table : Option LockTable}

theorem le (h : op.IsUpdate sp targets addr values k method u k') : k ≤ k' := by
  cases h <;> omega

/-- an update sets its own variables and the parameters of the combiner -/
theorem sets (h : op.IsUpdate sp targets addr values k method u k') (hF : op.combiner.body = []) {n : Name}
    (hn : n ∈ u.uses .sets) : n.Within k k' ∨ n ∈ op.combiner.names := by
  cases h with
  | primitive => simp [Stmt.block, primitiveUpdate, Stmt.uses, Use.among] at hn
  | @compareSwap sc m v ns _ _ _ _ _ hns =>
    simp only [Stmt.block, casLoop, casAttempt, Stmt.uses, blockUses_cons, blockUses_nil, Stmt.bind, Stmt.update,
      Stmt.store, Use.among, Expr.typed, Expr.settable, Expr.reads, List.mem_append, List.mem_singleton,
      List.not_mem_nil, false_or, or_false] at hn
    have hin (m : Name) (hm : m ∈ ns.all) : m.Within k (k + 6) ∨ m ∈ op.combiner.names := .inl (hns m hm)
    rcases hn with rfl | rfl | rfl | rfl | rfl | hn | rfl | rfl | rfl
    any_goals (refine hin _ ?_; simp [CasNames.all]; done)
    rcases Combiner.sets_apply hF hn with hn | hn
    · exact .inr hn
    · exact hin _ (by simp only [List.mem_singleton] at hn; simp [hn, CasNames.all])
  | @locked t ns hys hxs hnd hns =>
    simp only [Stmt.block, lockedUpdate, lockAttempt, criticalSection, Stmt.ifThen, Stmt.uses, blockUses_cons,
      blockUses_nil, blockUses_append, blockUses_map, Stmt.bind, Stmt.update, Stmt.store, Use.among, Expr.typed,
      Expr.element, Expr.settable, Expr.reads, Option.toList, List.mem_append, List.mem_singleton, List.mem_flatMap,
      List.not_mem_nil, false_or, or_false, and_false, exists_false] at hn
    have hin (m : Name) (hm : m ∈ ns.all) : m.Within k (k + 4 + values.length + values.length) ∨
      m ∈ op.combiner.names := .inl (hns m hm)
    rcases hn with (rfl | ⟨p, hp, rfl⟩) | rfl | rfl | rfl | (⟨p, hp, rfl⟩ | hn) | rfl
    any_goals (refine hin _ ?_; simp [LockNames.all]; done)
    · exact hin _ (by simp [LockNames.all, (List.of_mem_zip hp).1])
    · exact hin _ (by simp [LockNames.all, (List.of_mem_zip hp).1])
    · rcases Combiner.sets_apply hF hn with hn | hn
      · exact .inr hn
      · exact hin _ (by simp [LockNames.all, hn])

/-- an update stores to its targets, and to its locks -/
theorem stores (h : op.IsUpdate sp targets addr values k method u k') (hF : op.combiner.body = [])
    (hm : method.Suits op table) {n : Name} (hn : n ∈ u.uses .stores) : n ∈ targets ∨ n ∈ lockNames table := by
  cases h with
  | primitive hop hsc ht hv =>
    simp only [Stmt.block, primitiveUpdate, Stmt.uses, blockUses_cons, blockUses_nil, Use.among, List.append_nil] at hn
    exact .inl (ht ▸ hn)
  | compareSwap hop hsc ht hv hnd hns =>
    simp only [Stmt.block, casLoop, casAttempt, Stmt.uses, blockUses_cons, blockUses_nil, Stmt.bind, Stmt.update,
      Stmt.store, Use.among, Expr.typed, Expr.reads, Combiner.stores_apply hF, List.append_nil, List.nil_append] at hn
    exact .inl (ht ▸ hn)
  | @locked t ns hys hxs hnd hns =>
    obtain rfl : table = some t := hm
    simp only [Stmt.block, lockedUpdate, lockAttempt, criticalSection, Stmt.ifThen, Stmt.uses, blockUses_cons,
      blockUses_nil, blockUses_append, blockUses_map, Stmt.bind, Stmt.update, Stmt.store, Use.among, Expr.typed,
      Expr.element, Expr.ofName, Expr.reads, Combiner.stores_apply hF, List.mem_append, List.mem_singleton,
      List.mem_flatMap, List.not_mem_nil, false_or, or_false, and_false, exists_false] at hn
    rcases hn with rfl | ⟨p, hp, rfl⟩ | rfl
    · exact .inr (by simp [lockNames])
    · exact .inl (List.of_mem_zip (List.of_mem_zip hp).2).1
    · exact .inr (by simp [lockNames])

end Operator.IsUpdate

/-! ## What the code does -/

section Performs

variable {f : Form} {c : Context} {s : State} {F : Combiner} {sc : Scalar} {a : Atomic}

theorem Expr.isVar_iff {n : Name} {e : Expr} : e.isVar n = true ↔ ∃ ty o, e = .var n ty o := by
  cases e <;> simp [Expr.isVar]

theorem Binary.binary?_of_atomic? {b : Binary} {s : Scalar} (h : b.atomic? s = some a) : a.binary? = some b := by
  cases b <;> simp only [Binary.atomic?, reduceCtorEq, Option.some.injEq] at h <;> subst h <;> try rfl
  all_goals
    cases s.isSigned <;> rfl

/-- an operator that is a machine operation does not depend on the order of two integers -/
theorem Binary.eval_comm_of_atomic? {b : Binary} (h : b.atomic? sc = some a) (hsc : sc.isInteger = true) {u v : Value}
    (hu : u.Fits sc) (hv : v.Fits sc) : b.eval u v sc = b.eval v u sc := by
  obtain ⟨i, rfl, -⟩ := hu.of_isInteger hsc
  obtain ⟨j, rfl, -⟩ := hv.of_isInteger hsc
  change b.evalInt i j sc = b.evalInt j i sc
  cases b <;> simp only [Binary.atomic?, reduceCtorEq] at h
  · simp only [evalInt, Int.add_comm]
  · simp only [evalInt, wideBits, BitVec.and_comm]
  · simp only [evalInt, wideBits, BitVec.or_comm]
  · simp only [evalInt, wideBits, BitVec.xor_comm]
  · have hmax : (if i < j then j else i) = if j < i then i else j := by split_ifs <;> omega
    simp only [evalInt, hmax]
  · have hmin : (if j < i then j else i) = if i < j then i else j := by split_ifs <;> omega
    simp only [evalInt, hmin]

/-- an operator on two variables is folded to itself -/
theorem Expr.fold_binary_var (b : Binary) (n m : Name) (t t' ty : Ty) (o o' o'' : Origin) :
    (Expr.binary b (.var n t o) (.var m t' o') ty o'').fold = .binary b (.var n t o) (.var m t' o') ty o'' := by
  cases b <;> simp [Expr.fold, Expr.foldBinary, Expr.foldMixed, Expr.foldNeutral, Expr.isLiteral]

/-- the value of an operator on two variables -/
theorem eval_of_vars {b : Binary} {n m : Name} {t t' ty : Ty} {o o' o'' : Origin} {p q r : Value}
    (hb : b.atomic? sc = some a) (hty : ty = .scalar sc) (hn : s.vars.get? n = some p) (hm : s.vars.get? m = some q)
    (hr : Evals f c s (.binary b (.var n t o) (.var m t' o') ty o'') r) : b.eval p q sc = .ok r := by
  have hlog : b.isLogical = false := by
    cases b <;> first | rfl | simp [Binary.atomic?] at hb
  have hplain : eval c s (.binary b (.var n t o) (.var m t' o') ty o'') = .ok r := by
    cases f with
    | plain => exact hr
    | folded => rwa [Evals, Form.expr, Expr.fold_binary_var] at hr
  rw [eval_binary hlog, eval, eval, hn, hm, hty] at hplain
  change liftArithmetic o'' (b.eval p q sc) = _ at hplain
  cases hbe : b.eval p q sc with
  | ok z => rw [hbe] at hplain; cases hplain; rfl
  | error e => rw [hbe] at hplain; cases hplain

/-- the machine operation found for a result does what the result computes -/
theorem Expr.eval_of_atomic? {x y : Name} {result : Expr} {u v w : Value} (hty : result.ty = .scalar sc)
    (hop : result.atomic? x y sc = some a) (hsc : sc.isInteger = true) (hu : u.Fits sc) (hv : v.Fits sc)
    (hx : s.vars.get? x = some u) (hy : s.vars.get? y = some v) (hres : Evals f c s result w) :
    a.eval u v sc = .ok w := by
  unfold Expr.atomic? at hop
  split at hop
  · rename_i b lhs rhs ty o
    dsimp only at hop
    split_ifs at hop with hargs
    have heval : a.eval u v sc = b.eval u v sc := by
      unfold Atomic.eval
      rw [Binary.binary?_of_atomic? hop, hu.convert_eq, hv.convert_eq]
    rw [heval]
    simp only [Bool.or_eq_true, Bool.and_eq_true, Expr.isVar_iff] at hargs
    rcases hargs with ⟨⟨_, _, rfl⟩, ⟨_, _, rfl⟩⟩ | ⟨⟨⟨_, _, rfl⟩, ⟨_, _, rfl⟩⟩, -⟩
    · exact eval_of_vars hop hty hx hy hres
    · rw [Binary.eval_comm_of_atomic? hop hsc hu hv]
      exact eval_of_vars hop hty hy hx hres
  · split_ifs at hop with hvar
    obtain ⟨ty, o, rfl⟩ := Expr.isVar_iff.1 hvar
    cases hop
    have hres' : eval c s (.var y ty o) = .ok w := by
      cases f <;> exact hres
    rw [eval, hy] at hres'
    rw [← Except.ok.inj hres']
    exact congrArg Except.ok hv.convert_eq

end Performs

theorem Operator.atomic?_of_primitive? {op : Operator} {a : Atomic} {sc : Scalar} (hop : op.primitive? = some a)
    (hsc : op.scalars = [sc]) :
    ∃ x y result, op.combiner.names = [x, y] ∧ op.combiner.results = [result] ∧ result.atomic? x y sc = some a ∧
      op.combiner.body = [] ∧ sc.isInteger = true := by
  unfold primitive? at hop
  split at hop
  · rename_i d x _ y _ result hd hparams hresults
    have hsc' : d.elem = sc := by
      rw [Operator.scalars, hd] at hsc
      simpa using hsc
    split_ifs at hop with hatomic
    rw [Bool.and_eq_true, List.isEmpty_iff, hsc'] at hatomic
    refine ⟨x, y, result, by rw [Combiner.names, hparams]; rfl, hresults, hsc' ▸ hop, hatomic.1, ?_⟩
    have hword := hatomic.2
    cases sc <;> first | rfl | cases hword
  · cases hop

/-- the machine operation chosen for an operator stores what its combiner gives -/
theorem Operator.primitive_gives {op : Operator} {sc : Scalar} {a : Atomic} (hop : op.primitive? = some a)
    (hsc : op.scalars = [sc]) {f : Form} {L : LaunchSpec → List Stmt → Exec Unit} {c : Context} {s : State}
    {V : List Name} {x y z : Tuple [sc]} (hF : op.combiner.Shaped [sc])
    (hty : ∀ (i : ℕ) e sc', op.combiner.results[i]? = some e → [sc][i]? = some sc' → e.ty = .scalar sc')
    (hres : op.combiner.Gives f L c V s (x.cells ++ y.cells) z.cells) :
    a.eval (x.cell 0) (y.cell 0) sc = .ok (z.cell 0) := by
  obtain ⟨p, q, result, hnames, hresults, hat, hbody, hinteger⟩ := op.atomic?_of_primitive? hop hsc
  have hne : p ≠ q := by
    have hnd := hF.nodup
    rw [hnames] at hnd
    simpa using hnd
  have hp : ((s.set p (x.cell 0)).set q (y.cell 0)).vars.get? p = some (x.cell 0) := by
    rw [State.get?_set, if_neg hne.symm, State.get?_set, if_pos rfl]
  have hq : ((s.set p (x.cell 0)).set q (y.cell 0)).vars.get? q = some (y.cell 0) := by
    rw [State.get?_set, if_pos rfl]
  have hk : Keeps op.combiner.names [] s ((s.set p (x.cell 0)).set q (y.cell 0)) := by
    rw [hnames]
    exact (Keeps.set (List.mem_cons_self ..) _).trans (.set (by simp) _)
  obtain ⟨t, ht, -, hvals⟩ := hres _ hk fun i n v hn hv => by
    rw [hnames] at hn
    rw [x.cells_single, y.cells_single] at hv
    rcases i with _ | _ | i <;> cases hn <;> cases hv
    · exact hp
    · exact hq
  rw [hbody, Form.block_nil] at ht
  cases ht
  have hresult : op.combiner.results[0]? = some result := by rw [hresults]; rfl
  exact Expr.eval_of_atomic? (hty 0 result sc hresult rfl) hat hinteger (x.fits_cell rfl) (y.fits_cell rfl) hp hq
    (hvals _ (.refl _ _ _) 0 result _ hresult (by rw [z.cells_single]; rfl))

section Combines

variable {op : Operator} {sp : Space} {targets : List Name} {addr : Expr} {values : List Expr} {k k' : ℕ}
  {method : UpdateMethod} {u : Stmt} {table : Option LockTable} {f : Form} {L : LaunchSpec → List Stmt → Exec Unit}
  {c : Context} {s : State} {Q : State → Prop} {ss : List Scalar} {a : ℕ}

/-- **An update.** Whatever the method, the code stores at the address what the combiner gives for the tuple there and the
values, and if the locks of the table are free before they are free afterwards. -/
theorem Operator.IsUpdate.combines {x y z : Tuple ss} (locks : ℕ)
    (hu : op.IsUpdate sp targets addr values k method u k') (hm : method.Suits op table) (hss : op.scalars = ss)
    (hF : op.combiner.Shaped ss) (hlocals : ∀ n ∈ op.combiner.locals, n.Before k)
    (hresty : ∀ (i : ℕ) e sc, op.combiner.results[i]? = some e → ss[i]? = some sc → e.ty = .scalar sc)
    (hbits : ∀ sc, op.swappable? = some sc →
      Value.ofBits (x.cell 0).toBits sc = x.cell 0 ∧ Value.ofBits (z.cell 0).toBits sc = z.cell 0)
    (hlen : values.length = ss.length)
    (hty : ∀ (i : ℕ) e sc, values[i]? = some e → ss[i]? = some sc → e.ty = .scalar sc) (hlim : 0 < c.rounds)
    (hrow : s.memory.Row targets ss a x) (haddr : Computes f c s addr a)
    (hval : ∀ V t, (∀ n ∈ V, n.Within k k') → Keeps V [] s t → AllEval f c t values y.cells)
    (hres : ∀ V t, (∀ n ∈ V, n.Within k k') → Keeps V (lockNames table) s t →
      op.combiner.Gives f L c V t (x.cells ++ y.cells) z.cells)
    (hlocks : ∀ tb, table = some tb → s.memory.Apart targets tb.name ∧ 0 < locks ∧
      s.memory.Column tb.name .i32 locks (fun _ => .int 0 .i32) ∧
      ∀ V t, (∀ n ∈ V, n.Within k k') → Keeps V [] s t → Computes f c t tb.count locks)
    (hq : ∀ V t, (∀ n ∈ V, n.Within k k' ∨ n ∈ op.combiner.locals) → Keeps V (lockNames table ++ targets) s t →
      Memory.Stored targets ss a z s.memory t.memory →
      (∀ tb, table = some tb → t.memory.Column tb.name .i32 locks fun _ => .int 0 .i32) → Q t) :
    Runs f L c [u] s Q := by
  have hown {ns : List Name} (hns : ∀ m ∈ ns, m.Within k k') : ∀ m ∈ ns, m ∉ op.combiner.locals :=
    fun m hm h => (hlocals m h).ne (hns m hm) rfl
  have hV {ns : List Name} (hns : ∀ m ∈ ns, m.Within k k') :
      ∀ m ∈ op.combiner.locals ++ ns, m.Within k k' ∨ m ∈ op.combiner.locals :=
    fun m hm => (List.mem_append.1 hm).elim .inr fun h => .inl (hns m h)
  have hfree {V : List Name} {t : State} (ht : Keeps V targets s t) (tb : LockTable) (htb : table = some tb) :
      t.memory.Column tb.name .i32 locks fun _ => .int 0 .i32 :=
    (hlocks tb htb).2.2.1.keeps ht.memory (hlocks tb htb).1
  have hwide {V : List Name} {t : State} (ht : Keeps V targets s t) : Keeps V (lockNames table ++ targets) s t :=
    ht.mono (List.Subset.refl _) (List.subset_append_right _ _)
  have hlambda {ns : List Name} (hns : ∀ m ∈ ns, m.Within k k') (t : State) (ht : Keeps ns [] s t) :
      op.combiner.Gives f L c ns t (x.cells ++ y.cells) z.cells :=
    hres ns t hns (ht.mono (List.Subset.refl _) (List.nil_subset _))
  cases hu with
  | @primitive a' sc n v hop hsc ht hv =>
    obtain rfl : ss = [sc] := hss.symm.trans hsc
    subst ht hv
    have hnone : ∀ m ∈ ([] : List Name), m.Within k k := fun _ h => absurd h List.not_mem_nil
    have heval := op.primitive_gives hop hsc hF hresty (hlambda hnone s (.refl _ _ _))
    refine Runs.block (primitiveUpdate_stores heval hrow (hty 0 v sc rfl rfl) haddr ?_ fun t ht hst =>
      hq [] t (fun _ h => absurd h List.not_mem_nil) (hwide ht) hst (hfree ht))
    exact hval [] s hnone (.refl _ _ _) 0 v _ rfl (by rw [y.cells_single]; rfl)
  | @compareSwap sc n v ns hop hsc ht hv hns hin =>
    obtain rfl : ss = [sc] := hss.symm.trans hsc
    subst ht hv
    obtain ⟨hx, hz⟩ := hbits sc hop
    refine Runs.block (casLoop_stores hF hns (hown hin) hx hz hlim hrow (hty 0 v sc rfl rfl) haddr ?_ (hlambda hin)
      fun t ht hst => hq _ t (hV hin) (hwide ht) hst (hfree ht))
    exact fun t ht => hval _ t hin ht 0 v _ rfl (by rw [y.cells_single]; rfl)
  | @locked tb ns hys hxs hns hin =>
    subst hss
    obtain rfl : table = some tb := hm
    obtain ⟨hap, hpos, hcol, hcount⟩ := hlocks tb rfl
    refine Runs.block (lockedUpdate_stores hF hns (hown hin) (hxs.trans hlen) (hys.trans hlen) hlen hlim hrow hcol hpos hap
      hty haddr (fun t ht => hval _ t hin ht) (fun t ht => hcount _ t hin ht) (fun t ht => hres _ t hin ht)
      fun t ht hst hfreet => hq _ t (hV hin) ht hst fun tb' htb => ?_)
    cases htb
    exact hfreet

/-- an update of a table by an operator on integers and truth values whose combiner has no statements -/
theorem Operator.IsUpdate.runs {len : ℕ} {T : ℕ → Tuple ss} {y : Tuple ss} (locks : ℕ)
    (combine : Tuple ss → Tuple ss → Tuple ss) (hu : op.IsUpdate sp targets addr values k method u k') (hm : method.Suits op table)
    (hss : op.scalars = ss) (hF : op.combiner.Typed ss) (hnames : ∀ n ∈ op.combiner.names, n.Before k)
    (hint : ∀ sc ∈ ss, sc.isFloat = false)
    (hresty : ∀ (i : ℕ) e sc, op.combiner.results[i]? = some e → ss[i]? = some sc → e.ty = .scalar sc)
    (hlen : values.length = ss.length)
    (hty : ∀ (i : ℕ) e sc, values[i]? = some e → ss[i]? = some sc → e.ty = .scalar sc) (hlim : 0 < c.rounds)
    (hT : s.memory.Table targets ss len T) (ha : a < len) (haddr : Computes f c s addr a)
    (hval : ∀ V t, (∀ n ∈ V, n.Within k k' ∨ n ∈ op.combiner.names) → Keeps V [] s t → AllEval f c t values y.cells)
    (hres : ∀ V t, (∀ n ∈ V, n.Within k k' ∨ n ∈ op.combiner.names) → Keeps V (lockNames table ++ targets) s t →
      op.combiner.Yields f c t combine)
    (hlocks : ∀ tb, table = some tb → s.memory.Apart targets tb.name ∧ 0 < locks ∧
      s.memory.Column tb.name .i32 locks (fun _ => .int 0 .i32) ∧
      ∀ V t, (∀ n ∈ V, n.Within k k' ∨ n ∈ op.combiner.names) → Keeps V [] s t → Computes f c t tb.count locks)
    (hq : ∀ t, t.memory.Table targets ss len (Function.update T a (combine (T a) y)) →
      (∀ tb, table = some tb → t.memory.Column tb.name .i32 locks fun _ => .int 0 .i32) → Q t) :
    Runs f L c [u] s Q := by
  have hscalar {sc : Scalar} (hop : op.swappable? = some sc) : ss = [sc] := by
    obtain ⟨d, hd, rfl, -⟩ := op.scalars_of_swappable? hop
    rw [← hss, Operator.scalars, hd]
    rfl
  have hbits {sc : Scalar} (hop : op.swappable? = some sc) (x : Tuple ss) :
      Value.ofBits (x.cell 0).toBits sc = x.cell 0 := by
    obtain rfl := hscalar hop
    exact Value.ofBits_toBits (x.fits_cell rfl) (op.isInteger_of_swappable? hop (hint sc (by simp)))
  have hwithin {V : List Name} (h : ∀ n ∈ V, n.Within k k') : ∀ n ∈ V, n.Within k k' ∨ n ∈ op.combiner.names :=
    fun n hn => .inl (h n hn)
  refine hu.combines (x := T a) (y := y) (z := combine (T a) y) locks hm hss hF.shaped
    (by rw [hF.locals_eq]; exact hnames) hresty (fun sc hop => ⟨hbits hop _, hbits hop _⟩) hlen hty hlim (hT.row ha)
    haddr (fun V t hV => hval V t (hwithin hV)) (fun V t hV ht => Combiner.Yields.gives hF (fun u hu => ?_) ?_ _ _) ?_
    fun V t _ ht hst hfree => hq t (hT.stored hst ht.memory.names) hfree
  · refine hres (op.combiner.names ++ V) u (fun n hn => (List.mem_append.1 hn).elim .inr fun h => .inl (hV n h)) ?_
    exact (ht.mono (List.subset_append_right _ _) (List.subset_append_left _ _)).trans
      (hu.mono (List.Subset.refl _) (List.nil_subset _))
  · exact fun n hn hn' => (hnames n hn).ne (hV n hn') rfl
  · intro tb htb
    obtain ⟨hap, hpos, hcol, hcount⟩ := hlocks tb htb
    exact ⟨hap, hpos, hcol, fun V t hV => hcount V t (hwithin hV)⟩

end Combines

end GpuHistogram
