/-
What statements do with names: which variables they may set, which arrays they may store to, and what their expressions
read. All of it can be read off the code (`blockUses`), and folding adds nothing to it (`uses_block`).

`execAll_along`: a relation between states that every single change to a variable or an array respects also holds
between the states before and after a run. With it, `execAll_keeps`: code of a thread sets no other variables, stores to
no other arrays, binds no array names and leaves element types and lengths alone. So what a piece of code leaves
unchanged never has to be carried through the proof of what it computes.
-/
import GpuHistogram.Proofs.Arrays
import GpuHistogram.Proofs.Names
import GpuHistogram.Proofs.Steps

namespace GpuHistogram

/-- a way of using a name -/
inductive Use where
  | sets
  | stores
  | reads (k : Role)
  deriving DecidableEq

/-- the variables that an assignment to an expression may set -/
def Expr.settable : Expr → List Name
  | .access .. => []
  | e => e.scalars

/-- the names used by a statement that sets variables, stores to arrays and reads expressions -/
def Use.among (u : Use) (sets stores : List Name) (es : List Expr) : List Name :=
  match u with
  | .sets => sets
  | .stores => stores
  | .reads k => es.flatMap (·.reads k)

mutual

/-- the names that a statement uses in a way; the body of a kernel that it launches does not count -/
def Stmt.uses (u : Use) : Stmt → List Name
  | .define _ n e _ => u.among [n] [] [e]
  | .assign dst e _ => u.among dst.settable dst.arrays [dst, e]
  | .forLoop _ n init cond incr body _ => u.among [n] [] [init, cond, incr] ++ blockUses u body
  | .ifElse cond thn els _ => u.among [] [] [cond] ++ (blockUses u thn ++ blockUses u els)
  | .whileLoop cond body _ => u.among [] [] [cond] ++ blockUses u body
  | .scope body _ => blockUses u body
  | .atomic _ _ _ target idx v old _ => u.among old.toList [target] [idx, v]
  | .compareSwap old _ _ target idx cmp new _ => u.among [old] [target] [idx, cmp, new]
  | .alloc n _ count _ => u.among [] [n] [count]
  | .free n _ => u.among [] [n] []
  | .copy dst i _ j k _ => u.among [] [dst] [i, j, k]
  | .fill n i k v _ => u.among [] [n] [i, k, v]
  | .rebind dst _ _ => u.among [] [dst] []
  | .table n _ values _ => u.among [] [n] values
  | _ => []

/-- the names that some statements use in a way -/
def blockUses (u : Use) : List Stmt → List Name
  | [] => []
  | s :: rest => s.uses u ++ blockUses u rest

end

attribute [grind =] Stmt.uses blockUses

/-- the variables that statements may set -/
abbrev blockSets (l : List Stmt) : List Name := blockUses .sets l

/-- the arrays that statements may store to -/
abbrev blockStores (l : List Stmt) : List Name := blockUses .stores l

@[simp] theorem blockUses_nil (u : Use) : blockUses u [] = [] := by
  rw [blockUses]

@[simp] theorem blockUses_cons (u : Use) (s : Stmt) (l : List Stmt) :
    blockUses u (s :: l) = s.uses u ++ blockUses u l := by
  rw [blockUses]

@[simp] theorem blockUses_append (u : Use) (l l' : List Stmt) :
    blockUses u (l ++ l') = blockUses u l ++ blockUses u l' := by
  induction l with
  | nil => simp
  | cons s l ih => simp [ih]

theorem blockUses_map {α : Type} (u : Use) (g : α → Stmt) (l : List α) :
    blockUses u (l.map g) = l.flatMap fun a => (g a).uses u := by
  induction l with
  | nil => simp
  | cons a l ih => simp [ih]

theorem mem_blockUses {u : Use} {l : List Stmt} {n : Name} : n ∈ blockUses u l ↔ ∃ s ∈ l, n ∈ s.uses u := by
  induction l with
  | nil => simp
  | cons s l ih => simp [ih]

theorem Use.among_fold (u : Use) {sets sets' stores stores' : List Name} (h : sets ⊆ sets') (h' : stores ⊆ stores')
    (es : List Expr) : u.among sets stores (es.map Expr.fold) ⊆ u.among sets' stores' es := by
  cases u with
  | sets => exact h
  | stores => exact h'
  | reads k =>
    intro n hn
    simp only [among, List.mem_flatMap, List.mem_map] at hn ⊢
    obtain ⟨_, ⟨e, he, rfl⟩, hn⟩ := hn
    exact ⟨e, he, e.reads_fold k hn⟩

theorem Expr.settable_fold (e : Expr) : e.fold.settable ⊆ e.settable := by
  have h : e.fold.settable ⊆ e.fold.scalars := by
    cases e.fold <;> simp [settable]
  cases e with
  | access => exact List.Subset.refl _
  | _ => exact List.Subset.trans h (reads_fold _ .scalar)

mutual

theorem Stmt.uses_fold (u : Use) : ∀ s : Stmt, blockUses u s.fold ⊆ s.uses u
  | .define ty n e o => by
    simpa [Stmt.fold, Stmt.mapExprs, Stmt.uses] using u.among_fold (List.Subset.refl [n]) (List.Subset.refl []) [e]
  | .assign dst e o => by
    simpa [Stmt.fold, Stmt.mapExprs, Stmt.uses] using
      u.among_fold dst.settable_fold (dst.reads_fold .array) [dst, e]
  | .forLoop ty n init cond incr body o => by
    have h := u.among_fold (List.Subset.refl [n]) (List.Subset.refl []) [init, cond, incr]
    have hb := foldBlock_uses u body
    simp only [Stmt.fold, blockUses_cons, blockUses_nil, Stmt.uses, List.append_nil]
    exact List.append_subset.2 ⟨List.subset_append_of_subset_left _ h, List.subset_append_of_subset_right _ hb⟩
  | .ifElse cond thn els o => by
    have h := u.among_fold (List.Subset.refl []) (List.Subset.refl []) [cond]
    have ht := foldBlock_uses u thn
    have he := foldBlock_uses u els
    intro n hn
    simp only [Stmt.fold] at hn
    simp only [Stmt.uses, List.mem_append]
    split at hn
    · exact .inr (.inl (ht hn))
    · exact .inr (.inr (he hn))
    · simp only [blockUses_cons, blockUses_nil, Stmt.uses, List.append_nil, List.mem_append] at hn
      exact hn.imp (@h n) (Or.imp (@ht n) (@he n))
  | .whileLoop cond body o => by
    have h := u.among_fold (List.Subset.refl []) (List.Subset.refl []) [cond]
    have hb := foldBlock_uses u body
    simp only [Stmt.fold, blockUses_cons, blockUses_nil, Stmt.uses, List.append_nil]
    exact List.append_subset.2 ⟨List.subset_append_of_subset_left _ h, List.subset_append_of_subset_right _ hb⟩
  | .scope body o => by
    simpa [Stmt.fold, Stmt.uses] using foldBlock_uses u body
  | .atomic op m s target idx v old o => by
    simpa [Stmt.fold, Stmt.mapExprs, Stmt.uses] using
      u.among_fold (List.Subset.refl old.toList) (List.Subset.refl [target]) [idx, v]
  | .compareSwap old m s target idx cmp new o => by
    simpa [Stmt.fold, Stmt.mapExprs, Stmt.uses] using
      u.among_fold (List.Subset.refl [old]) (List.Subset.refl [target]) [idx, cmp, new]
  | .alloc n s count o => by
    simpa [Stmt.fold, Stmt.mapExprs, Stmt.uses] using u.among_fold (List.Subset.refl []) (List.Subset.refl [n]) [count]
  | .free n o => by simp [Stmt.fold, Stmt.mapExprs, Stmt.uses]
  | .copy dst i src j k o => by
    simpa [Stmt.fold, Stmt.mapExprs, Stmt.uses] using
      u.among_fold (List.Subset.refl []) (List.Subset.refl [dst]) [i, j, k]
  | .fill n i k v o => by
    simpa [Stmt.fold, Stmt.mapExprs, Stmt.uses] using
      u.among_fold (List.Subset.refl []) (List.Subset.refl [n]) [i, k, v]
  | .rebind dst src o => by simp [Stmt.fold, Stmt.mapExprs, Stmt.uses]
  | .table n s values o => by
    have hm : Id.run (values.mapM fun e => (pure e.fold : Id Expr)) = values.map Expr.fold :=
      List.idRun_mapM
    have h := u.among_fold (List.Subset.refl []) (List.Subset.refl [n]) values
    rw [← hm] at h
    simpa [Stmt.fold, Stmt.mapExprs, Stmt.uses] using h
  | .barrier .. => by simp [Stmt.fold, Stmt.mapExprs, Stmt.uses]
  | .fence .. => by simp [Stmt.fold, Stmt.mapExprs, Stmt.uses]
  | .launch .. => by simp [Stmt.fold, Stmt.uses]

theorem foldBlock_uses (u : Use) : ∀ l : List Stmt, blockUses u (foldBlock l) ⊆ blockUses u l
  | [] => by simp [foldBlock]
  | s :: l => by
    rw [foldBlock, blockUses_append, blockUses_cons]
    exact List.append_subset.2 ⟨List.subset_append_of_subset_left _ (Stmt.uses_fold u s),
      List.subset_append_of_subset_right _ (foldBlock_uses u l)⟩

end

theorem Form.uses_block (f : Form) (u : Use) (l : List Stmt) : blockUses u (f.block l) ⊆ blockUses u l := by
  cases f
  · exact List.Subset.refl _
  · exact foldBlock_uses u l

namespace Machine

variable {L : LaunchSpec → List Stmt → Exec Unit} {c : Context} {s t : State}

/-- a relation between states that every change made by code respects which sets the variables `V` only and, on a
thread, stores to the arrays `W` only -/
structure Along (L : LaunchSpec → List Stmt → Exec Unit) (c : Context) (V W : List Name) (R : State → State → Prop) :
    Prop where
  refl : ∀ s, R s s
  trans : ∀ {s t u}, R s t → R t u → R s u
  set : ∀ s n v, n ∈ V → R s (s.set n v)
  write : ∀ s n k v old m, n ∈ W → Memory.write n k v s.memory = .ok old m → R s { s with memory := m }
  host : c.thread = none → ∀ s m, R s { s with memory := m }
  launch : c.thread = none → ∀ spec body s t, L spec body s = .ok () t → R s t

variable {V W : List Name} {R : State → State → Prop}

theorem Along.setVar (h : Along L c V W R) {n : Name} {v : Value} (hn : n ∈ V) (hs : setVar n v s = .ok () t) : R s t := by
  rw [setVar_eq_ok.1 hs]
  exact h.set s n v hn

theorem Along.onMemory (h : Along L c V W R) {α : Type} {o : Origin} {change : Memory.Change α} {a : α}
    (hc : c.thread = none) (hs : onMemory o change s = .ok a t) : R s t := by
  obtain ⟨m, -, rfl⟩ := onMemory_eq_ok.1 hs
  exact h.host hc s m

theorem Along.storeTo (h : Along L c V W R) {o : Origin} {n : Name} {k : Int} {v old : Value} (hn : n ∈ W)
    (hs : Machine.onMemory o (Memory.write n k v) s = .ok old t) : R s t := by
  obtain ⟨m, hm, rfl⟩ := onMemory_eq_ok.1 hs
  exact h.write s n k v old m hn hm

theorem execDefine_along (h : Along L c V W R) {ty : Ty} {n : Name} {e : Expr} {o : Origin} (hn : n ∈ V)
    (hs : execDefine c ty n e o s = .ok () t) : R s t := by
  unfold execDefine at hs
  cases ty with
  | scalar sc =>
    obtain ⟨v, u, hv, hs⟩ := bind_eq_ok.1 hs
    obtain ⟨-, rfl⟩ := value_eq_ok.1 hv
    exact h.setVar hn hs
  | pointer sc sp => exact (fail_eq_ok.1 hs).elim

theorem execAssign_along (h : Along L c V W R) {dst e : Expr} {o : Origin} (hV : dst.settable ⊆ V)
    (hW : dst.arrays ⊆ W) (hs : execAssign c dst e o s = .ok () t) : R s t := by
  unfold execAssign at hs
  obtain ⟨v, u, hv, hs⟩ := bind_eq_ok.1 hs
  obtain ⟨-, rfl⟩ := value_eq_ok.1 hv
  cases dst with
  | var n ty o' => exact h.setVar (hV (by simp [Expr.settable, Expr.reads])) hs
  | access target idx ty o' =>
    obtain ⟨n, u, hn, hs⟩ := bind_eq_ok.1 hs
    obtain ⟨hname, rfl⟩ := observe_eq_ok.1 hn
    obtain ⟨i, u, hi, hs⟩ := bind_eq_ok.1 hs
    obtain ⟨-, -, -, rfl⟩ := number_eq_ok.1 hi
    obtain ⟨old, u, ho, hs⟩ := bind_eq_ok.1 hs
    obtain ⟨-, rfl⟩ := pure_eq_ok.1 hs
    refine h.storeTo (hW ?_) ho
    cases target <;> simp only [namedArray, Except.ok.injEq, reduceCtorEq] at hname
    subst hname
    simp [Expr.reads]
  | _ => exact (fail_eq_ok.1 hs).elim

theorem execAtomic_along (h : Along L c V W R) {op : Atomic} {sc : Scalar} {target : Name} {idx e : Expr}
    {old : Option Name} {o : Origin} (hV : old.toList ⊆ V) (hW : target ∈ W)
    (hs : execAtomic c op sc target idx e old o s = .ok () t) : R s t := by
  unfold execAtomic at hs
  obtain ⟨i, u, hi, hs⟩ := bind_eq_ok.1 hs
  obtain ⟨-, -, -, rfl⟩ := number_eq_ok.1 hi
  obtain ⟨v, u, hv, hs⟩ := bind_eq_ok.1 hs
  obtain ⟨-, rfl⟩ := value_eq_ok.1 hv
  obtain ⟨x, u, hx, hs⟩ := bind_eq_ok.1 hs
  obtain ⟨-, rfl⟩ := observe_eq_ok.1 hx
  obtain ⟨y, u, hy, hs⟩ := bind_eq_ok.1 hs
  obtain ⟨-, rfl⟩ := observe_eq_ok.1 hy
  obtain ⟨w, u, hw, hs⟩ := bind_eq_ok.1 hs
  refine h.trans (h.storeTo hW hw) ?_
  cases old with
  | none =>
    obtain ⟨-, rfl⟩ := pure_eq_ok.1 hs
    exact h.refl u
  | some n => exact h.setVar (hV (by simp)) hs

theorem execCompareSwap_along (h : Along L c V W R) {old : Name} {sc : Scalar} {target : Name} {idx cmp new : Expr}
    {o : Origin} (hV : old ∈ V) (hW : target ∈ W)
    (hs : execCompareSwap c old sc target idx cmp new o s = .ok () t) : R s t := by
  unfold execCompareSwap at hs
  obtain ⟨i, u, hi, hs⟩ := bind_eq_ok.1 hs
  obtain ⟨-, -, -, rfl⟩ := number_eq_ok.1 hi
  obtain ⟨v, u, hv, hs⟩ := bind_eq_ok.1 hs
  obtain ⟨-, rfl⟩ := value_eq_ok.1 hv
  obtain ⟨x, u, hx, hs⟩ := bind_eq_ok.1 hs
  obtain ⟨-, rfl⟩ := value_eq_ok.1 hx
  obtain ⟨y, u, hy, hs⟩ := bind_eq_ok.1 hs
  obtain ⟨-, rfl⟩ := observe_eq_ok.1 hy
  dsimp only at hs
  split at hs
  · obtain ⟨w, u, hw, hs⟩ := bind_eq_ok.1 hs
    exact h.trans (h.storeTo hW hw) (h.setVar hV hs)
  · exact h.setVar hV hs

theorem hostOnly_along {x : Exec Unit} {o : Origin} (hx : c.thread = none → x s = .ok () t → R s t)
    (hs : (if c.thread.isSome then fail .hostStatementInKernel o else x) s = .ok () t) : R s t := by
  split at hs
  · exact (fail_eq_ok.1 hs).elim
  · rename_i hc
    exact hx (by simpa using hc) hs

theorem iterate_along (h : Along L c V W R) {e : Expr} {round : Exec Unit} {limit : Int} {o : Origin} {left : ℕ}
    (hr : ∀ {s t}, round s = .ok () t → R s t) (hs : iterate (holds c e) round limit o left s = .ok () t) : R s t := by
  refine iterate_invariant (R s) (fun {u b w} hu hc => ?_) (fun hu hw => h.trans hu (hr hw)) hs (h.refl s)
  obtain ⟨-, -, -, rfl⟩ := holds_eq_ok.1 hc
  exact hu

mutual

theorem exec_along (h : Along L c V W R) : ∀ (x : Stmt) {s t : State}, x.uses .sets ⊆ V → x.uses .stores ⊆ W →
    exec L c x s = .ok () t → R s t
  | .define ty n e o, s, t, hV, hW, hs => by
    rw [exec] at hs
    exact execDefine_along h (hV (by simp [Stmt.uses, Use.among])) hs
  | .assign dst e o, s, t, hV, hW, hs => by
    rw [exec] at hs
    exact execAssign_along h hV hW hs
  | .forLoop ty n init cond incr body o, s, t, hV, hW, hs => by
    simp only [Stmt.uses, Use.among, List.append_subset, List.nil_append] at hV hW
    have hn : n ∈ V := hV.1 (by simp)
    rw [exec] at hs
    obtain ⟨v, u, hv, hs⟩ := bind_eq_ok.1 hs
    obtain ⟨-, rfl⟩ := value_eq_ok.1 hv
    obtain ⟨_, u, hu, hs⟩ := bind_eq_ok.1 hs
    refine h.trans (h.setVar hn hu) (iterate_along h (fun {a b} hr => ?_) hs)
    obtain ⟨_, w, hw, hr⟩ := bind_eq_ok.1 hr
    obtain ⟨x, y, hx, hr⟩ := bind_eq_ok.1 hr
    obtain ⟨-, rfl⟩ := value_eq_ok.1 hx
    exact h.trans (execAll_along h body hV.2 hW hw) (h.setVar hn hr)
  | .ifElse cond thn els o, s, t, hV, hW, hs => by
    simp only [Stmt.uses, Use.among, List.append_subset, List.nil_append] at hV hW
    rw [exec] at hs
    obtain ⟨b, u, hb, hs⟩ := bind_eq_ok.1 hs
    obtain ⟨-, -, -, rfl⟩ := holds_eq_ok.1 hb
    cases b
    · exact execAll_along h els hV.2 hW.2 hs
    · exact execAll_along h thn hV.1 hW.1 hs
  | .whileLoop cond body o, s, t, hV, hW, hs => by
    simp only [Stmt.uses, Use.among, List.nil_append] at hV hW
    rw [exec] at hs
    exact iterate_along h (fun hr => execAll_along h body hV hW hr) hs
  | .scope body o, s, t, hV, hW, hs => by
    rw [exec] at hs
    simp only [Stmt.uses] at hV hW
    exact execAll_along h body hV hW hs
  | .barrier b o, s, t, hV, hW, hs => by
    rw [exec] at hs
    exact (fail_eq_ok.1 hs).elim
  | .fence m o, s, t, hV, hW, hs => by
    rw [exec] at hs
    obtain ⟨-, rfl⟩ := pure_eq_ok.1 hs
    exact h.refl s
  | .atomic op m sc target idx e old o, s, t, hV, hW, hs => by
    rw [exec] at hs
    exact execAtomic_along h hV (hW (by simp [Stmt.uses, Use.among])) hs
  | .compareSwap old m sc target idx cmp new o, s, t, hV, hW, hs => by
    rw [exec] at hs
    exact execCompareSwap_along h (hV (by simp [Stmt.uses, Use.among])) (hW (by simp [Stmt.uses, Use.among])) hs
  | .alloc n sc count o, s, t, hV, hW, hs => by
    rw [exec] at hs
    refine hostOnly_along (fun hc hs => ?_) hs
    obtain ⟨k, u, hk, hs⟩ := bind_eq_ok.1 hs
    obtain ⟨-, -, -, rfl⟩ := number_eq_ok.1 hk
    unfold allocate at hs
    split_ifs at hs
    · exact (fail_eq_ok.1 hs).elim
    · exact (fail_eq_ok.1 hs).elim
    · cases hs
      exact h.host hc _ _
  | .free n o, s, t, hV, hW, hs => by
    rw [exec] at hs
    exact hostOnly_along (fun hc hs => h.onMemory hc hs) hs
  | .copy dst i src j k o, s, t, hV, hW, hs => by
    rw [exec] at hs
    refine hostOnly_along (fun hc hs => ?_) hs
    obtain ⟨a, u, ha, hs⟩ := bind_eq_ok.1 hs
    obtain ⟨-, -, -, rfl⟩ := number_eq_ok.1 ha
    obtain ⟨b, u, hb, hs⟩ := bind_eq_ok.1 hs
    obtain ⟨-, -, -, rfl⟩ := number_eq_ok.1 hb
    obtain ⟨d, u, hd, hs⟩ := bind_eq_ok.1 hs
    obtain ⟨-, -, -, rfl⟩ := number_eq_ok.1 hd
    exact h.onMemory hc hs
  | .fill n i k e o, s, t, hV, hW, hs => by
    rw [exec] at hs
    refine hostOnly_along (fun hc hs => ?_) hs
    obtain ⟨a, u, ha, hs⟩ := bind_eq_ok.1 hs
    obtain ⟨-, -, -, rfl⟩ := number_eq_ok.1 ha
    obtain ⟨b, u, hb, hs⟩ := bind_eq_ok.1 hs
    obtain ⟨-, -, -, rfl⟩ := number_eq_ok.1 hb
    obtain ⟨v, u, hv, hs⟩ := bind_eq_ok.1 hs
    obtain ⟨-, rfl⟩ := value_eq_ok.1 hv
    exact h.onMemory hc hs
  | .rebind dst src o, s, t, hV, hW, hs => by
    rw [exec] at hs
    exact hostOnly_along (fun hc hs => h.onMemory hc hs) hs
  | .table n sc values o, s, t, hV, hW, hs => by
    rw [exec] at hs
    refine hostOnly_along (fun hc hs => ?_) hs
    obtain ⟨vs, u, hvs, hs⟩ := bind_eq_ok.1 hs
    cases hs
    obtain rfl := mapM_value_state hvs
    exact h.host hc s _
  | .launch spec body o, s, t, hV, hW, hs => by
    rw [exec] at hs
    exact hostOnly_along (fun hc hs => h.launch hc spec body s t hs) hs

theorem execAll_along (h : Along L c V W R) : ∀ (l : List Stmt) {s t : State}, blockSets l ⊆ V → blockStores l ⊆ W →
    execAll L c l s = .ok () t → R s t
  | [], s, t, hV, hW, hs => by
    rw [execAll_nil] at hs
    cases hs
    exact h.refl s
  | x :: l, s, t, hV, hW, hs => by
    simp only [blockSets, blockStores, blockUses_cons, List.append_subset] at hV hW
    obtain ⟨u, hx, hl⟩ := execAll_cons_eq_ok.1 hs
    exact h.trans (exec_along h x hV.1 hW.1 hx) (execAll_along h l hV.2 hW.2 hl)

end

/-- what stays as it is when no variables but `V` are set and no arrays but `W` are stored to -/
structure Keeps (V W : List Name) (s t : State) : Prop where
  vars : ∀ n ∉ V, t.vars.get? n = s.vars.get? n
  memory : Memory.Keeps W s.memory t.memory
  launched : t.launched = s.launched

namespace Keeps

theorem refl (V W : List Name) (s : State) : Keeps V W s s :=
  ⟨fun _ _ => rfl, .refl _ _, rfl⟩

theorem trans {u : State} (h : Keeps V W s t) (h' : Keeps V W t u) : Keeps V W s u :=
  ⟨fun n hn => (h'.vars n hn).trans (h.vars n hn), h.memory.trans h'.memory, h'.launched.trans h.launched⟩

theorem mono {V' W' : List Name} (h : Keeps V W s t) (hV : V ⊆ V') (hW : W ⊆ W') : Keeps V' W' s t :=
  ⟨fun n hn => h.vars n fun hm => hn (hV hm), h.memory.mono hW, h.launched⟩

theorem set {n : Name} (hn : n ∈ V) (v : Value) : Keeps V W s (s.set n v) :=
  ⟨fun m hm => by
    rw [State.get?_set, if_neg]
    rintro rfl
    exact hm hn, .refl _ _, rfl⟩

end Keeps

/-- **Frame.** A thread sets the variables and stores to the arrays that its code says, and changes nothing else. -/
theorem execAll_keeps (hc : c.thread.isSome = true) {l : List Stmt} (h : execAll L c l s = .ok () t) :
    Keeps (blockSets l) (blockStores l) s t := by
  have hn : c.thread ≠ none := by
    rw [← Option.isSome_iff_ne_none]
    exact hc
  have halong : Along L c (blockSets l) (blockStores l) (Keeps (blockSets l) (blockStores l)) :=
    { refl := Keeps.refl _ _
      trans := fun h h' => h.trans h'
      set := fun s n v hn => Keeps.set hn v
      write := fun s n k v old m hn hm => ⟨fun _ _ => rfl, .write hm hn, rfl⟩
      host := fun h => absurd h hn
      launch := fun h => absurd h hn }
  exact execAll_along halong l (List.Subset.refl _) (List.Subset.refl _) h

end Machine

end GpuHistogram
