/-
Runs from states that agree. What the code of a thread does depends on the variables that it reads only (`Local`): from
two states that agree on these and have the same memory it meets the same fault or runs to states that agree. There is
one rule for each way in which computations are put together, and `execAll_local` follows the shape of the statements.

A thread starts with the captured variables and nothing else; what its code does is shown for all variables of the host
and carried over (`Runs.congr`).
-/
import GpuHistogram.Proofs.Runs

namespace GpuHistogram.Machine

variable {L : LaunchSpec → List Stmt → Exec Unit} {c : Context} {N : List Name} {s s' t : State} {α β : Type}

/-- the states have the same values for the variables `N`, the same memory and the same record of launches -/
structure Agree (N : List Name) (s s' : State) : Prop where
  vars : ∀ n ∈ N, s.vars.get? n = s'.vars.get? n
  memory : s.memory = s'.memory
  launched : s.launched = s'.launched

theorem Agree.set (h : Agree N s s') (n : Name) (v : Value) : Agree N (s.set n v) (s'.set n v) :=
  ⟨fun m hm => by rw [State.get?_set, State.get?_set, h.vars m hm], h.memory, h.launched⟩

theorem Agree.eval_eq (h : Agree N s s') {e : Expr} (he : e.scalars ⊆ N) : eval c s e = eval c s' e :=
  eval_congr (fun n hn => h.vars n (he hn)) (fun n _ i => by rw [h.memory]) (.inr rfl)

/-- the same result or the same fault, in states that agree -/
def SameOutcome (N : List Name) : EStateM.Result Fault State α → EStateM.Result Fault State α → Prop
  | .ok a t, .ok a' t' => a = a' ∧ Agree N t t'
  | .error f t, .error f' t' => f = f' ∧ Agree N t t'
  | _, _ => False

/-- the computation depends on no variables but `N` -/
def Local (N : List Name) (x : Exec α) : Prop :=
  ∀ s s', Agree N s s' → SameOutcome N (x s) (x s')

namespace Local

theorem pure (a : α) : Local N (Pure.pure a : Exec α) := fun _ _ h => ⟨rfl, h⟩

theorem fail (cause : Cause) (o : Origin) : Local N (Machine.fail cause o : Exec α) := fun _ _ h => ⟨rfl, h⟩

theorem bind {x : Exec α} {g : α → Exec β} (hx : Local N x) (hg : ∀ a, Local N (g a)) : Local N (x >>= g) :=
  fun s s' h => by
    have ho := hx s s' h
    change SameOutcome N (EStateM.bind x g s) (EStateM.bind x g s')
    unfold EStateM.bind
    generalize x s = r at ho ⊢
    generalize x s' = r' at ho ⊢
    cases r with
    | ok a t =>
      cases r' with
      | ok a' t' =>
        obtain ⟨rfl, ht⟩ := ho
        exact hg a t t' ht
      | error f' t' => exact ho.elim
    | error f t =>
      cases r' with
      | ok a' t' => exact ho.elim
      | error f' t' => exact ho

theorem ite {x y : Exec α} {p : Prop} [Decidable p] (hx : Local N x) (hy : Local N y) :
    Local N (if p then x else y) := by
  split_ifs
  · exact hx
  · exact hy

theorem observe {g : State → Except Fault α} (hg : ∀ s s', Agree N s s' → g s = g s') :
    Local N (Machine.observe g) := fun s s' h => by
  unfold Machine.observe
  rw [← hg s s' h]
  cases g s with
  | ok a => exact ⟨rfl, h⟩
  | error f => exact ⟨rfl, h⟩

theorem value {e : Expr} (he : e.scalars ⊆ N) : Local N (Machine.value c e) :=
  .observe fun _ _ h => h.eval_eq he

theorem number {e : Expr} (he : e.scalars ⊆ N) : Local N (Machine.number c e) :=
  (value he).bind fun _ => .pure _

theorem holds {e : Expr} (he : e.scalars ⊆ N) : Local N (Machine.holds c e) :=
  (value he).bind fun _ => .pure _

theorem setVar (n : Name) (v : Value) : Local N (Machine.setVar n v) := fun _ _ h => ⟨rfl, h.set n v⟩

theorem onMemory (o : Origin) (change : Memory.Change α) : Local N (Machine.onMemory o change) := fun s s' h => by
  unfold Machine.onMemory
  rw [← h.memory]
  dsimp only
  cases change s.memory with
  | ok a m => exact ⟨rfl, h.vars, rfl, h.launched⟩
  | error e m => exact ⟨rfl, h.vars, rfl, h.launched⟩

theorem read (o : Origin) (n : Name) (i : Int) :
    Local N (Machine.observe fun st => liftMemory o (st.memory.read n i)) :=
  .observe fun _ _ h => by rw [h.memory]

theorem iterate {cond : Exec Bool} {round : Exec Unit} (hc : Local N cond) (hr : Local N round) (limit : Int)
    (o : Origin) (left : ℕ) : Local N (Machine.iterate cond round limit o left) := by
  induction left with
  | zero => exact hc.bind fun _ => .ite (.fail _ _) (.pure _)
  | succ left ih => exact hc.bind fun _ => .ite (hr.bind fun _ => ih) (.pure _)

theorem execDefine {ty : Ty} {n : Name} {e : Expr} {o : Origin} (he : e.scalars ⊆ N) :
    Local N (Machine.execDefine c ty n e o) := by
  cases ty with
  | scalar sc => exact (value he).bind fun v => .setVar n _
  | pointer sc sp => exact .fail _ _

theorem execAssign {dst e : Expr} {o : Origin} (hd : dst.scalars ⊆ N) (he : e.scalars ⊆ N) :
    Local N (Machine.execAssign c dst e o) := by
  refine (value he).bind fun v => ?_
  cases dst with
  | var n ty o' => exact .setVar n _
  | access t i ty o' =>
    exact Local.bind (.observe fun _ _ _ => rfl) fun n => (number (e := i) hd).bind fun k =>
      (onMemory o _).bind fun _ => .pure _
  | _ => exact .fail _ _

theorem execAtomic {op : Atomic} {sc : Scalar} {target : Name} {i e : Expr} {old : Option Name} {o : Origin}
    (hi : i.scalars ⊆ N) (he : e.scalars ⊆ N) : Local N (Machine.execAtomic c op sc target i e old o) := by
  refine (number hi).bind fun k => (value he).bind fun v => (read o target k).bind fun w =>
    Local.bind (.observe fun _ _ _ => rfl) fun r => (onMemory o _).bind fun _ => ?_
  cases old with
  | none => exact .pure _
  | some n => exact .setVar n _

theorem execCompareSwap {old : Name} {sc : Scalar} {target : Name} {i cmp new : Expr} {o : Origin}
    (hi : i.scalars ⊆ N) (hc : cmp.scalars ⊆ N) (hn : new.scalars ⊆ N) :
    Local N (Machine.execCompareSwap c old sc target i cmp new o) :=
  (number hi).bind fun k => (value hc).bind fun _ => (value hn).bind fun _ => (read o target k).bind fun _ =>
    .ite ((onMemory o _).bind fun _ => .setVar old _) (.setVar old _)

/-- a thread fails where only the host may go on -/
theorem hostOnly (hc : c.thread.isSome = true) (x : Exec α) (o : Origin) :
    Local N (if c.thread.isSome then Machine.fail .hostStatementInKernel o else x) := by
  rw [if_pos hc]
  exact .fail _ _

end Local

mutual

theorem exec_local (hc : c.thread.isSome = true) : ∀ {x : Stmt}, x.uses (.reads .scalar) ⊆ N → Local N (exec L c x)
  | .define .., h => by
    simp only [Stmt.uses, Use.among, List.flatMap_cons, List.flatMap_nil, List.append_nil] at h
    simp only [exec]
    exact .execDefine h
  | .assign .., h => by
    simp only [Stmt.uses, Use.among, List.flatMap_cons, List.flatMap_nil, List.append_nil, List.append_subset] at h
    simp only [exec]
    exact .execAssign h.1 h.2
  | .forLoop .., h => by
    simp only [Stmt.uses, Use.among, List.flatMap_cons, List.flatMap_nil, List.append_nil, List.append_subset] at h
    simp only [exec]
    exact (Local.value h.1.1).bind fun v => (Local.setVar _ _).bind fun _ => .iterate (.holds h.1.2.1)
      ((execAll_local hc h.2).bind fun _ => (Local.value h.1.2.2).bind fun w => .setVar _ _) _ _ _
  | .ifElse .., h => by
    simp only [Stmt.uses, Use.among, List.flatMap_cons, List.flatMap_nil, List.append_nil, List.append_subset] at h
    simp only [exec]
    exact (Local.holds h.1).bind fun _ => .ite (execAll_local hc h.2.1) (execAll_local hc h.2.2)
  | .whileLoop .., h => by
    simp only [Stmt.uses, Use.among, List.flatMap_cons, List.flatMap_nil, List.append_nil, List.append_subset] at h
    simp only [exec]
    exact .iterate (.holds h.1) (execAll_local hc h.2) _ _ _
  | .scope .., h => by
    simp only [Stmt.uses] at h
    simp only [exec]
    exact execAll_local hc h
  | .barrier .., _ => by
    simp only [exec]
    exact .fail _ _
  | .fence .., _ => by
    simp only [exec]
    exact .pure _
  | .atomic .., h => by
    simp only [Stmt.uses, Use.among, List.flatMap_cons, List.flatMap_nil, List.append_nil, List.append_subset] at h
    simp only [exec]
    exact .execAtomic h.1 h.2
  | .compareSwap .., h => by
    simp only [Stmt.uses, Use.among, List.flatMap_cons, List.flatMap_nil, List.append_nil, List.append_subset] at h
    simp only [exec]
    exact .execCompareSwap h.1 h.2.1 h.2.2
  | .alloc .., _ => by
    simp only [exec]
    exact .hostOnly hc _ _
  | .free .., _ => by
    simp only [exec]
    exact .hostOnly hc _ _
  | .copy .., _ => by
    simp only [exec]
    exact .hostOnly hc _ _
  | .fill .., _ => by
    simp only [exec]
    exact .hostOnly hc _ _
  | .rebind .., _ => by
    simp only [exec]
    exact .hostOnly hc _ _
  | .table .., _ => by
    simp only [exec]
    exact .hostOnly hc _ _
  | .launch .., _ => by
    simp only [exec]
    exact .hostOnly hc _ _

/-- **Locality.** The code of a thread depends on no variables but those that it reads. -/
theorem execAll_local (hc : c.thread.isSome = true) : ∀ {l : List Stmt}, blockUses (.reads .scalar) l ⊆ N →
    Local N (execAll L c l)
  | [], _ => by
    simp only [execAll]
    exact .pure _
  | x :: l, h => by
    rw [blockUses_cons, List.append_subset] at h
    simp only [execAll]
    exact (exec_local hc h.1).bind fun _ => execAll_local hc h.2

end

/-- from states that agree on what it reads, the code of a thread runs to states that agree -/
theorem execAll_congr (hc : c.thread.isSome = true) (l : List Stmt) (hN : blockUses (.reads .scalar) l ⊆ N)
    (h : Agree N s s') (hs : execAll L c l s = .ok () t) : ∃ t', execAll L c l s' = .ok () t' ∧ Agree N t t' := by
  have ho := execAll_local (L := L) hc hN s s' h
  rw [hs] at ho
  cases hr : execAll L c l s' with
  | ok a t' =>
    rw [hr] at ho
    exact ⟨t', rfl, ho.2⟩
  | error f t' =>
    rw [hr] at ho
    exact ho.elim

/-- what code does from one state it does from another that agrees on what the code reads -/
theorem Runs.congr {f : Form} {l : List Stmt} {Q : State → Prop} (hc : c.thread.isSome = true) (h : Runs f L c l s Q)
    (ha : Agree (blockUses (.reads .scalar) l) s s') :
    ∃ t t', Q t ∧ execAll L c (f.block l) s' = .ok () t' ∧ Agree (blockUses (.reads .scalar) l) t t' := by
  obtain ⟨t, ht, hq⟩ := h
  obtain ⟨t', ht', hat⟩ := execAll_congr hc _ (f.uses_block _ l) ha ht
  exact ⟨t, t', hq, ht', hat⟩

end GpuHistogram.Machine
