/-
Threads on the captured variables. A thread starts with the variables that its kernel captures, not with all variables of
the host; this makes no difference to what it does (`runTurns_captured`).

The code has to use each name in one role (`blockInRoles`): as a scalar variable, or as an array whose elements it
accesses. Then a pass over the code meets each variable that is read, and takes it for an array never
(`Occurrences.stmts_collects`), so a variable that is read is captured unless the code binds it. The rest is locality
(`execAll_local`).
-/
import GpuHistogram.Proofs.Agreement
import GpuHistogram.Proofs.Launches

namespace GpuHistogram

/-! ## Names with one role -/

/-- the variables of an expression are scalars, and the names whose elements it accesses are arrays -/
def Expr.InRoles (role : Name → Role) : Expr → Prop
  | var n ty _ => ty.isPointer = false ∧ role n = .scalar
  | unary _ e _ _ => e.InRoles role
  | binary _ l r _ _ => l.InRoles role ∧ r.InRoles role
  | select c t e _ _ => c.InRoles role ∧ t.InRoles role ∧ e.InRoles role
  | access (var n _ _) i _ _ => role n = .array ∧ i.InRoles role
  | access t i _ _ => t.InRoles role ∧ i.InRoles role
  | convert e _ => e.InRoles role
  | bitCast e _ => e.InRoles role
  | _ => True

mutual

/-- the expressions and the atomic operations of a statement use each name in its role -/
def Stmt.InRoles (role : Name → Role) : Stmt → Prop
  | .define _ _ e _ => e.InRoles role
  | .assign dst e _ => dst.InRoles role ∧ e.InRoles role
  | .forLoop _ _ init cond incr body _ =>
    init.InRoles role ∧ cond.InRoles role ∧ incr.InRoles role ∧ blockInRoles role body
  | .ifElse cond thn els _ => cond.InRoles role ∧ blockInRoles role thn ∧ blockInRoles role els
  | .whileLoop cond body _ => cond.InRoles role ∧ blockInRoles role body
  | .scope body _ => blockInRoles role body
  | .atomic _ _ _ target idx v _ _ => role target = .array ∧ idx.InRoles role ∧ v.InRoles role
  | .compareSwap _ _ _ target idx cmp new _ =>
    role target = .array ∧ idx.InRoles role ∧ cmp.InRoles role ∧ new.InRoles role
  | .alloc _ _ count _ => count.InRoles role
  | .copy _ i _ j k _ => i.InRoles role ∧ j.InRoles role ∧ k.InRoles role
  | .fill _ i k v _ => i.InRoles role ∧ k.InRoles role ∧ v.InRoles role
  | .table _ _ values _ => ∀ e ∈ values, e.InRoles role
  | _ => True

/-- statements that use each name in its role -/
def blockInRoles (role : Name → Role) : List Stmt → Prop
  | [] => True
  | s :: rest => s.InRoles role ∧ blockInRoles role rest

end

/-! ## What is captured -/

namespace Occurrences

variable {role : Name → Role} {B S S' : List Name} {u v w : Occurrences} {n : Name}

/-- the name is bound or known to be free -/
def Met (u : Occurrences) (n : Name) : Prop :=
  n ∈ u.bound ∨ (u.free.get? n).isSome = true

/-- only arrays are taken for pointers -/
def PointersAreArrays (role : Name → Role) (u : Occurrences) : Prop :=
  ∀ n ty, u.free.get? n = some ty → ty.isPointer = true → role n = .array

/-- a pass gets from `u` to `v` over code that binds no names but `B` and reads the variables `S` -/
structure Collects (role : Name → Role) (B S : List Name) (u v : Occurrences) : Prop where
  bound : ∀ n ∈ v.bound, n ∈ B ∨ n ∈ u.bound
  keeps : ∀ n, u.Met n → v.Met n
  reads : ∀ n ∈ S, role n = .scalar ∧ v.Met n
  pointers : u.PointersAreArrays role → v.PointersAreArrays role

namespace Collects

theorem refl (u : Occurrences) : Collects role B [] u u :=
  ⟨fun _ => .inr, fun _ => id, fun _ hn => absurd hn List.not_mem_nil, id⟩

theorem trans (h : Collects role B S u v) (h' : Collects role B S' v w) : Collects role B (S ++ S') u w where
  bound := fun n hn => (h'.bound n hn).elim .inl (h.bound n)
  keeps := fun n hn => h'.keeps n (h.keeps n hn)
  reads := fun n hn => (List.mem_append.1 hn).elim (fun hn => (h.reads n hn).imp_right (h'.keeps n)) (h'.reads n)
  pointers := fun hu => h'.pointers (h.pointers hu)

theorem mono (h : Collects role B S u v) (hS : S' ⊆ S) : Collects role B S' u v :=
  { h with reads := fun n hn => h.reads n (hS hn) }

end Collects

theorem use_met (u : Occurrences) (n : Name) (ty : Ty) : (u.use n ty).Met n := by
  unfold use
  split_ifs with hn
  · exact .inl hn
  · right
    rw [Bindings.get?_set, if_pos rfl]
    rfl

theorem use_collects (u : Occurrences) {ty : Ty} (h : ty.isPointer = true → role n = .array) :
    Collects role B [] u (u.use n ty) := by
  unfold use
  split_ifs
  · exact .refl u
  · refine ⟨fun _ => .inr, fun m hm => hm.imp_right fun hm => ?_, fun _ hm => absurd hm List.not_mem_nil, fun hu m ty' hm => ?_⟩
    · rw [Bindings.get?_set]
      split_ifs
      · rfl
      · exact hm
    · rw [Bindings.get?_set] at hm
      split_ifs at hm with hnm
      · obtain rfl := Option.some.inj hm
        exact hnm ▸ h
      · exact hu m ty' hm

theorem bind_collects (u : Occurrences) (hn : n ∈ B) : Collects role B [] u (u.bind n) :=
  ⟨fun m hm => (List.mem_cons.1 hm).imp_left fun (h : m = n) => h.symm ▸ hn,
    fun _ hm => hm.imp_left (List.mem_cons_of_mem n), fun _ hm => absurd hm List.not_mem_nil, id⟩

theorem expr_collects {e : Expr} (h : e.InRoles role) (u : Occurrences) : Collects role B e.scalars u (u.expr e) := by
  induction e generalizing u with
  | var n ty o =>
    have hn : Collects role B [] u (u.use n ty) := use_collects u fun hp => absurd (h.1.symm.trans hp) (by decide)
    have hread : ∀ m ∈ [n], role m = .scalar ∧ (u.use n ty).Met m := by simpa using ⟨h.2, use_met u n ty⟩
    exact { hn with reads := hread }
  | unary op e ty o ih => exact ih h u
  | convert e ty ih => exact ih h u
  | bitCast e ty ih => exact ih h u
  | binary op l r ty o ihl ihr => exact (ihl h.1 u).trans (ihr h.2 _)
  | select b t e ty o ihb iht ihe => exact ((ihb h.1 u).trans (iht h.2.1 _)).trans (ihe h.2.2 _)
  | access t i ty o iht ihi =>
    cases t with
    | var n ty' o' => exact (use_collects u fun _ => h.1).trans (ihi h.2 _)
    | _ => exact ((iht h.1 u).trans (ihi h.2 _)).mono (List.subset_append_right _ _)
  | _ => exact .refl u

theorem foldl_expr_collects {es : List Expr} (h : ∀ e ∈ es, e.InRoles role) (u : Occurrences) :
    Collects role B (es.flatMap (·.scalars)) u (es.foldl expr u) := by
  induction es generalizing u with
  | nil => exact .refl u
  | cons e es ih =>
    rw [List.forall_mem_cons] at h
    exact (expr_collects h.1 u).trans (ih h.2 _)

mutual

theorem stmt_collects : ∀ {x : Stmt}, x.InRoles role → x.binders ⊆ B → ∀ u : Occurrences,
    Collects role B (x.uses (.reads .scalar)) u (u.stmt x)
  | .define .., h, hB, u => by
    simp only [Stmt.InRoles] at h
    simp only [Stmt.binders, List.cons_subset] at hB
    rw [stmt]
    exact ((expr_collects h u).trans (bind_collects _ hB.1)).mono (by simp [Stmt.uses, Use.among])
  | .assign .., h, _, u => by
    simp only [Stmt.InRoles] at h
    rw [stmt]
    · exact ((expr_collects h.1 u).trans (expr_collects h.2 _)).mono (by simp [Stmt.uses, Use.among])
    all_goals simp
  | .forLoop .., h, hB, u => by
    simp only [Stmt.InRoles] at h
    simp only [Stmt.binders, List.cons_subset] at hB
    rw [stmt]
    exact (((((expr_collects h.1 u).trans (bind_collects _ hB.1)).trans (expr_collects h.2.1 _)).trans
      (expr_collects h.2.2.1 _)).trans (stmts_collects h.2.2.2 hB.2 _)).mono (by simp [Stmt.uses, Use.among])
  | .ifElse .., h, hB, u => by
    simp only [Stmt.InRoles] at h
    simp only [Stmt.binders, List.append_subset] at hB
    rw [stmt]
    exact (((expr_collects h.1 u).trans (stmts_collects h.2.1 hB.1 _)).trans (stmts_collects h.2.2 hB.2 _)).mono
      (by simp [Stmt.uses, Use.among])
  | .whileLoop .., h, hB, u => by
    simp only [Stmt.InRoles] at h
    simp only [Stmt.binders] at hB
    rw [stmt]
    exact ((expr_collects h.1 u).trans (stmts_collects h.2 hB _)).mono (by simp [Stmt.uses, Use.among])
  | .scope .., h, hB, u => by
    simp only [Stmt.InRoles] at h
    simp only [Stmt.binders] at hB
    rw [stmt]
    exact (stmts_collects h hB _).mono (by simp [Stmt.uses])
  | .atomic _ sp sc target _ _ old _, h, hB, u => by
    simp only [Stmt.InRoles] at h
    have ht : Collects role B [] u (u.use target (.pointer sc sp)) := use_collects u fun _ => h.1
    have hl := (ht.trans (expr_collects h.2.1 _)).trans (expr_collects h.2.2 _)
    cases old with
    | none =>
      rw [stmt]
      exact hl.mono (by simp [Stmt.uses, Use.among])
    | some n =>
      simp only [Stmt.binders, Option.toList_some, List.cons_subset] at hB
      rw [stmt]
      exact (hl.trans (bind_collects _ hB.1)).mono (by simp [Stmt.uses, Use.among])
  | .compareSwap .., h, hB, u => by
    simp only [Stmt.InRoles] at h
    simp only [Stmt.binders, List.cons_subset] at hB
    rw [stmt]
    exact (((((use_collects u fun _ => h.1).trans (expr_collects h.2.1 _)).trans (expr_collects h.2.2.1 _)).trans
      (expr_collects h.2.2.2 _)).trans (bind_collects _ hB.1)).mono (by simp [Stmt.uses, Use.among])
  | .alloc .., h, _, u => by
    simp only [Stmt.InRoles] at h
    rw [stmt]
    · exact (expr_collects h u).mono (by simp [Stmt.uses, Use.among])
    all_goals simp
  | .copy .., h, _, u => by
    simp only [Stmt.InRoles] at h
    rw [stmt]
    · exact (((expr_collects h.1 u).trans (expr_collects h.2.1 _)).trans (expr_collects h.2.2 _)).mono
        (by simp [Stmt.uses, Use.among])
    all_goals simp
  | .fill .., h, _, u => by
    simp only [Stmt.InRoles] at h
    rw [stmt]
    · exact (((expr_collects h.1 u).trans (expr_collects h.2.1 _)).trans (expr_collects h.2.2 _)).mono
        (by simp [Stmt.uses, Use.among])
    all_goals simp
  | .table .., h, _, u => by
    simp only [Stmt.InRoles] at h
    rw [stmt, Stmt.uses, Use.among, Stmt.foldExprs, List.idRun_foldlM]
    · exact foldl_expr_collects h u
    all_goals simp
  | .barrier .., _, _, u => by
    rw [stmt]
    · exact (Collects.refl u).mono (by simp [Stmt.uses])
    all_goals simp
  | .fence .., _, _, u => by
    rw [stmt]
    · exact (Collects.refl u).mono (by simp [Stmt.uses])
    all_goals simp
  | .free .., _, _, u => by
    rw [stmt]
    · exact (Collects.refl u).mono (by simp [Stmt.uses, Use.among])
    all_goals simp
  | .rebind .., _, _, u => by
    rw [stmt]
    · exact (Collects.refl u).mono (by simp [Stmt.uses, Use.among])
    all_goals simp
  | .launch .., _, _, u => by
    rw [stmt]
    · exact (Collects.refl u).mono (by simp [Stmt.uses])
    all_goals simp

theorem stmts_collects : ∀ {l : List Stmt}, blockInRoles role l → blockBinders l ⊆ B → ∀ u : Occurrences,
    Collects role B (blockUses (.reads .scalar) l) u (u.stmts l)
  | [], _, _, u => by
    rw [stmts, blockUses_nil]
    exact .refl u
  | x :: l, h, hB, u => by
    rw [blockInRoles] at h
    rw [blockBinders_cons, List.append_subset] at hB
    rw [stmts, blockUses_cons]
    exact (stmt_collects h.1 hB.1 u).trans (stmts_collects h.2 hB.2 _)

end

end Occurrences

/-- the bindings of some names only -/
def Bindings.restrict {β : Type} (b : Bindings β) (names : List Name) : Bindings β :=
  ⟨b.entries.filter fun e => e.1 ∈ names⟩

theorem Bindings.get?_restrict {β : Type} (b : Bindings β) (names : List Name) (n : Name) :
    (b.restrict names).get? n = if n ∈ names then b.get? n else none := by
  obtain ⟨l⟩ := b
  change find? n (l.filter fun e => e.1 ∈ names) = if n ∈ names then find? n l else none
  induction l with
  | nil => simp [find?]
  | cons e l ih =>
    obtain ⟨m, v⟩ := e
    by_cases hm : m ∈ names <;> by_cases hn : m = n <;> simp_all [List.filter, find?]

/-- the scalar variables that a kernel captures -/
def LaunchSpec.variables (spec : LaunchSpec) : List Name :=
  (spec.captures.filter fun x => !x.2.isPointer).map (·.1)

variable {role : Name → Role} {body : List Stmt}

/-- **Nothing is missed.** A variable that the body of a kernel reads is captured, bound by the body, or has the name of
local memory. -/
theorem read_of_captured (name : Name) (blocks : List LocalBlock) (groups groupSize : List Expr) (o : Origin)
    (h : blockInRoles role body) {n : Name} (hn : n ∈ blockUses (.reads .scalar) body) :
    n ∈ (Kernel.make name body blocks groups groupSize o).variables ∨ n ∈ blockBinders body ∨
      n ∈ blocks.map (·.name) := by
  obtain ⟨hfree, hbound⟩ := Occurrences.start_spec blocks
  have hl := Occurrences.stmts_collects h (List.Subset.refl _) (.start blocks)
  obtain ⟨hrole, hb | hf⟩ := hl.reads n hn
  · exact .inr ((hl.bound n hb).imp_right (hbound n).1)
  · obtain ⟨ty, hty⟩ := Option.isSome_iff_exists.1 hf
    have hscalar : ty.isPointer = false := by
      by_contra hp
      have hstart : (Occurrences.start blocks).PointersAreArrays role := fun m ty' hm => by
        rw [hfree] at hm
        cases hm
      rw [hl.pointers hstart n ty hty (by simpa using hp)] at hrole
      cases hrole
    refine .inl (List.mem_map.2 ⟨(n, ty), List.mem_filter.2 ⟨?_, by simp [hscalar]⟩, rfl⟩)
    exact Bindings.mem_sorted.2 (Bindings.mem_of_get? hty)

/-! ## Runs -/

namespace Machine

variable {c : Context} {s s' : State} {vars vars' : Bindings Value} {N : List Name}

/-- what a launch captures are the variables of the host, restricted to the scalar captures -/
theorem capture_eq_restrict {spec : LaunchSpec} (h : capture s spec spec.captures = .ok vars) (n : Name) :
    vars.get? n = (s.vars.restrict spec.variables).get? n := by
  rw [capture_get? h, Bindings.get?_restrict]
  rfl

/-- a thread runs phases on its variables; each phase finds the memory that the other threads have left by then -/
def runTurns (c : Context) : List (Memory × List Stmt) → Bindings Value → Exec (Bindings Value)
  | [], vars => return vars
  | (m, phase) :: rest, vars => do
    modify fun s => { s with memory := m }
    runTurns c rest (← runThread c phase vars)

/-- what is seen of a thread: the fault that it meets, or the memory and the variables `N` that it leaves -/
def seen (N : List Name) : EStateM.Result Fault State (Bindings Value) → Except Fault (Memory × List (Option Value))
  | .ok vars s => .ok (s.memory, N.map vars.get?)
  | .error f _ => .error f

theorem runTurns_cons (m : Memory) (phase : List Stmt) (turns : List (Memory × List Stmt)) :
    runTurns c ((m, phase) :: turns) vars s =
      match execAll noLaunch c phase { s with memory := m, vars := vars } with
      | .ok _ t => runTurns c turns t.vars t
      | .error f t => .error f t := by
  cases h : execAll noLaunch c phase { s with memory := m, vars := vars } with
  | ok a t =>
    have ht : runThread c phase vars { s with memory := m } = .ok t.vars t :=
      bind_eq_ok.2 ⟨(), _, rfl, bind_eq_ok.2 ⟨a, t, h, rfl⟩⟩
    exact bind_run ht
  | error f t =>
    have ht : runThread c phase vars { s with memory := m } = .error f t := (bind_run rfl).trans (bind_fails h)
    exact (bind_run rfl).trans (bind_fails ht)

/-- what is seen of a thread depends on no variables but those that its code reads -/
theorem runTurns_local (hc : c.thread.isSome = true) {turns : List (Memory × List Stmt)}
    (hN : ∀ x ∈ turns, blockUses (.reads .scalar) x.2 ⊆ N) (hv : ∀ n ∈ N, vars.get? n = vars'.get? n)
    (hm : s.memory = s'.memory) (hl : s.launched = s'.launched) :
    seen N (runTurns c turns vars s) = seen N (runTurns c turns vars' s') := by
  induction turns generalizing vars vars' s s' with
  | nil =>
    change Except.ok (s.memory, N.map vars.get?) = Except.ok (s'.memory, N.map vars'.get?)
    rw [hm, List.map_congr_left hv]
  | cons x turns ih =>
    obtain ⟨m, phase⟩ := x
    rw [List.forall_mem_cons] at hN
    have ho := execAll_local (L := noLaunch) hc hN.1 { s with memory := m, vars := vars }
      { s' with memory := m, vars := vars' } ⟨hv, rfl, hl⟩
    rw [runTurns_cons, runTurns_cons]
    generalize execAll noLaunch c phase { s with memory := m, vars := vars } = r at ho ⊢
    generalize execAll noLaunch c phase { s' with memory := m, vars := vars' } = r' at ho ⊢
    cases r with
    | ok a t =>
      cases r' with
      | ok a' t' => exact ih hN.2 ho.2.vars ho.2.memory ho.2.launched
      | error f' t' => exact ho.elim
    | error f t =>
      cases r' with
      | ok a' t' => exact ho.elim
      | error f' t' =>
        obtain ⟨rfl, -⟩ := ho
        rfl

theorem seen_mono {N' : List Name} (hN : N' ⊆ N) {r r' : EStateM.Result Fault State (Bindings Value)}
    (h : seen N r = seen N r') : seen N' r = seen N' r' := by
  cases r with
  | ok vars t =>
    cases r' with
    | ok vars' t' =>
      simp only [seen, Except.ok.injEq, Prod.mk.injEq, List.map_inj_left] at h ⊢
      exact ⟨h.1, fun n hn => h.2 n (hN hn)⟩
    | error f' t' => cases h
  | error f t =>
    cases r' with
    | ok vars' t' => cases h
    | error f' t' => exact h

/-- **Capturing the uses is enough.** A thread that runs phases of a kernel on the captured variables meets the same fault
as on all variables of the host, or leaves the same memory and the same values of the variables that are captured or
bound by the body. -/
theorem runTurns_captured (role : Name → Role) {body : List Stmt} (name : Name) (blocks : List LocalBlock)
    (groups groupSize : List Expr) (o : Origin) (hc : c.thread.isSome = true) (hbody : blockInRoles role body)
    {host : Bindings Value} (hhost : ∀ n ∈ blockBinders body ++ blocks.map (·.name), host.get? n = none)
    {turns : List (Memory × List Stmt)} (hturns : ∀ x ∈ turns, x.2 ∈ phases body) :
    let captured := (Kernel.make name body blocks groups groupSize o).variables
    seen (captured ++ blockBinders body) (runTurns c turns (host.restrict captured) s) =
      seen (captured ++ blockBinders body) (runTurns c turns host s) := by
  intro captured
  have hsub : captured ++ blockBinders body ⊆ captured ++ (blockBinders body ++ blocks.map (·.name)) := by
    rw [← List.append_assoc]
    exact List.subset_append_left _ _
  refine seen_mono hsub (runTurns_local hc (fun x hx n hn => ?_) (fun n hn => ?_) rfl rfl)
  · obtain ⟨st, hst, hn⟩ := mem_blockUses.1 hn
    have hread := read_of_captured name blocks groups groupSize o hbody
      (mem_blockUses.2 ⟨st, mem_phases (hturns x hx) hst, hn⟩)
    simpa only [List.mem_append] using hread
  · rw [Bindings.get?_restrict]
    split_ifs with hcap
    · rfl
    · exact (hhost n ((List.mem_append.1 hn).resolve_left hcap)).symm

/-- a body with two phases that reads, binds and sets variables -/
def stepping : List Stmt :=
  let x := Name.plain "x"
  let y := Name.plain "y"
  let a (i : Expr) := Expr.element (.plain "a") .i64 .device i
  [.bind y (.ofName x + 1), .store (a 0) (.ofName y), .update x (.ofName y * 2), .barrier .shared .unknown,
    .store (a 1) (.ofName x)]

theorem runTurns_captured_stepping :
    let host : Bindings Value := ((∅ : Bindings Value).set (.plain "x") (.word 5)).set (.plain "z") (.word 7)
    let m : Memory := Memory.insert {} (.plain "a") (.zeros .i64 2)
    let turns := (phases stepping).map fun p => (m, p)
    let c : Context := { limits := {}, sizes := fun _ => none, loopLimit := 10, thread := some default }
    let captured := (Kernel.make (.plain "k") stepping [] [1] [1] .unknown).variables
    (seen [] (runTurns c turns host {})).isOk = true ∧ (host.restrict captured).get? (.plain "z") = none ∧
      seen (captured ++ blockBinders stepping) (runTurns c turns (host.restrict captured) {}) =
        seen (captured ++ blockBinders stepping) (runTurns c turns host {}) := by
  intro host m turns c captured
  have hz : Name.plain "z" ∉ captured := fun h => by
    obtain ⟨e, he, hz⟩ := List.mem_map.1 h
    have hmem : e ∈ ((Occurrences.start []).stmts stepping).free.entries := Bindings.mem_sorted.1 (List.mem_filter.1 he).1
    have hfree : Name.plain "z" ∉ ((Occurrences.start []).stmts stepping).free.entries.map (·.1) := by decide +kernel
    exact hfree (hz ▸ List.mem_map_of_mem hmem)
  refine ⟨by decide +kernel, by rw [Bindings.get?_restrict, if_neg hz], runTurns_captured
    (fun n => if n = .plain "a" then .array else .scalar) _ [] _ _ _ rfl ?_ ?_ fun x hx => ?_⟩
  · simp only [stepping, Stmt.bind, Stmt.store, Stmt.update, blockInRoles, Stmt.InRoles]
    exact ⟨⟨⟨rfl, rfl⟩, trivial⟩, ⟨⟨rfl, trivial⟩, rfl, rfl⟩, ⟨⟨rfl, rfl⟩, ⟨rfl, rfl⟩, trivial⟩, trivial,
      ⟨⟨rfl, trivial⟩, rfl, rfl⟩, trivial⟩
  · decide +kernel
  · obtain ⟨p, hp, rfl⟩ := List.mem_map.1 hx
    exact hp

end Machine

end GpuHistogram
