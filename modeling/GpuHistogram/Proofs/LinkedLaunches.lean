/-
Launches in two linked programs. A kernel is the same in both if its body is made of pieces that are the same between
barriers at the same places, its shape has the same values, and its local memory has blocks of the same sizes
(`Link.SameKernel`). Then the second launch succeeds where the first does, and the states of the hosts are linked after it
as before (`launch_mirrors`).

The kernels need not capture the same variables: where the first has a literal, the second captures the variable that
stands for it. The passes over the two bodies meet corresponding variables (`Link.Passed`), and whatever a body reads it
binds or captures (`stmts_meets`), so every thread of the second kernel starts with the variables that the first has and
with the numbers that its code reads (`Link.Captures`).
-/
import GpuHistogram.Proofs.CapturedRuns
import GpuHistogram.Proofs.Isolation
import GpuHistogram.Proofs.LaunchLimits
import GpuHistogram.Proofs.LinkedCode

namespace GpuHistogram

/-! ## What a pass meets -/

namespace Occurrences

variable {u v w : Occurrences} {S S' : List Name} {n : Name}

/-- a pass from `u` to `v` meets the variables `S`, and what was met stays met -/
structure Meets (S : List Name) (u v : Occurrences) : Prop where
  keeps : ∀ n, u.Met n → v.Met n
  reads : ∀ n ∈ S, v.Met n

namespace Meets

theorem refl (u : Occurrences) : Meets [] u u := ⟨fun _ => id, fun _ hn => absurd hn List.not_mem_nil⟩

theorem trans (h : Meets S u v) (h' : Meets S' v w) : Meets (S ++ S') u w where
  keeps n hn := h'.keeps n (h.keeps n hn)
  reads n hn := (List.mem_append.1 hn).elim (fun hn => h'.keeps n (h.reads n hn)) (h'.reads n)

theorem mono (h : Meets S u v) (hS : S' ⊆ S) : Meets S' u v := ⟨h.keeps, fun n hn => h.reads n (hS hn)⟩

end Meets

theorem use_meets (u : Occurrences) (n : Name) (ty : Ty) : Meets [n] u (u.use n ty) := by
  refine ⟨fun m hm => ?_, by simpa using use_met u n ty⟩
  unfold use
  split_ifs
  · exact hm
  · refine hm.imp_right fun h => ?_
    rw [Bindings.get?_set]
    split_ifs
    · rfl
    · exact h

theorem bind_meets (u : Occurrences) (n : Name) : Meets [] u (u.bind n) :=
  ⟨fun _ hm => hm.imp_left (List.mem_cons_of_mem n), fun _ hn => absurd hn List.not_mem_nil⟩

theorem expr_meets (e : Expr) (u : Occurrences) : Meets e.scalars u (u.expr e) := by
  induction e generalizing u with
  | var n ty o => exact use_meets u n ty
  | unary op e ty o ih => exact ih u
  | convert e ty ih => exact ih u
  | bitCast e ty ih => exact ih u
  | binary op l r ty o ihl ihr => exact (ihl u).trans (ihr _)
  | select b t e ty o ihb iht ihe => exact ((ihb u).trans (iht _)).trans (ihe _)
  | access t i ty o iht ihi => exact ((iht u).trans (ihi _)).mono (List.subset_append_right _ _)
  | _ => exact .refl u

theorem exprs_meets (es : List Expr) (u : Occurrences) :
    Meets (es.flatMap (·.scalars)) u (Id.run (es.foldlM (fun u e => pure (u.expr e)) u)) := by
  induction es generalizing u with
  | nil => exact .refl u
  | cons e es ih =>
    rw [List.foldlM_cons]
    exact (expr_meets e u).trans (ih _)

mutual

/-- whatever a statement reads is met -/
theorem stmt_meets : ∀ (x : Stmt) (u : Occurrences), Meets (x.uses (.reads .scalar)) u (u.stmt x)
  | .define ty n e o, u => ((expr_meets e u).trans (bind_meets _ n)).mono (by simp [Stmt.uses, Use.among])
  | .assign dst e o, u => ((expr_meets dst u).trans (expr_meets e _)).mono (by simp [Stmt.uses, Use.among])
  | .forLoop ty n init cond incr body o, u =>
    (((((expr_meets init u).trans (bind_meets _ n)).trans (expr_meets cond _)).trans (expr_meets incr _)).trans
      (stmts_meets body _)).mono (by simp [Stmt.uses, Use.among])
  | .ifElse cond thn els o, u =>
    (((expr_meets cond u).trans (stmts_meets thn _)).trans (stmts_meets els _)).mono (by simp [Stmt.uses, Use.among])
  | .whileLoop cond body o, u =>
    ((expr_meets cond u).trans (stmts_meets body _)).mono (by simp [Stmt.uses, Use.among])
  | .scope body o, u => (stmts_meets body u).mono (by simp [Stmt.uses])
  | .atomic op sp sc n i e old o, u => by
    have h := ((use_meets u n (.pointer sc sp)).trans (expr_meets i _)).trans (expr_meets e _)
    cases old with
    | none => exact h.mono (by simp [Stmt.uses, Use.among])
    | some x => exact (h.trans (bind_meets _ x)).mono (by simp [Stmt.uses, Use.among])
  | .compareSwap old sp sc n i c e o, u =>
    (((((use_meets u n (.pointer sc sp)).trans (expr_meets i _)).trans (expr_meets c _)).trans (expr_meets e _)).trans
      (bind_meets _ old)).mono (by simp [Stmt.uses, Use.among])
  | .alloc n sc count o, u => (expr_meets count u).mono (by simp [Stmt.uses, Use.among])
  | .copy dst i src j k o, u => exprs_meets [i, j, k] u
  | .fill n i k e o, u => exprs_meets [i, k, e] u
  | .table n sc values o, u => exprs_meets values u
  | .barrier .., u | .fence .., u | .free .., u | .rebind .., u | .launch .., u => .refl u

theorem stmts_meets : ∀ (l : List Stmt) (u : Occurrences), Meets (blockUses (.reads .scalar) l) u (u.stmts l)
  | [], u => .refl u
  | x :: l, u => by
    rw [blockUses_cons]
    exact (stmt_meets x u).trans (stmts_meets l _)

end

end Occurrences

/-- the number of elements that a block has where its kernel is launched -/
def BlockSize.Counts (b : BlockSize) (c : Machine.Context) (s : Machine.State) (k : ℕ) : Prop :=
  match b with
  | .fixed n => (k : Int) = n
  | .computed e => Machine.evalInt c s e = .ok (k : Int)

namespace Machine

/-- no statement of the folded code is a barrier itself -/
def Flat (l : List Stmt) : Prop := ∀ x ∈ foldBlock l, isBarrier x = false

/-- where variables have been captured, all of them are there -/
theorem captured_of_ok {s : State} {spec : LaunchSpec} {l : List (Name × Ty)} {vars : Bindings Value}
    (h : capture s spec l = .ok vars) :
    ∀ x ∈ l, if x.2.isPointer then s.memory.contains x.1 = true else (s.vars.get? x.1).isSome = true := by
  induction l generalizing vars with
  | nil => exact fun x hx => absurd hx List.not_mem_nil
  | cons x l ih =>
    obtain ⟨n, ty⟩ := x
    rw [List.forall_mem_cons]
    simp only [capture] at h
    cases hty : ty.isPointer with
    | true =>
      simp only [hty, if_true] at h ⊢
      split_ifs at h with hn
      exact ⟨hn, ih h⟩
    | false =>
      simp only [hty, Bool.false_eq_true, if_false] at h ⊢
      split at h
      · rename_i v hv
        obtain ⟨rest, hrest, -⟩ := except_bind_eq_ok.1 h
        exact ⟨by rw [hv]; rfl, ih hrest⟩
      · cases h

namespace Link

variable {H : Hosts} {K L M : Link H} {N : Name → Prop} {s t : State} {e e' : Expr} {l l' : List Stmt}
  {spec spec' : LaunchSpec}

/-! ## Threads -/

/-- variables with which threads start corresponding code that reads the variables `N` -/
structure Captures (L : Link H) (N : Name → Prop) (a b : Bindings Value) : Prop where
  vars : L.Vars a b
  holds : ∀ m v, N m → L.value m = some v → b.get? m = some (.word v)

/-- code that is the same on every thread, as it is run there -/
def Phase (L : Link H) (N : Name → Prop) (l l' : List Stmt) : Prop :=
  ∀ th, Mirrors (L.Tied L N) (execAll noLaunch (H.first.within (some th)) l)
    (execAll noLaunch (H.second.within (some th)) l') fun _ _ => True

theorem SameCode.phase (h : L.SameCode l l') (hN : ∀ n ∈ blockUses (.reads .scalar) l', N n) :
    L.Phase N (foldBlock l) (foldBlock l') := fun th => h.echoes L le_rfl L le_rfl th N hN

variable {a b : Bindings Value}

theorem runThread_mirrors (h : L.Phase N l l') (th : ThreadPlace) (hab : L.Captures N a b) :
    Mirrors L.Shares (runThread (H.first.within (some th)) l a) (runThread (H.second.within (some th)) l' b)
      (L.Captures N) := by
  intro s t vars s' hI hx
  unfold runThread at hx ⊢
  obtain ⟨_, u, hu, hx⟩ := bind_eq_ok.1 hx
  cases hu
  obtain ⟨_, u, hu, hx⟩ := bind_eq_ok.1 hx
  cases hx
  have hI₀ : L.Tied L N { s with vars := a } { t with vars := b } := ⟨⟨⟨hI.memory, hI.launched⟩, hab.vars⟩, hab.holds⟩
  obtain ⟨_, t', ht, -, hI'⟩ := h th _ _ _ _ hI₀ hu
  exact ⟨t'.vars, t', bind_eq_ok.2 ⟨(), _, rfl, bind_eq_ok.2 ⟨(), t', ht, rfl⟩⟩, ⟨hI'.1.vars, hI'.2⟩, hI'.1.toShares⟩

/-- a thread of each program at the same place -/
def SameThread (L : Link H) (N : Name → Prop) (x y : Thread) : Prop := x.id = y.id ∧ L.Captures N x.vars y.vars

theorem runPhase_mirrors (h : L.Phase N l l') (place : Triple → ThreadPlace) {xs ys : List Thread}
    (hxs : List.Forall₂ (L.SameThread N) xs ys) :
    Mirrors L.Shares (runPhase (fun id => H.first.within (some (place id))) l xs)
      (runPhase (fun id => H.second.within (some (place id))) l' ys) (List.Forall₂ (L.SameThread N)) := by
  induction hxs with
  | nil => exact .pure .nil
  | @cons x y xs ys hx _ ih =>
    rw [runPhase, runPhase, hx.1]
    exact (runThread_mirrors h (place y.id) hx.2).bind fun a b hab => ih.bind fun as bs has => .pure (.cons ⟨rfl, hab⟩ has)

theorem runPhases_mirrors (place : Triple → ThreadPlace) {ps qs : List (List Stmt)} (h : List.Forall₂ (L.Phase N) ps qs)
    {xs ys : List Thread} (hxs : List.Forall₂ (L.SameThread N) xs ys) :
    Mirrors L.Shares (runPhases (fun id => H.first.within (some (place id))) xs ps)
      (runPhases (fun id => H.second.within (some (place id))) ys qs) fun _ _ => True := by
  induction h generalizing xs ys with
  | nil => exact .pure trivial
  | cons hp _ ih =>
    rw [runPhases, runPhases]
    exact (runPhase_mirrors hp place hxs).bind fun _ _ h => ih h

/-! ## Groups -/

/-- blocks of the same size under corresponding names -/
structure SameBlock (L : Link H) (x y : SizedBlock) : Prop where
  name : L.rel x.name y.name
  elem : x.elem = y.elem
  count : x.count = y.count

theorem allocateBlocks_mirrors {xs ys : List SizedBlock} (h : List.Forall₂ L.SameBlock xs ys) (o o' : Origin) :
    Mirrors L.Shares (allocateBlocks o xs) (allocateBlocks o' ys) fun _ _ => True := by
  induction h with
  | nil => exact .pure trivial
  | @cons x y xs ys hx _ ih =>
    rw [allocateBlocks, allocateBlocks, ← hx.elem, ← hx.count]
    refine Mirrors.bind (R := fun _ _ => True) (fun s t a s' hI hx' => ?_) fun _ _ _ => ih
    unfold allocate at hx' ⊢
    split_ifs at hx' ⊢
    · exact (fail_eq_ok.1 hx').elim
    · cases hx'
      exact ⟨(), _, rfl, trivial, hI.memory.insert hx.name (Buffer.uniform_zeros x.elem x.count), hI.launched⟩

/-- what two launches have prepared: the same grid, code that is the same, and what the threads start with -/
structure SamePrepared (L : Link H) (N : Name → Prop) (p q : Prepared) : Prop where
  shape : p.shape = q.shape
  phases : List.Forall₂ (L.Phase N) p.phases q.phases
  captured : L.Captures N p.captured q.captured
  blocks : List.Forall₂ L.SameBlock p.blocks q.blocks

variable {p q : Prepared} {o o' : Origin}

theorem runGroup_mirrors (h : L.SamePrepared N p q) (g : Triple) :
    Mirrors L.Shares (runGroup H.first p o g) (runGroup H.second q o' g) fun _ _ => True := by
  unfold runGroup
  refine (allocateBlocks_mirrors h.blocks o o').bind fun _ _ _ => ?_
  rw [h.shape]
  refine runPhases_mirrors (fun id => ⟨id, g, q.shape.groupSize, q.shape.groups⟩) h.phases ?_
  induction q.shape.groupSize.indices with
  | nil => exact .nil
  | cons id ids ih => exact .cons ⟨rfl, h.captured⟩ ih

/-- a group that has run is over for both hosts, which see their own variables and names again -/
theorem isolated_mirrors {N' : Name → Prop} (hM : L ≤ M) {x y : Exec Unit} (h : Mirrors L.Shares x y fun _ _ => True) :
    Mirrors (K.Tied M N') (isolated x) (isolated y) fun _ _ => True := by
  intro s t a s' hI hx
  unfold isolated at hx ⊢
  have hsize : t.memory.buffers.size = s.memory.buffers.size := by rw [hI.1.memory.buffers]
  cases hu : x s with
  | error f u =>
    simp only [hu] at hx
    cases hx
  | ok b u =>
    simp only [hu] at hx
    cases hx
    obtain ⟨_, w, hw, -, hshares⟩ := h s t b u ⟨hI.1.memory.mono hM, hI.1.launched⟩ hu
    simp only [hw]
    refine ⟨(), _, rfl, trivial, ⟨⟨⟨hI.1.memory.get, ?_, fun p b hp => ?_⟩, hshares.launched⟩, hI.1.vars⟩, hI.2⟩
    · simp only [restore, hsize, hshares.memory.buffers]
    · obtain ⟨hlt, rfl⟩ := Array.getElem?_eq_some_iff.1 hp
      simp only [restore, Array.size_shrink] at hlt
      simp only [restore, Array.getElem_shrink]
      exact hshares.memory.uniform p _ (Array.getElem?_eq_getElem (by omega))

theorem runGroups_mirrors {N' : Name → Prop} (hM : L ≤ M) (h : L.SamePrepared N p q) (gs : List Triple) :
    Mirrors (K.Tied M N') (runGroups H.first p o gs) (runGroups H.second q o' gs) fun _ _ => True := by
  induction gs with
  | nil => exact .pure trivial
  | cons g gs ih => exact (isolated_mirrors hM (runGroup_mirrors h g)).bind fun _ _ _ => ih

/-! ## Bodies -/

/-- pieces of code that are the same on every thread, with the same barriers between them -/
inductive SameBody (L : Link H) : List Stmt → List Stmt → Prop
  | last {l l' : List Stmt} (h : L.SameCode l l') (hl : Flat l) (hl' : Flat l') : SameBody L l l'
  | barrier {l l' r r' : List Stmt} (b : BarrierScope) (h : L.SameCode l l') (hl : Flat l) (hl' : Flat l')
    (hr : SameBody L r r') : SameBody L (l ++ .barrier b .unknown :: r) (l' ++ .barrier b .unknown :: r')

theorem anyBarrier_of_flat {l : List Stmt} (hl : Flat l)
    (h : (foldBlock l).any (fun x => !isBarrier x && hasBarrier x) = false) : anyBarrier (foldBlock l) = false := by
  unfold Flat at hl
  generalize foldBlock l = xs at hl h
  induction xs with
  | nil => rfl
  | cons x xs ih =>
    rw [List.forall_mem_cons] at hl
    simp only [List.any_cons, Bool.or_eq_false_iff, hl.1, Bool.not_false, Bool.true_and] at h
    simp only [anyBarrier, h.1, Bool.false_or]
    exact ih hl.2 h.2

theorem any_of_anyBarrier {l : List Stmt} (h : anyBarrier l = false) :
    l.any (fun x => !isBarrier x && hasBarrier x) = false := by
  rw [List.any_eq_false]
  intro x hx
  simp [(isBarrier_of_anyBarrier h hx).2]

theorem foldBlock_barrier (l r : List Stmt) (b : BarrierScope) :
    foldBlock (l ++ .barrier b .unknown :: r) = foldBlock l ++ .barrier b .unknown :: foldBlock r := by
  rw [foldBlock_append, foldBlock]
  rfl

namespace SameBody

theorem passed (h : L.SameBody l l') {u u' : Occurrences} (hu : L.Passed u u') : L.Passed (u.stmts l) (u'.stmts l') := by
  induction h generalizing u u' with
  | last h => exact h.uses L le_rfl u u' hu
  | barrier b h hl hl' hr ih =>
    rw [Occurrences.stmts_append, Occurrences.stmts_append]
    exact ih (h.uses L le_rfl u u' hu)

/-- the phases are the same one by one, if no barrier is nested in the first body -/
theorem phases (h : L.SameBody l l') (hN : ∀ n ∈ blockUses (.reads .scalar) l', N n)
    (hany : (foldBlock l).any (fun x => !isBarrier x && hasBarrier x) = false) :
    (foldBlock l').any (fun x => !isBarrier x && hasBarrier x) = false ∧
      List.Forall₂ (L.Phase N) (Machine.phases (foldBlock l)) (Machine.phases (foldBlock l')) := by
  induction h with
  | last h hl hl' =>
    have hcalm := anyBarrier_of_flat hl hany
    rw [phases_eq hcalm, phases_eq (h.calm hcalm)]
    exact ⟨any_of_anyBarrier (h.calm hcalm), .cons (h.phase hN) .nil⟩
  | barrier b h hl hl' hr ih =>
    rw [blockUses_append, blockUses_cons, List.forall_mem_append, List.forall_mem_append] at hN
    rw [foldBlock_barrier, List.any_append, List.any_cons, Bool.or_eq_false_iff, Bool.or_eq_false_iff] at hany
    obtain ⟨hrest, hphases⟩ := ih hN.2.2 hany.2.2
    have hcalm := anyBarrier_of_flat hl hany.1
    rw [foldBlock_barrier, foldBlock_barrier, phases_append hcalm, phases_append (h.calm hcalm)]
    refine ⟨?_, .cons (h.phase hN.1) hphases⟩
    rw [List.any_append, List.any_cons, any_of_anyBarrier (h.calm hcalm), hrest]
    rfl

end SameBody

/-! ## Kernels -/

/-- local memory of the same size under corresponding names -/
structure SameLocal (L : Link H) (x y : LocalBlock) : Prop where
  name : L.rel x.name y.name
  elem : x.elem = y.elem
  size : ∀ s t k, L.Linked s t → L.Holds (fun _ => True) t → x.size.Counts H.first s k → y.size.Counts H.second t k

/-- kernels that do the same -/
structure SameKernel (L : Link H) (x y : Kernel) : Prop where
  name : x.name.text = y.name.text
  body : L.SameBody x.body y.body
  captures : x.captures = freeVariables x.body x.blocks
  captures' : y.captures = freeVariables y.body y.blocks
  blocks : List.Forall₂ L.SameLocal x.blocks y.blocks
  groups : List.Forall₂ L.Same x.groups y.groups
  groupSize : List.Forall₂ L.Same x.groupSize y.groupSize

/-- a name that corresponds to one of a block is one of the corresponding block -/
theorem mem_blocks_iff {n m : Name} {xs ys : List LocalBlock} (h : List.Forall₂ L.SameLocal xs ys) (hr : L.rel n m) :
    n ∈ xs.map (·.name) ↔ m ∈ ys.map (·.name) := by
  induction h with
  | nil => simp
  | cons hx _ ih => simp only [List.map_cons, List.mem_cons, ih, L.rel_iff hr hx.name]

/-- a variable that stands for a number is no block -/
theorem not_mem_blocks {m : Name} {v : Int} {xs ys : List LocalBlock} (h : List.Forall₂ L.SameLocal xs ys)
    (hv : L.value m = some v) : m ∉ ys.map (·.name) := by
  induction h with
  | nil => simp
  | cons hx _ ih =>
    rw [List.map_cons, List.mem_cons, not_or]
    refine ⟨?_, ih⟩
    rintro rfl
    cases (L.apart hx.name).symm.trans hv

theorem passed_start {xs ys : List LocalBlock} (h : List.Forall₂ L.SameLocal xs ys) :
    L.Passed (.start xs) (.start ys) := by
  obtain ⟨hfree, hbound⟩ := Occurrences.start_spec xs
  obtain ⟨hfree', hbound'⟩ := Occurrences.start_spec ys
  constructor
  · intro n m hr
    rw [hbound, hbound']
    exact mem_blocks_iff h hr
  · intro n m _
    rw [hfree, hfree']
    rfl
  · intro n ty hn
    rw [hfree] at hn
    cases hn
  · intro m ty hm
    rw [hfree'] at hm
    cases hm
  · intro m v hv hm
    exact not_mem_blocks h hv ((hbound' m).1 hm)
  · rw [hfree]
    exact List.nodup_nil
  · rw [hfree']
    exact List.nodup_nil

/-- a variable is captured if the pass over the body has met it as one -/
theorem mem_captures {n : Name} {ty : Ty} {body : List Stmt} {blocks : List LocalBlock}
    (hd : ((Occurrences.start blocks).stmts body).free.Distinct) :
    (n, ty) ∈ freeVariables body blocks ↔ ((Occurrences.start blocks).stmts body).free.get? n = some ty :=
  ⟨fun h => Bindings.get?_of_mem hd (Bindings.mem_sorted.1 h), fun h => Bindings.mem_sorted.2 (Bindings.mem_of_get? h)⟩

theorem mem_scalars {n : Name} {l : List (Name × Ty)} :
    n ∈ (l.filter fun x => !x.2.isPointer).map (·.1) ↔ ∃ ty, (n, ty) ∈ l ∧ ty.isPointer = false := by
  simp [List.mem_map, List.mem_filter]

variable {x y : Kernel}

/-- the threads of the second kernel start with the variables that those of the first have, and with the numbers that
their code reads -/
theorem SameKernel.exists_capture (h : L.SameKernel x y) (hs : L.Linked s t) (ht : L.Holds (fun _ => True) t)
    (ha : capture s x.toLaunchSpec x.captures = .ok a) :
    ∃ b, capture t y.toLaunchSpec y.captures = .ok b ∧ L.Captures (· ∈ blockUses (.reads .scalar) y.body) a b := by
  have hpassed := h.body.passed (passed_start h.blocks)
  rw [h.captures] at ha
  have hthere := captured_of_ok ha
  obtain ⟨b, hb, hvals⟩ : ∃ b, capture t y.toLaunchSpec y.captures = .ok b ∧
      ∀ n ty, (n, ty) ∈ y.captures → ty.isPointer = false → b.get? n = t.vars.get? n := by
    refine capture_run fun z hz => ?_
    obtain ⟨m, ty⟩ := z
    rw [h.captures', mem_captures hpassed.distinct'] at hz
    rcases hpassed.right hz with ⟨n, hr⟩ | ⟨⟨v, hv⟩, rfl⟩
    · have hn := hthere (n, ty) ((mem_captures hpassed.distinct).2 ((hpassed.free hr).trans hz))
      rwa [← hs.memory.contains hr, hs.vars.get hr] at hn
    · rw [if_neg (by simp [Ty.i64, Ty.isPointer]), ht m v trivial hv]
      rfl
  have hscalars {n m : Name} (hr : L.rel n m) :
      n ∈ ((freeVariables x.body x.blocks).filter fun z => !z.2.isPointer).map (·.1) ↔
        m ∈ (y.captures.filter fun z => !z.2.isPointer).map (·.1) := by
    simp only [mem_scalars, h.captures', mem_captures hpassed.distinct, mem_captures hpassed.distinct', hpassed.free hr]
  have hfrom {n : Name} {v : Value} (hn : a.get? n = some v) : s.vars.get? n = some v := by
    rw [capture_get? ha] at hn
    split_ifs at hn
    exact hn
  refine ⟨b, hb, ⟨fun {n m} hr => ?_, fun hr hw hn => hs.vars.words hr hw (hfrom hn), fun n v hn => hs.vars.own n v (hfrom hn)⟩,
    fun m v hm hv => ?_⟩
  · rw [capture_get? ha, capture_get? hb, hs.vars.get hr]
    simp only [hscalars hr]
  · rcases (Occurrences.stmts_meets y.body (.start y.blocks)).reads m hm with hbound | hfree
    · exact absurd hbound (hpassed.unbound hv)
    · obtain ⟨ty, hty⟩ := Option.isSome_iff_exists.1 hfree
      rcases hpassed.right hty with ⟨n, hr⟩ | ⟨-, rfl⟩
      · cases (L.apart hr).symm.trans hv
      · have hmem : (m, Ty.i64) ∈ y.captures := by
          rw [h.captures']
          exact (mem_captures hpassed.distinct').2 hty
        rw [hvals m .i64 hmem rfl]
        exact ht m v trivial hv

theorem evalBlocks_of_from {c : Context} {bs : List SizedBlock} (h : List.Forall₂ (SizedBlock.From c s) spec.blocks bs) :
    evalBlocks c s spec = .ok bs := by
  unfold evalBlocks
  generalize spec.blocks = blocks at h
  induction h with
  | nil => rfl
  | @cons b z blocks bs hz _ ih =>
    rw [List.mapM_cons]
    refine except_bind_eq_ok.2 ⟨z, ?_, except_bind_eq_ok.2 ⟨bs, ih, rfl⟩⟩
    have hblock : (⟨b.name, b.elem, (z.count : Int).toNat⟩ : SizedBlock) = z := by
      rw [← hz.name, ← hz.elem, Int.toNat_natCast]
    have hnonneg : ¬ (z.count : Int) < 0 := by omega
    have hsize := hz.size
    cases hb : b.size with
    | fixed n =>
      rw [hb] at hsize
      obtain rfl : (z.count : Int) = n := hsize
      refine except_bind_eq_ok.2 ⟨_, rfl, ?_⟩
      dsimp only
      rw [if_neg hnonneg, hblock]
      rfl
    | computed e =>
      rw [hb] at hsize
      refine except_bind_eq_ok.2 ⟨_, hsize, ?_⟩
      dsimp only
      rw [if_neg hnonneg, hblock]
      rfl

/-- the blocks of the second kernel have the sizes of those of the first -/
theorem exists_blocks (hs : L.Linked s t) (ht : L.Holds (fun _ => True) t) {xs ys : List LocalBlock} {bs : List SizedBlock}
    (h : List.Forall₂ L.SameLocal xs ys) (hbs : List.Forall₂ (SizedBlock.From H.first s) xs bs) :
    ∃ cs, List.Forall₂ (SizedBlock.From H.second t) ys cs ∧ List.Forall₂ L.SameBlock bs cs := by
  induction h generalizing bs with
  | nil =>
    cases hbs
    exact ⟨[], .nil, .nil⟩
  | @cons x y xs ys hx _ ih =>
    obtain _ | ⟨hb, hbs⟩ := hbs
    rename_i b bs
    obtain ⟨cs, hcs, hsame⟩ := ih hbs
    refine ⟨⟨y.name, y.elem, b.count⟩ :: cs, .cons ⟨rfl, rfl, hx.size s t b.count hs ht hb.size⟩ hcs, .cons ⟨?_, ?_, rfl⟩ hsame⟩
    · rw [hb.name]
      exact hx.name
    · rw [hb.elem, hx.elem]

theorem within_none : H.first.within none = H.first ∧ H.second.within none = H.second := by
  constructor
  · unfold Context.within
    rw [← H.thread]
  · unfold Context.within
    rw [← H.thread']

theorem evalInt_host (he : L.Same e e') (hs : L.Linked s t) (ht : L.Holds (fun _ => True) t) {k : Int}
    (h : evalInt H.first s e.fold = .ok k) : evalInt H.second t e'.fold = .ok k := by
  obtain ⟨v, hv, h⟩ := except_bind_eq_ok.1 h
  have hfollows := he.follows none s t v hs (ht.subset fun _ _ => trivial)
  rw [within_none.1, within_none.2] at hfollows
  exact except_bind_eq_ok.2 ⟨v, hfollows hv, h⟩

theorem evalInts_host (hs : L.Linked s t) (ht : L.Holds (fun _ => True) t) {es es' : List Expr}
    (h : List.Forall₂ L.Same es es') {ks : List Int}
    (hks : List.Forall₂ (fun e k => evalInt H.first s e = .ok k) (es.map Expr.fold) ks) :
    List.Forall₂ (fun e k => evalInt H.second t e = .ok k) (es'.map Expr.fold) ks := by
  induction h generalizing ks with
  | nil => cases hks with | nil => exact .nil
  | cons he _ ih => cases hks with | cons hk hks => exact .cons (evalInt_host he hs ht hk) (ih hks)

/-- the shape of the grid has the same values -/
theorem SameKernel.exists_shape (h : L.SameKernel x y) (hs : L.Linked s t) (ht : L.Holds (fun _ => True) t) {g : Shape}
    (hg : shape H.first s x.toLaunchSpec.fold = .ok g) : shape H.second t y.toLaunchSpec.fold = .ok g := by
  have hdims : y.toLaunchSpec.fold.dims = x.toLaunchSpec.fold.dims := by
    simp only [LaunchSpec.dims, LaunchSpec.fold, List.length_map, h.groups.length_eq]
  have hlength : y.toLaunchSpec.fold.groupSize.length = x.toLaunchSpec.fold.groupSize.length := by
    simp only [LaunchSpec.fold, List.length_map, h.groupSize.length_eq]
  rw [shape_eq_ok_iff] at hg ⊢
  obtain ⟨ns, hns, hgroups⟩ := hg.groups
  obtain ⟨ks, hks, hsizes⟩ := hg.groupSize
  exact
    { dims := hdims ▸ hg.dims
      axes := by rw [hdims, hlength, hg.axes]
      groups := ⟨ns, evalInts_host hs ht h.groups hns, hgroups⟩
      groupSize := ⟨ks, evalInts_host hs ht h.groupSize hks, hsizes⟩
      nonneg := hg.nonneg
      limit := by
        rw [H.limits]
        exact hg.limit }

/-- **Launches.** Where the first kernel runs to its end, the second does, and the hosts are linked again. -/
theorem launch_mirrors (h : L.SameKernel x y) (hL : L ≤ M) :
    Mirrors (L.Tied M fun _ => True) (launch H.first x.toLaunchSpec.fold (foldBlock x.body))
      (launch H.second y.toLaunchSpec.fold (foldBlock y.body)) fun _ _ => True := by
  unfold launch
  refine Mirrors.bind (R := L.SamePrepared (· ∈ blockUses (.reads .scalar) y.body)) (.observe fun s t p hI hp => ?_)
    fun p q hpq => ?_
  · have hs := hI.1.mono hL
    have ht := hI.2
    unfold prepare at hp ⊢
    obtain ⟨g, hg, hp⟩ := except_bind_eq_ok.1 hp
    obtain ⟨ps, hps, hp⟩ := except_bind_eq_ok.1 hp
    obtain ⟨a, ha, hp⟩ := except_bind_eq_ok.1 hp
    obtain ⟨bs, hbs, hp⟩ := except_bind_eq_ok.1 hp
    obtain rfl := except_pure_eq_ok.1 hp
    unfold topLevelPhases at hps
    split_ifs at hps with hany
    cases hps
    rw [Bool.not_eq_true] at hany
    obtain ⟨hany', hphases⟩ := h.body.phases (fun _ hn => hn) hany
    obtain ⟨b, hb, hab⟩ := h.exists_capture hs ht (by rwa [capture_fold] at ha)
    obtain ⟨cs, hcs, hsame⟩ := exists_blocks hs ht h.blocks (evalBlocks_eq_ok hbs)
    refine ⟨⟨g, phases (foldBlock y.body), b, cs⟩, ?_, ⟨rfl, hphases, hab, hsame⟩⟩
    refine except_bind_eq_ok.2 ⟨g, h.exists_shape hs ht hg, except_bind_eq_ok.2 ⟨_, ?_, except_bind_eq_ok.2 ⟨b, ?_,
      except_bind_eq_ok.2 ⟨cs, evalBlocks_of_from hcs, rfl⟩⟩⟩⟩
    · unfold topLevelPhases
      rw [if_neg (by rw [hany']; decide)]
    · rwa [capture_fold]
  · refine Mirrors.bind (R := fun _ _ => True) (fun s t _ s' hI hx => ?_) fun _ _ _ => ?_
    · cases hx
      refine ⟨(), _, rfl, trivial, ⟨⟨hI.1.memory, ?_⟩, hI.1.vars⟩, hI.2⟩
      change s.launched.push x.name.text = t.launched.push y.name.text
      rw [hI.1.launched, h.name]
    · rw [hpq.shape]
      exact runGroups_mirrors hL hpq _

end Link

end Machine

end GpuHistogram
