/-
The kernel that accumulates in local memory, as it is written. `localCode_writes` finds its launch among the host code:
before it the number of copies is bound and the copies in global memory are made, after it only the copies are merged.
`Plan.LocalKernel` keeps what the blocks of local memory depend on. No other kernel of a histogram has the same name.
-/
import GpuHistogram.Proofs.Emission
import GpuHistogram.Proofs.Merging
import Mathlib.Algebra.BigOperators.Ring.Finset

namespace GpuHistogram

variable {k k₀ : ℕ}

/-! ## Names of kernels -/

/-- the code launches no kernel of a name -/
def Spares (name : String) (l : List Stmt) : Prop := ∀ κ ∈ blockKernels l, κ.name.text ≠ name

namespace Spares

variable {name : String} {l l' : List Stmt}

theorem of_quiet (h : Quiet k l) : Spares name l := fun κ hκ => by
  rw [h.kernels] at hκ
  exact absurd hκ List.not_mem_nil

theorem nil : Spares name [] := of_quiet (.nil 0)

theorem append (h : Spares name l) (h' : Spares name l') : Spares name (l ++ l') := fun κ hκ => by
  rw [blockKernels_append, List.mem_append] at hκ
  exact hκ.elim (h κ) (h' κ)

theorem launch {κ : Kernel} (h : κ.name.text ≠ name) (o : Origin) : Spares name [κ.toStmt o] := by
  intro κ' hκ
  rw [blockKernels_cons, blockKernels_nil, Kernel.toStmt, Stmt.kernels, List.append_nil, List.mem_singleton] at hκ
  exact hκ ▸ h

theorem ifThen (h : Spares name l) (cond : Expr) :
    Spares name [.ifThen cond l] := by
  intro κ hκ
  rw [blockKernels_cons, blockKernels_nil, Stmt.ifThen, Stmt.kernels, blockKernels_nil, List.append_nil, List.append_nil] at hκ
  exact h κ hκ

end Spares

/-- a generator of code that launches no kernel of a name -/
def WritesSparing {α : Type} (name : String) (E : Emit α) (k : ℕ) : Prop :=
  Writes E k fun _ l _ => Spares name l

namespace WritesSparing

variable {α β : Type} {name : String} {E : Emit α} {F : α → Emit β}

theorem pure (a : α) : WritesSparing name (Pure.pure a : Emit α) k := Writes.pure .nil

theorem bind (h : WritesSparing name E k) (hF : ∀ a k', WritesSparing name (F a) k') : WritesSparing name (E >>= F) k :=
  Writes.bind h fun a _ k' hl => (hF a k').mono fun _ _ _ hl' => hl.append hl'

theorem lift (g : Gen α) : WritesSparing name (g : Emit α) k := Writes.lift fun _ _ _ => .nil

theorem stmts {l : List Stmt} (h : Spares name l) : WritesSparing name (Emit.stmts l) k := Writes.stmts h

theorem bindSize (label : String) (e : Expr) : WritesSparing name (Emit.bindSize label e) k :=
  Writes.mono (WritesQuiet.bindSize label e (Nat.le_refl k)) fun _ _ _ h => .of_quiet h.2.1

theorem mapM {G : α → Emit β} (l : List α) (hG : ∀ a k', WritesSparing name (G a) k') :
    WritesSparing name (l.mapM G) k := by
  induction l generalizing k with
  | nil =>
    rw [List.mapM_nil]
    exact pure []
  | cons a l ih =>
    rw [List.mapM_cons]
    exact bind (hG a k) fun b _ => bind ih fun bs _ => pure (b :: bs)

end WritesSparing

namespace Histogram

/-- the name of the kernel that accumulates in local memory -/
def localKernelName (h : Histogram) : String := h.name ++ "_local"

theorem append_ne {a b c : String} (h : b ≠ c) : a ++ b ≠ a ++ c := fun he => h (by
  have hl := congrArg String.toList he
  rw [String.toList_append, String.toList_append, List.append_cancel_left_eq] at hl
  exact String.toList_inj.1 hl)

end Histogram

/-! ## Code around the kernel -/

namespace Subhistograms

variable {h : Subhistograms}

theorem allocation_quiet (h : Subhistograms) (count : Expr) {seg : Name} (hseg : ¬ seg.Before k) (sub : Name) (d : Destination)
    (ne : Expr) : Quiet k (h.allocation count seg sub d ne) := by
  have hcount : (Stmt.count seg 0 h.segments [.copy sub (.ofName seg * count * h.size) d.name (.ofName seg * h.size) h.size
      .unknown]).Quiet k := by
    refine ⟨by simp [Stmt.count, Stmt.countBy, Stmt.kernels], fun n hn => ?_⟩
    simp only [Stmt.count, Stmt.countBy, Stmt.uses, Use.among, blockUses_cons, blockUses_nil, List.append_nil,
      List.mem_singleton] at hn
    exact hn ▸ hseg
  refine .cons ⟨by simp [Stmt.kernels], fun n hn => ?_⟩ (.cons ⟨by simp [Stmt.kernels], fun n hn => ?_⟩ (.cons hcount (.nil k)))
  all_goals simp [Stmt.uses, Use.among] at hn

theorem allocate_quiet (h : Subhistograms) (count : Expr) {seg : Name} (hseg : ¬ seg.Before k) :
    (h.allocate count seg).Quiet k := by
  have haliases : Quiet k h.aliases := by
    intro x hx
    obtain ⟨a, -, rfl⟩ := List.mem_map.1 hx
    exact ⟨by simp [Stmt.kernels], fun n hn => by simp [Stmt.uses, Use.among] at hn⟩
  have harrays : Quiet k (((h.subs.zip h.dests).zip h.neutral).flatMap fun x => h.allocation count seg x.1.1 x.1.2 x.2) :=
    .flatMap fun x _ => h.allocation_quiet count hseg x.1.1 x.1.2 x.2
  refine ⟨?_, fun n hn => ?_⟩
  · rw [allocate, Stmt.kernels, haliases.kernels]
    exact harrays.kernels
  · simp only [allocate, Stmt.uses, Use.among, List.nil_append, List.mem_append] at hn
    exact hn.elim haliases.sets harrays.sets

end Subhistograms

theorem Operator.tupleBytes_eq (op : Operator) : op.tupleBytes = (op.dests.map (·.elem.bytes)).sum := by
  have h (l : List Destination) (n : ℕ) : l.foldl (fun n d => n + d.elem.bytes) n = n + (l.map (·.elem.bytes)).sum := by
    induction l generalizing n with
    | nil => simp
    | cons d l ih => simp [ih, add_assoc]
  rw [Operator.tupleBytes, h, zero_add]

namespace Plan

variable {p : Plan}

theorem allocate_writes (l : List (Part × Expr)) (hk : k₀ ≤ k) :
    WritesQuiet k₀ (allocate l) k fun _ _ => True := by
  induction l generalizing k with
  | nil => exact .pure trivial
  | cons a l ih =>
    obtain ⟨part, count⟩ := a
    have hseg : (⟨"seg", some k⟩ : Name).Within k (k + 1) := Name.within_mk "seg" (Nat.le_refl k) (Nat.lt_succ_self k)
    rw [allocate]
    refine .bind (P := fun x k' => x = part.subs.allocate count ⟨"seg", some k⟩ ∧ k' = k + 1)
      (.lift fun x k' hx => ?_) ?_
    · cases hx
      exact ⟨Nat.le_succ k, rfl, rfl⟩
    · rintro _ _ hk' ⟨rfl, rfl⟩
      refine .bind (P := fun _ _ => True) (.stmt ?_ trivial) fun _ k' hk'' _ => ih (hk.trans (hk'.trans hk''))
      exact part.subs.allocate_quiet count fun hb => hseg.not_before (hb.mono hk)

theorem merge_spares (part : Part) (count : Expr) (k : ℕ) :
    Spares p.hist.localKernelName [(p.merge part count k).1] := by
  change Spares _ [.ifThen _ [Kernel.toStmt _ _]]
  exact .ifThen (.launch (Histogram.append_ne (by decide)) _) _

theorem release_quiet (h : Subhistograms) (count : Expr) : (h.release count).Quiet k := by
  have hfrees : Quiet k (h.subs.map fun n => .free n .unknown) := by
    intro x hx
    obtain ⟨n, -, rfl⟩ := List.mem_map.1 hx
    exact ⟨by simp [Stmt.kernels], fun m hm => by simp [Stmt.uses, Use.among] at hm⟩
  refine ⟨?_, fun n hn => ?_⟩
  · rw [Subhistograms.release, Stmt.ifThen, Stmt.kernels, hfrees.kernels, blockKernels_nil]
    rfl
  · simp only [Subhistograms.release, Stmt.ifThen, Stmt.uses, Use.among, List.nil_append, blockUses_nil,
      List.append_nil] at hn
    exact hfrees.sets hn

theorem finish_writes (l : List (Part × Expr)) : WritesSparing p.hist.localKernelName (p.finish l) k := by
  induction l generalizing k with
  | nil => exact .pure ()
  | cons a l ih =>
    obtain ⟨part, count⟩ := a
    rw [finish]
    refine Writes.bind (P := fun x l _ => l = [] ∧ Spares p.hist.localKernelName [x]) (.lift fun x k' hx => ⟨rfl, ?_⟩) ?_
    · cases hx
      exact merge_spares part count k
    · rintro x _ k₁ ⟨rfl, hx⟩
      exact WritesSparing.bind (.stmts hx) fun _ k₂ => .bind (.stmts (.of_quiet (k := 0) (.cons (release_quiet _ _) (.nil 0))))
        fun _ k₃ => ih

/-- the launch of the kernel that accumulates in local memory: its name, and what its blocks depend on -/
structure LocalKernel (p : Plan) (copies : Expr) (spec : LaunchSpec) : Prop where
  name : spec.name.text = p.hist.localKernelName
  blocks : ∃ (shape : LocalShape) (table : Option LockTable) (parts : List (Part × LocalPart)), shape.copies = copies ∧
    spec.blocks = p.localMemory shape table parts ∧ parts.map (·.1) = p.parts ∧
    (∀ x ∈ parts, x.2.blocks.length = x.1.subs.dests.length) ∧
    (table.isSome = true → p.operators.any Operator.needsLock = true)

theorem map_fst_parts {ps : List Part} {methods : List UpdateMethod} {blocks : List (List Name)}
    (hm : methods.length = ps.length) (hb : List.Forall₂ (fun q ns => ns.length = q.subs.dests.length) ps blocks) :
    let parts := ps.zip ((methods.zip blocks).map fun x => LocalPart.mk x.1 x.2)
    parts.map (·.1) = ps ∧ ∀ x ∈ parts, x.2.blocks.length = x.1.subs.dests.length := by
  induction hb generalizing methods with
  | nil =>
    refine ⟨rfl, fun x hx => ?_⟩
    simp at hx
  | @cons q ns ps blocks hq _ ih =>
    cases methods with
    | nil => cases hm
    | cons m methods =>
      obtain ⟨hmap, hlen⟩ := ih (Nat.succ.inj hm)
      refine ⟨congrArg (q :: ·) hmap, fun x hx => ?_⟩
      rcases List.mem_cons.1 hx with rfl | hx
      · exact hq
      · exact hlen x hx

/-- code that binds the number of copies, prepares the copies in global memory, and launches the kernel; what comes after
launches no such kernel -/
def LaunchesLocal (p : Plan) (copies : Expr) (k : ℕ) (l : List Stmt) : Prop :=
  ∃ copies' lb k₀ k₁ lq spec body lf, l = lb ++ (lq ++ ([.launch spec body .unknown] ++ lf)) ∧ k ≤ k₀ ∧
    BindsSize "local_subhistos" copies k₀ copies' lb k₁ ∧ Quiet k₁ lq ∧ p.LocalKernel copies' spec ∧
    Spares p.hist.localKernelName lf

/-- the bytes of blocks with given numbers of elements -/
def bytesOf (size : BlockSize → Int) (bs : List LocalBlock) : Int :=
  (bs.map fun b => size b.size * b.elem.bytes).sum

theorem bytesOf_append (size : BlockSize → Int) (bs bs' : List LocalBlock) :
    bytesOf size (bs ++ bs') = bytesOf size bs + bytesOf size bs' := by
  simp [bytesOf]

/-- the bytes of the blocks of one operator -/
theorem bytesOf_localBlocks (size : BlockSize → Int) {q : Part} (shape : LocalShape) {blocks : List Name}
    (hlen : blocks.length = q.subs.dests.length) (hq : q.subs.dests = q.op.dests) :
    bytesOf size (q.localBlocks shape blocks) = size (.ofExpr (shape.copies * q.subs.size)) * q.op.tupleBytes := by
  have hfst : (q.subs.dests.zip blocks).map (·.1) = q.op.dests := by
    rw [List.map_fst_zip (by omega), hq]
  calc bytesOf size (q.localBlocks shape blocks)
      = ((q.subs.dests.zip blocks).map fun x => size (.ofExpr (shape.copies * q.subs.size)) * (x.1.elem.bytes : Int)).sum := by
        simp only [bytesOf, Part.localBlocks, Part.localArrays, List.map_map]
        rfl
    _ = size (.ofExpr (shape.copies * q.subs.size)) * ((q.op.dests.map fun d => (d.elem.bytes : Int)).sum) := by
        rw [List.sum_map_mul_left, ← hfst, List.map_map]
        rfl
    _ = size (.ofExpr (shape.copies * q.subs.size)) * q.op.tupleBytes := by
        rw [q.op.tupleBytes_eq, Nat.cast_list_sum, List.map_map]
        rfl

namespace LocalKernel

variable {copies : Expr} {spec : LaunchSpec}

/-- the blocks: one for each destination, of the size of the copies of the operator, and perhaps the locks -/
theorem mem_blocks (h : p.LocalKernel copies spec) {b : LocalBlock} (hb : b ∈ spec.blocks) :
    (∃ q ∈ p.parts, q.subs.dests ≠ [] ∧ b.size = .ofExpr (copies * q.subs.size)) ∨
      p.operators.any Operator.needsLock = true ∧ b.size = .ofExpr p.groupSize := by
  obtain ⟨shape, table, parts, rfl, hblocks, hparts, hlen, htable⟩ := h.blocks
  rw [hblocks] at hb
  unfold localMemory at hb
  rw [List.mem_append] at hb
  rcases hb with hb | hb
  · obtain ⟨x, hx, hb⟩ := List.mem_flatMap.1 hb
    obtain ⟨y, hy, rfl⟩ := List.mem_map.1 hb
    obtain ⟨z, hz, -⟩ := List.mem_map.1 hy
    refine .inl ⟨x.1, hparts ▸ List.mem_map_of_mem hx, ?_, rfl⟩
    exact List.ne_nil_of_mem (List.of_mem_zip hz).1
  · cases table with
    | none => cases hb
    | some t =>
      rw [List.mem_singleton.1 hb]
      exact .inr ⟨htable rfl, rfl⟩

/-- an operator with destinations has a block -/
theorem exists_block (h : p.LocalKernel copies spec) {q : Part} (hq : q ∈ p.parts) (hd : q.subs.dests ≠ []) :
    ∃ b ∈ spec.blocks, b.size = .ofExpr (copies * q.subs.size) := by
  obtain ⟨shape, table, parts, rfl, hblocks, hparts, hlen, -⟩ := h.blocks
  obtain ⟨x, hx, rfl⟩ := List.mem_map.1 (hparts ▸ hq)
  have hne : x.1.localBlocks shape x.2.blocks ≠ [] := by
    intro hnil
    have h0 := congrArg List.length hnil
    simp only [Part.localBlocks, Part.localArrays, List.length_map, List.length_zip, hlen x hx, Nat.min_self,
      List.length_nil] at h0
    exact hd (List.length_eq_zero_iff.1 h0)
  obtain ⟨b, hb⟩ := List.exists_mem_of_ne_nil _ hne
  refine ⟨b, ?_, ?_⟩
  · rw [hblocks]
    exact List.mem_append_left _ (List.mem_flatMap.2 ⟨x, hx, hb⟩)
  · obtain ⟨y, -, rfl⟩ := List.mem_map.1 hb
    rfl

/-- **The bytes of its local memory:** the copies of every operator, and a lock for each thread if some operator needs
locks. -/
theorem bytes_le (h : p.LocalKernel copies spec) (hsubs : ∀ q ∈ p.parts, q.subs.dests = q.op.dests) (size : BlockSize → Int)
    (hgroup : 0 ≤ size (.ofExpr p.groupSize)) :
    bytesOf size spec.blocks ≤ (p.parts.map fun q => size (.ofExpr (copies * q.subs.size)) * (q.op.tupleBytes : Int)).sum +
      if p.operators.any Operator.needsLock then size (.ofExpr p.groupSize) * 4 else 0 := by
  obtain ⟨shape, table, parts, rfl, hblocks, hparts, hlen, htable⟩ := h.blocks
  have hcopies : ∀ l : List (Part × LocalPart), (∀ x ∈ l, x ∈ parts) →
      bytesOf size (l.flatMap fun x => x.1.localBlocks shape x.2.blocks) =
        ((l.map (·.1)).map fun q => size (.ofExpr (shape.copies * q.subs.size)) * (q.op.tupleBytes : Int)).sum := by
    intro l hl
    induction l with
    | nil => rfl
    | cons x l ih =>
      have hx := hl x (List.mem_cons_self ..)
      have hxp : x.1 ∈ p.parts := hparts ▸ List.mem_map_of_mem hx
      rw [List.flatMap_cons, bytesOf_append, bytesOf_localBlocks size shape (hlen x hx) (hsubs x.1 hxp),
        ih fun y hy => hl y (List.mem_cons_of_mem x hy), List.map_cons, List.map_cons, List.sum_cons]
  rw [hblocks]
  unfold localMemory
  rw [bytesOf_append]
  have hfirst := hcopies parts fun _ hx => hx
  rw [hparts] at hfirst
  change bytesOf size (parts.flatMap fun x => x.1.localBlocks shape x.2.blocks) + _ ≤ _
  rw [hfirst]
  refine Int.add_le_add_left ?_ _
  cases table with
  | none =>
    split_ifs
    · exact Int.mul_nonneg hgroup (by decide)
    · exact Int.le_refl 0
  | some t =>
    rw [if_pos (htable rfl)]
    simp [bytesOf, Scalar.bytes]

end LocalKernel

end Plan

end GpuHistogram
