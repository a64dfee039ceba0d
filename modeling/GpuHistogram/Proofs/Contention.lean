/-
Threads that update the buckets of some operators at the same time. A `Contention` lists the operators with the arrays
that their buckets are in, the update that each thread makes, and the table of locks that the operators share.

The proof looks at memory through a `View`: the tuples of every operator, and which locks are taken. Each thread is before
its update, inside it with a lock, or after it, and a step of a thread is one of the actions `Acts`: nothing, taking the
lock, writing to the tuple under the lock, giving the lock back, or swapping the tuple in one step. `Consistent` relates
the view to where the threads are and to the order in which the updates of each bucket have been finished; every action
preserves it (`Consistent.acts`). `Safe` says what is left to show of a single thread, whatever the others do: that each
of its steps is one of the actions. `consistent_of_interleaved` puts the two together.
-/
import GpuHistogram.Histogram.Update
import GpuHistogram.Proofs.Interleaving
import GpuHistogram.Proofs.Tuples
import Mathlib.Data.Fintype.Basic

namespace GpuHistogram

open Machine

/-- an operator with the arrays that its buckets are in and the function that its combiner computes -/
structure SharedOperator where
  op : Operator
  method : UpdateMethod
  space : Space
  arrays : List Name
  len : ℕ
  content : ℕ → Tuple op.scalars
  combine : Tuple op.scalars → Tuple op.scalars → Tuple op.scalars

/-- the update that a thread makes: where the thread is and what it knows, the expressions for the bucket and the values,
the code generated with symbols between `first` and `last`, and what the expressions stand for -/
structure Job (ss : List Scalar) where
  context : Context
  vars : Bindings Value
  addr : Expr
  values : List Expr
  first : ℕ
  last : ℕ
  code : Stmt
  place : ℕ
  tuple : Tuple ss

/-- the operators `κ`, the threads `J p` that update buckets of each, and their locks -/
structure Contention (κ : Type) (J : κ → Type) where
  operator : κ → SharedOperator
  job : ∀ p, J p → Job (operator p).op.scalars
  table : LockTable
  locks : ℕ
  memory : Memory

namespace Contention

variable {κ : Type} {J : κ → Type}

/-- a thread is known by its operator and its update -/
abbrev Thread (_ : Contention κ J) : Type := Σ p, J p

/-- a tuple of an operator -/
abbrev TupleOf (X : Contention κ J) (p : κ) : Type := Tuple (X.operator p).op.scalars

variable (X : Contention κ J)

def context (i : X.Thread) : Context := (X.job i.1 i.2).context

/-- the threads before their first step -/
def start : System X.Thread where
  strands := fun i => ⟨(X.job i.1 i.2).vars, [(X.job i.1 i.2).code]⟩
  memory := X.memory

/-- the bucket that a thread updates -/
def place (i : X.Thread) : ℕ := (X.job i.1 i.2).place

/-- the values that a thread combines into its bucket -/
def tuple (i : X.Thread) : X.TupleOf i.1 := (X.job i.1 i.2).tuple

def combine {p : κ} : X.TupleOf p → X.TupleOf p → X.TupleOf p := (X.operator p).combine

/-- the lock of the bucket of a thread -/
def lock (i : X.Thread) : ℕ := X.place i % X.locks

/-- the updates of an operator take locks -/
def Locks (p : κ) : Prop := (X.operator p).method = .locked X.table

/-- the values of some updates combined into the tuple that is at a bucket in the beginning -/
def folded (p : κ) (a : ℕ) (l : List (J p)) : X.TupleOf p :=
  l.foldl (fun x j => X.combine x (X.job p j).tuple) ((X.operator p).content a)

/-- the arrays that the threads store to -/
noncomputable def written [Fintype κ] : List Name :=
  X.table.name :: Finset.univ.toList.flatMap fun p => (X.operator p).arrays

/-! ## Views and actions -/

/-- the tuples at the buckets of each operator, and whether a lock is taken -/
structure View where
  tuples : ∀ p, ℕ → X.TupleOf p
  taken : ℕ → Bool

/-- what memory holds at the beginning -/
def firstView : X.View := ⟨fun p => (X.operator p).content, fun _ => false⟩

/-- the memory holds what is in view, and otherwise what it held in the beginning -/
structure Shows [Fintype κ] (v : X.View) (m : Memory) : Prop where
  keeps : Memory.Keeps X.written X.memory m
  table : ∀ p, m.Table (X.operator p).arrays (X.operator p).op.scalars (X.operator p).len (v.tuples p)
  locks : 0 < X.locks →
    m.Column X.table.name .i32 X.locks fun k => .int (if v.taken k then locked else unlocked) .i32

variable {X}

/-- where a thread is: before its update, inside with the tuple it has found and the one that is there now, or after -/
inductive Phase (α : Type) where
  | before
  | inside (old now : α)
  | after

namespace Phase

variable {α : Type}

/-- the lock that is held in a phase -/
def held (k : ℕ) : Phase α → Option Int
  | .inside .. => some k
  | _ => none

/-- the phase in which the lock is held -/
def IsInside : Phase α → Prop
  | .inside .. => True
  | _ => False

theorem isInside_of_held {k : ℕ} {l : Int} {ph : Phase α} (h : ph.held k = some l) : ph.IsInside ∧ l = k := by
  cases ph with
  | inside old now => exact ⟨trivial, (Option.some.inj h).symm⟩
  | before => cases h
  | after => cases h

theorem held_of_isInside {k : ℕ} {ph : Phase α} (h : ph.IsInside) : ph.held k = some (k : Int) := by
  cases ph with
  | inside old now => rfl
  | before => cases h
  | after => cases h

end Phase

/-- another tuple at a bucket -/
def View.put [DecidableEq κ] (v : X.View) (p : κ) (a : ℕ) (x : X.TupleOf p) : X.View :=
  { v with tuples := Function.update v.tuples p (Function.update (v.tuples p) a x) }

/-- a lock taken or given back -/
def View.turn (v : X.View) (k : ℕ) (b : Bool) : X.View :=
  { v with taken := Function.update v.taken k b }

theorem View.put_self [DecidableEq κ] (v : X.View) (p : κ) (a : ℕ) (x : X.TupleOf p) : (v.put p a x).tuples p a = x := by
  simp [View.put]

theorem View.put_other [DecidableEq κ] (v : X.View) {p q : κ} {a b : ℕ} (x : X.TupleOf p) (h : p = q → a ≠ b) :
    (v.put p a x).tuples q b = v.tuples q b := by
  by_cases hp : q = p
  · subst hp
    simp [View.put, (h rfl).symm]
  · simp [View.put, hp]

theorem View.turn_self (v : X.View) (k : ℕ) (b : Bool) : (v.turn k b).taken k = b := by
  simp [View.turn]

theorem View.turn_other (v : X.View) {k l : ℕ} (b : Bool) (h : l ≠ k) : (v.turn k b).taken l = v.taken l := by
  simp [View.turn, h]

/-- what a thread can rely on: while it holds its lock, the tuple is the one it has left there -/
def Sees (i : X.Thread) (v : X.View) (ph : Phase (X.TupleOf i.1)) : Prop :=
  ∀ old now, ph = .inside old now → v.tuples i.1 (X.place i) = now ∧ v.taken (X.lock i) = true

/-- what a step of a thread may do -/
inductive Acts [DecidableEq κ] (i : X.Thread) (v : X.View) : Phase (X.TupleOf i.1) → X.View → Phase (X.TupleOf i.1) → Prop where
  | idle {ph : Phase (X.TupleOf i.1)} : Acts i v ph v ph
  | take (hm : X.Locks i.1) (h : v.taken (X.lock i) = false) :
    Acts i v .before (v.turn (X.lock i) true) (.inside (v.tuples i.1 (X.place i)) (v.tuples i.1 (X.place i)))
  | write {old now : X.TupleOf i.1} (x : X.TupleOf i.1) :
    Acts i v (.inside old now) (v.put i.1 (X.place i) x) (.inside old x)
  | give {old now : X.TupleOf i.1} (h : now = X.combine old (X.tuple i)) :
    Acts i v (.inside old now) (v.turn (X.lock i) false) .after
  | swap (hm : ¬X.Locks i.1) :
    Acts i v .before (v.put i.1 (X.place i) (X.combine (v.tuples i.1 (X.place i)) (X.tuple i))) .after

/-- the phases of the threads -/
abbrev Phases (X : Contention κ J) : Type := ∀ i : X.Thread, Phase (X.TupleOf i.1)

/-- the updates that have been finished at each bucket, in order -/
abbrev Log (_ : Contention κ J) : Type := ∀ p : κ, ℕ → List (J p)

/-! ## The invariant -/

/-- the view fits where the threads are and what has been finished -/
structure Consistent (v : X.View) (ph : X.Phases) (log : X.Log) : Prop where
  /-- a lock is taken if a thread holds it -/
  taken : ∀ k, v.taken k = true ↔ ∃ i, (ph i).IsInside ∧ X.lock i = k
  /-- no two threads hold one lock -/
  exclusive : ∀ i i', (ph i).IsInside → (ph i').IsInside → X.lock i = X.lock i' → i = i'
  locks : ∀ i, (ph i).IsInside → X.Locks i.1
  /-- a thread with a lock has found the tuple that the finished updates have left -/
  inside : ∀ i old now, ph i = .inside old now →
    v.tuples i.1 (X.place i) = now ∧ old = X.folded i.1 (X.place i) (log i.1 (X.place i))
  /-- where no thread is inside is the tuple that the finished updates have left -/
  settled : ∀ p a, (∀ j, X.place ⟨p, j⟩ = a → ¬(ph ⟨p, j⟩).IsInside) → v.tuples p a = X.folded p a (log p a)
  nodup : ∀ p a, (log p a).Nodup
  logged : ∀ p a j, j ∈ log p a ↔ ph ⟨p, j⟩ = .after ∧ X.place ⟨p, j⟩ = a

theorem consistent_start : Consistent X.firstView (fun _ => .before) fun _ _ => [] where
  taken := fun k => by simp [firstView, Phase.IsInside]
  exclusive := fun _ _ h => h.elim
  locks := fun _ h => h.elim
  inside := fun _ _ _ h => by cases h
  settled := fun _ _ _ => rfl
  nodup := fun _ _ => List.nodup_nil
  logged := fun _ _ _ => by simp

namespace Consistent

variable {v v' : X.View} {ph phs : X.Phases} {log : X.Log} {i : X.Thread}

theorem sees (h : Consistent v ph log) (i : X.Thread) : Sees i v (ph i) := fun old now hi =>
  ⟨(h.inside i old now hi).1, (h.taken _).2 ⟨i, by rw [hi]; trivial, rfl⟩⟩

/-- no other thread is inside at the bucket of a thread that is inside -/
theorem alone (h : Consistent v ph log) (hi : (ph i).IsInside) {i' : X.Thread} (hi' : (ph i').IsInside)
    (hp : X.place i' = X.place i) : i' = i :=
  h.exclusive i' i hi' hi (congrArg (· % X.locks) hp)

variable [DecidableEq κ]

/-- a thread that takes its lock -/
theorem take (h : Consistent v ph log) (hi : ph i = .before) (hm : X.Locks i.1) (hfree : v.taken (X.lock i) = false)
    (hself : phs i = .inside (v.tuples i.1 (X.place i)) (v.tuples i.1 (X.place i)))
    (hothers : ∀ i', i' ≠ i → phs i' = ph i') : Consistent (v.turn (X.lock i) true) phs log := by
  have hout : ∀ i', (ph i').IsInside → X.lock i' ≠ X.lock i := by
    intro i' hi' hk
    have htaken := (h.taken _).2 ⟨i', hi', hk⟩
    rw [hfree] at htaken
    cases htaken
  have hinside : ∀ i', (phs i').IsInside ↔ (ph i').IsInside ∨ i' = i := by
    intro i'
    by_cases hii : i' = i
    · subst hii
      simp [hself, Phase.IsInside]
    · simp [hothers i' hii, hii]
  refine ⟨fun k => ?_, fun i₁ i₂ h₁ h₂ hk => ?_, fun i' hi' => ?_, fun i' old now hi' => ?_, fun p a hpa => ?_, h.nodup,
    fun p a j => ?_⟩
  · by_cases hk : k = X.lock i
    · subst hk
      simp only [View.turn_self, true_iff]
      exact ⟨i, (hinside i).2 (.inr rfl), rfl⟩
    · rw [View.turn_other _ _ hk, h.taken]
      constructor
      · rintro ⟨i', hi', hl⟩
        exact ⟨i', (hinside i').2 (.inl hi'), hl⟩
      · rintro ⟨i', hi', hl⟩
        rcases (hinside i').1 hi' with hi' | rfl
        · exact ⟨i', hi', hl⟩
        · exact absurd hl.symm hk
  · rcases (hinside i₁).1 h₁ with h₁ | rfl <;> rcases (hinside i₂).1 h₂ with h₂ | rfl
    · exact h.exclusive i₁ i₂ h₁ h₂ hk
    · exact absurd hk (hout i₁ h₁)
    · exact absurd hk.symm (hout i₂ h₂)
    · rfl
  · rcases (hinside i').1 hi' with hi' | rfl
    · exact h.locks i' hi'
    · exact hm
  · by_cases hii : i' = i
    · subst hii
      rw [hself] at hi'
      cases hi'
      refine ⟨rfl, h.settled _ _ fun j hj hins => ?_⟩
      exact hout _ hins (congrArg (· % X.locks) hj)
    · rw [hothers i' hii] at hi'
      exact h.inside i' old now hi'
  · exact h.settled p a fun j hj hins => hpa j hj ((hinside _).2 (.inl hins))
  · rw [h.logged]
    by_cases hii : (⟨p, j⟩ : X.Thread) = i
    · subst hii
      simp [hself, hi]
    · rw [hothers _ hii]

/-- a thread that writes to its tuple under the lock -/
theorem write (h : Consistent v ph log) {old now x : X.TupleOf i.1} (hi : ph i = .inside old now)
    (hself : phs i = .inside old x) (hothers : ∀ i', i' ≠ i → phs i' = ph i') :
    Consistent (v.put i.1 (X.place i) x) phs log := by
  have hins : (ph i).IsInside := by
    rw [hi]
    trivial
  have hinside : ∀ i', (phs i').IsInside ↔ (ph i').IsInside := by
    intro i'
    by_cases hii : i' = i
    · subst hii
      simp [hself, hi, Phase.IsInside]
    · rw [hothers i' hii]
  refine ⟨fun k => ?_, fun i₁ i₂ h₁ h₂ => ?_, fun i' hi' => ?_, fun i' old' now' hi' => ?_, fun p a hpa => ?_, h.nodup,
    fun p a j => ?_⟩
  · simp only [hinside]
    exact h.taken k
  · exact h.exclusive i₁ i₂ ((hinside _).1 h₁) ((hinside _).1 h₂)
  · exact h.locks i' ((hinside _).1 hi')
  · by_cases hii : i' = i
    · subst hii
      rw [hself] at hi'
      cases hi'
      exact ⟨View.put_self .., (h.inside _ _ _ hi).2⟩
    · have hi'' := hi'
      rw [hothers i' hii] at hi''
      rw [View.put_other]
      · exact h.inside i' old' now' hi''
      · intro _ hp
        exact hii (h.alone hins (by rw [hi'']; trivial) hp.symm)
  · rw [View.put_other]
    · exact h.settled p a fun j hj hins => hpa j hj ((hinside _).2 hins)
    · rintro rfl rfl
      exact hpa i.2 rfl ((hinside _).2 hins)
  · rw [h.logged]
    by_cases hii : (⟨p, j⟩ : X.Thread) = i
    · subst hii
      simp [hself, hi]
    · rw [hothers _ hii]

/-- a thread that has finished its update, under the lock or in one step -/
theorem finish (h : Consistent v ph log) (hi : ph i ≠ .after) (hself : phs i = .after)
    (hothers : ∀ i', i' ≠ i → phs i' = ph i')
    (htaken : ∀ k, v'.taken k = true ↔ ∃ i', i' ≠ i ∧ (ph i').IsInside ∧ X.lock i' = k)
    (hout : ∀ i', i' ≠ i → (ph i').IsInside → i.1 = i'.1 → X.place i ≠ X.place i')
    (htuple : v'.tuples i.1 (X.place i) =
      X.combine (X.folded i.1 (X.place i) (log i.1 (X.place i))) (X.tuple i))
    (hrest : ∀ q b, (i.1 = q → X.place i ≠ b) → v'.tuples q b = v.tuples q b) :
    Consistent v' phs (Function.update log i.1
      (Function.update (log i.1) (X.place i) (log i.1 (X.place i) ++ [i.2]))) := by
  have hinside : ∀ i', (phs i').IsInside ↔ i' ≠ i ∧ (ph i').IsInside := by
    intro i'
    by_cases hii : i' = i
    · subst hii
      simp [hself, Phase.IsInside]
    · simp [hothers i' hii, hii]
  have hkept : ∀ q b, (i.1 = q → X.place i ≠ b) → Function.update log i.1
      (Function.update (log i.1) (X.place i) (log i.1 (X.place i) ++ [i.2])) q b = log q b := by
    intro q b hqb
    by_cases hq : q = i.1
    · subst hq
      rw [Function.update_self, Function.update_of_ne (hqb rfl).symm]
    · rw [Function.update_of_ne hq]
  have hnew : i.2 ∉ log i.1 (X.place i) := fun hmem => hi ((h.logged i.1 _ i.2).1 hmem).1
  refine ⟨fun k => ?_, fun i₁ i₂ h₁ h₂ => ?_, fun i' hi' => ?_, fun i' old now hi' => ?_, fun p a hpa => ?_,
    fun p a => ?_, fun p a j => ?_⟩
  · rw [htaken]
    simp only [hinside, and_assoc]
  · exact h.exclusive i₁ i₂ ((hinside _).1 h₁).2 ((hinside _).1 h₂).2
  · exact h.locks i' ((hinside _).1 hi').2
  · obtain ⟨hii, hins⟩ := (hinside i').1 (by rw [hi']; trivial)
    rw [hrest _ _ (hout i' hii hins), hkept _ _ (hout i' hii hins)]
    exact h.inside i' old now (hothers i' hii ▸ hi')
  · by_cases hp : i.1 = p ∧ X.place i = a
    · obtain ⟨rfl, rfl⟩ := hp
      rw [Function.update_self, Function.update_self, htuple, folded, folded, List.foldl_append]
      rfl
    · have hp' : i.1 = p → X.place i ≠ a := fun h h' => hp ⟨h, h'⟩
      rw [hrest _ _ hp', hkept _ _ hp']
      refine h.settled p a fun j hj hins => hpa j hj ((hinside _).2 ⟨?_, hins⟩)
      rintro rfl
      exact hp ⟨rfl, hj⟩
  · by_cases hp : i.1 = p ∧ X.place i = a
    · obtain ⟨rfl, rfl⟩ := hp
      rw [Function.update_self, Function.update_self]
      exact List.nodup_append.2 ⟨h.nodup _ _, List.nodup_singleton _, fun x hx y hy hxy =>
        hnew (List.mem_singleton.1 hy ▸ hxy ▸ hx)⟩
    · rw [hkept _ _ fun h h' => hp ⟨h, h'⟩]
      exact h.nodup p a
  · by_cases hp : i.1 = p ∧ X.place i = a
    · obtain ⟨rfl, rfl⟩ := hp
      rw [Function.update_self, Function.update_self, List.mem_append, List.mem_singleton, h.logged]
      by_cases hj : j = i.2
      · subst hj
        simp [hself]
      · have hne : (⟨i.1, j⟩ : X.Thread) ≠ i := fun he => hj (eq_of_heq (Sigma.mk.inj_iff.1 he).2)
        simp [hj, hothers _ hne]
    · rw [hkept _ _ fun h h' => hp ⟨h, h'⟩, h.logged]
      by_cases hii : (⟨p, j⟩ : X.Thread) = i
      · subst hii
        simp only [true_and] at hp
        simp [hp]
      · rw [hothers _ hii]

/-- a thread that gives its lock back -/
theorem give (h : Consistent v ph log) {old now : X.TupleOf i.1} (hi : ph i = .inside old now)
    (hnow : now = X.combine old (X.tuple i)) (hself : phs i = .after) (hothers : ∀ i', i' ≠ i → phs i' = ph i') :
    Consistent (v.turn (X.lock i) false) phs (Function.update log i.1
      (Function.update (log i.1) (X.place i) (log i.1 (X.place i) ++ [i.2]))) := by
  have hins : (ph i).IsInside := by
    rw [hi]
    trivial
  obtain ⟨hv, hold⟩ := h.inside i old now hi
  refine h.finish (by rw [hi]; nofun) hself hothers (fun k => ?_) (fun i' hii hi' _ hp => hii (h.alone hins hi' hp.symm))
    (by rw [← hold, ← hnow]; exact hv) fun _ _ _ => rfl
  by_cases hk : k = X.lock i
  · subst hk
    simp only [View.turn_self, Bool.false_eq_true, false_iff]
    rintro ⟨i', hii, hi', hl⟩
    exact hii (h.exclusive i' i hi' hins hl)
  · rw [View.turn_other _ _ hk, h.taken]
    constructor
    · rintro ⟨i', hi', hl⟩
      refine ⟨i', ?_, hi', hl⟩
      rintro rfl
      exact hk hl.symm
    · rintro ⟨i', -, hi', hl⟩
      exact ⟨i', hi', hl⟩

/-- a thread that changes its tuple in one step -/
theorem swap (h : Consistent v ph log) (hi : ph i = .before) (hm : ¬X.Locks i.1) (hself : phs i = .after)
    (hothers : ∀ i', i' ≠ i → phs i' = ph i') :
    Consistent (v.put i.1 (X.place i) (X.combine (v.tuples i.1 (X.place i)) (X.tuple i))) phs
      (Function.update log i.1 (Function.update (log i.1) (X.place i) (log i.1 (X.place i) ++ [i.2]))) := by
  have hout : ∀ i' : X.Thread, (ph i').IsInside → i.1 ≠ i'.1 := fun i' hi' hp => hm (hp ▸ h.locks i' hi')
  have hsettled := h.settled i.1 (X.place i) fun j _ hj => hout ⟨i.1, j⟩ hj rfl
  refine h.finish (by rw [hi]; nofun) hself hothers (fun k => ?_) (fun i' _ hi' hp => absurd hp (hout i' hi'))
    (by rw [View.put_self, hsettled]) fun q b hqb => View.put_other _ _ hqb
  change v.taken k = true ↔ _
  rw [h.taken]
  constructor
  · rintro ⟨i', hi', hl⟩
    refine ⟨i', ?_, hi', hl⟩
    rintro rfl
    rw [hi] at hi'
    exact hi'
  · rintro ⟨i', -, hi', hl⟩
    exact ⟨i', hi', hl⟩

/-- **Every action of a thread preserves the invariant.** -/
theorem acts (h : Consistent v ph log) {ph' : Phase (X.TupleOf i.1)} (ha : Acts i v (ph i) v' ph') (phs : X.Phases)
    (hself : phs i = ph') (hothers : ∀ i', i' ≠ i → phs i' = ph i') : ∃ log', Consistent v' phs log' := by
  generalize hi : ph i = ph₀ at ha
  cases ha with
  | idle =>
    obtain rfl : phs = ph := by
      funext i'
      by_cases hii : i' = i
      · rw [hii, hself, hi]
      · exact hothers i' hii
    exact ⟨log, h⟩
  | take hm hfree => exact ⟨log, h.take hi hm hfree hself hothers⟩
  | write x => exact ⟨log, h.write hi hself hothers⟩
  | give hnow => exact ⟨_, h.give hi hnow hself hothers⟩
  | swap hm => exact ⟨_, h.swap hi hm hself hothers⟩

end Consistent

/-! ## Runs -/

section Runs

variable [Fintype κ] [DecidableEq κ] {held : X.Thread → Option Int} {S : System X.Thread} {v : X.View}

/-- the thread has a next step in every state that it can meet; the step is one of the actions, takes or gives back the
lock where the action does, and leads to where `P` holds -/
def Proceeds (i : X.Thread) (P : Phase (X.TupleOf i.1) → Strand → Prop) (ph : Phase (X.TupleOf i.1)) (th : Strand) : Prop :=
  th.code ≠ [] ∧ ∀ v m, X.Shows v m → Sees i v ph → ∃ rest t v' ph',
    advance (X.context i) th.code { vars := th.vars, memory := m } = .ok rest t ∧ X.Shows v' t.memory ∧
    Acts i v ph v' ph' ∧
    heldAfter (X.context i) X.table.name { vars := th.vars, memory := m } (ph.held (X.lock i)) th.code =
      ph'.held (X.lock i) ∧
    P ph' ⟨t.vars, rest⟩

/-- for so many steps the thread does nothing but the actions of an update, whatever the others do meanwhile -/
def Safe (i : X.Thread) : ℕ → Phase (X.TupleOf i.1) → Strand → Prop
  | 0 => fun _ _ => True
  | n + 1 => fun ph th => (th.code = [] ∧ ph = .after) ∨ Proceeds i (Safe i n) ph th

theorem Proceeds.mono {i : X.Thread} {P Q : Phase (X.TupleOf i.1) → Strand → Prop} {ph : Phase (X.TupleOf i.1)}
    {th : Strand} (h : Proceeds i P ph th) (hPQ : ∀ ph th, P ph th → Q ph th) : Proceeds i Q ph th := by
  refine ⟨h.1, fun v m hv hs => ?_⟩
  obtain ⟨rest, t, v', ph', hstep, hshows, hacts, hheld, hp⟩ := h.2 v m hv hs
  exact ⟨rest, t, v', ph', hstep, hshows, hacts, hheld, hPQ _ _ hp⟩

theorem Safe.pred {i : X.Thread} {n : ℕ} {ph : Phase (X.TupleOf i.1)} {th : Strand} (h : Safe i (n + 1) ph th) :
    Safe i n ph th := by
  induction n generalizing ph th with
  | zero => trivial
  | succ n ih => exact h.imp_right fun hp => hp.mono fun _ _ => ih

/-- a step that leads to where the thread is safe -/
theorem Proceeds.safe {i : X.Thread} {n : ℕ} {ph : Phase (X.TupleOf i.1)} {th : Strand}
    (h : Proceeds i (Safe i n) ph th) : Safe i n ph th :=
  Safe.pred (.inr h)

/-- **Interleaving.** If every thread is safe, then in all that is reached the view of memory fits where the threads are
and which locks they hold, and every thread is still safe. -/
theorem consistent_of_interleaved (hfirst : X.Shows X.firstView X.memory)
    (hsafe : ∀ i n, Safe i n .before (X.start.strands i)) (h : Interleaved X.context X.table.name X.start held S)
    (n : ℕ) : ∃ (v : X.View) (ph : X.Phases) (log : X.Log), X.Shows v S.memory ∧ Consistent v ph log ∧
      (∀ i, held i = (ph i).held (X.lock i)) ∧ ∀ i, Safe i n (ph i) (S.strands i) := by
  classical
  induction h generalizing n with
  | start => exact ⟨_, _, _, hfirst, consistent_start, fun _ => rfl, fun i => hsafe i n⟩
  | @step held held' S S' i hr hstep hheld hothers ih =>
    -- what the thread does next is known if it is safe for one more step
    obtain ⟨v, ph, log, hv, hcons, hph, hthreads⟩ := ih (n + 1)
    obtain ⟨t, hadv, hvars, hmem⟩ := hstep.goes
    have hproceeds : Proceeds i (Safe i n) (ph i) (S.strands i) :=
      (hthreads i).resolve_left fun hend => hstep.unfinished hend.1
    obtain ⟨rest, t', v', ph', hadv', hv', hacts, hlock, hnext⟩ := hproceeds.2 v S.memory hv (hcons.sees i)
    obtain ⟨rfl, rfl⟩ : rest = (S'.strands i).code ∧ t' = t := by
      have heq := hadv'.symm.trans hadv
      simpa using heq
    obtain ⟨log', hcons'⟩ := hcons.acts hacts (Function.update ph i ph') (Function.update_self ..)
      fun i' hi' => Function.update_of_ne hi' ..
    refine ⟨v', _, log', hmem ▸ hv', hcons', fun i' => ?_, fun i' => ?_⟩
    · by_cases hi : i' = i
      · subst hi
        rw [Function.update_self, hheld, hph]
        exact hlock
      · rw [Function.update_of_ne hi, hothers i' hi]
        exact hph i'
    · by_cases hi : i' = i
      · subst hi
        rw [Function.update_self]
        rw [← hvars] at hnext
        exact hnext
      · rw [Function.update_of_ne hi, hstep.others i' hi]
        exact (hthreads i').pred

end Runs

end Contention

end GpuHistogram
