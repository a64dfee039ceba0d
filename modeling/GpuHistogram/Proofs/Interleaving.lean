/-
Threads that run at the same time. `advance` is one step of code: it runs the statement that comes next, which touches
memory once, or takes a compound statement apart into what it is made of. Loops count no rounds. Left alone, a thread does
step by step what it does when it runs as a whole (`arrives_of_execAll`).

In a `System` every thread has code of its own and variables of its own, and all share one memory. `Interleaved` are the
systems that are reached when at any time any thread takes the next step. Besides the system it records which lock of a
table each thread holds: the one it took when comparing and swapping succeeded, until it gives it back by an exchange.
-/
import GpuHistogram.Machine.Launch
import GpuHistogram.Proofs.Steps
import Mathlib.Logic.Relation

namespace GpuHistogram.Machine

/-! ## Steps -/

/-- one step of code; the result is the code that is left -/
def advance (c : Context) : List Stmt → Exec (List Stmt)
  | [] => return []
  | .scope body _ :: rest => return body ++ rest
  | .ifElse cond thn els _ :: rest => return (if ← holds c cond then thn else els) ++ rest
  | .whileLoop cond body o :: rest => return if ← holds c cond then body ++ .whileLoop cond body o :: rest else rest
  | .forLoop ty n init cond incr body o :: rest =>
    return .assign (.var n ty o) init o :: .whileLoop cond (body ++ [.assign (.var n ty o) incr o]) o :: rest
  | x :: rest => do
    exec noLaunch c x
    return rest

/-- whether a statement consists of others -/
def isCompound : Stmt → Bool
  | .scope .. | .ifElse .. | .whileLoop .. | .forLoop .. => true
  | _ => false

/-- code and state before a step, and after it -/
def Advances (c : Context) (p q : List Stmt × State) : Prop :=
  p.1 ≠ [] ∧ advance c p.1 p.2 = .ok q.1 q.2

/-- code and state before some steps, and after them -/
abbrev Arrives (c : Context) : List Stmt × State → List Stmt × State → Prop :=
  Relation.ReflTransGen (Advances c)

section Alone

variable {c : Context} {s t u : State} {l l' rest : List Stmt}

theorem arrives_head {x : Stmt} {q : List Stmt × State} (h : advance c (x :: l) s = .ok l' t)
    (h' : Arrives c (l', t) q) : Arrives c (x :: l, s) q :=
  .head ⟨List.cons_ne_nil _ _, h⟩ h'

theorem advance_simple {x : Stmt} (hx : isCompound x = false) (h : exec noLaunch c x s = .ok () t) :
    advance c (x :: rest) s = .ok rest t := by
  cases x <;> first | exact bind_run h | cases hx

theorem advance_whileLoop {cond : Expr} {body : List Stmt} {o : Origin} {b : Bool}
    (h : holds c cond s = .ok b t) : advance c (.whileLoop cond body o :: rest) s =
      .ok (if b then body ++ .whileLoop cond body o :: rest else rest) t := by
  rw [advance]
  exact bind_run h

theorem advance_ifElse {cond : Expr} {thn els : List Stmt} {o : Origin} {b : Bool} (h : holds c cond s = .ok b t) :
    advance c (.ifElse cond thn els o :: rest) s = .ok ((if b then thn else els) ++ rest) t := by
  rw [advance]
  exact bind_run h

/-- a loop whose rounds are taken step by step -/
theorem arrives_of_iterate {cond : Expr} {body : List Stmt} {round : Exec Unit} {limit : Int} {o o' : Origin} {left : ℕ}
    (hround : ∀ {s t}, round s = .ok () t → ∀ rest, Arrives c (body ++ rest, s) (rest, t))
    (h : iterate (holds c cond) round limit o left s = .ok () t) (rest : List Stmt) :
    Arrives c (.whileLoop cond body o' :: rest, s) (rest, t) := by
  have hend {s : State} (h : holds c cond s = .ok false t) :
      Arrives c (.whileLoop cond body o' :: rest, s) (rest, t) :=
    arrives_head (advance_whileLoop h) .refl
  induction left generalizing s with
  | zero => exact hend (iterate_zero_eq_ok.1 h)
  | succ left ih =>
    obtain ⟨b, u, hb, h⟩ := iterate_succ_eq_ok.1 h
    cases b with
    | false =>
      obtain rfl : u = t := h
      exact hend hb
    | true =>
      obtain ⟨w, hw, h⟩ := h
      exact arrives_head (advance_whileLoop hb) ((hround hw _).trans (ih h))

theorem arrives_of_simple {x : Stmt} (hx : isCompound x = false) (h : exec noLaunch c x s = .ok () t)
    (rest : List Stmt) : Arrives c (x :: rest, s) (rest, t) :=
  arrives_head (advance_simple hx h) .refl

mutual

theorem arrives_of_exec : ∀ {x : Stmt} {s t : State}, exec noLaunch c x s = .ok () t → ∀ rest,
    Arrives c (x :: rest, s) (rest, t)
  | .scope body o, s, t, h, rest => by
    rw [exec] at h
    exact arrives_head rfl (arrives_of_append h rest)
  | .ifElse cond thn els o, s, t, h, rest => by
    rw [exec] at h
    obtain ⟨b, u, hb, h⟩ := bind_eq_ok.1 h
    refine arrives_head (advance_ifElse hb) ?_
    cases b with
    | false => exact arrives_of_append h rest
    | true => exact arrives_of_append h rest
  | .whileLoop cond body o, s, t, h, rest => by
    rw [exec] at h
    exact arrives_of_iterate (fun h => arrives_of_append h) h rest
  | .forLoop ty n init cond incr body o, s, t, h, rest => by
    -- the variable of the loop is set by assignments, before the first round and at the end of each
    have hassign {e : Expr} {s t : State} (h : (value c e >>= fun v => setVar n (v.convert ty.elem)) s = .ok () t)
        (rest : List Stmt) : Arrives c (.assign (.var n ty o) e o :: rest, s) (rest, t) :=
      arrives_of_simple rfl (by rw [exec]; exact h) rest
    rw [exec] at h
    obtain ⟨v, u, hv, h⟩ := bind_eq_ok.1 h
    obtain ⟨_, w, hw, h⟩ := bind_eq_ok.1 h
    refine arrives_head rfl ((hassign (bind_eq_ok.2 ⟨v, u, hv, hw⟩) _).trans ?_)
    refine arrives_of_iterate (fun {s t} h rest => ?_) h rest
    obtain ⟨_, u, hu, h⟩ := bind_eq_ok.1 h
    rw [List.append_assoc]
    exact (arrives_of_append hu _).trans (hassign h rest)
  | .define .., _, _, h, rest => arrives_of_simple rfl h rest
  | .assign .., _, _, h, rest => arrives_of_simple rfl h rest
  | .barrier .., _, _, h, rest => arrives_of_simple rfl h rest
  | .fence .., _, _, h, rest => arrives_of_simple rfl h rest
  | .atomic .., _, _, h, rest => arrives_of_simple rfl h rest
  | .compareSwap .., _, _, h, rest => arrives_of_simple rfl h rest
  | .alloc .., _, _, h, rest => arrives_of_simple rfl h rest
  | .free .., _, _, h, rest => arrives_of_simple rfl h rest
  | .copy .., _, _, h, rest => arrives_of_simple rfl h rest
  | .fill .., _, _, h, rest => arrives_of_simple rfl h rest
  | .rebind .., _, _, h, rest => arrives_of_simple rfl h rest
  | .table .., _, _, h, rest => arrives_of_simple rfl h rest
  | .launch .., _, _, h, rest => arrives_of_simple rfl h rest

theorem arrives_of_append : ∀ {l : List Stmt} {s t : State}, execAll noLaunch c l s = .ok () t → ∀ rest,
    Arrives c (l ++ rest, s) (rest, t)
  | [], s, t, h, rest => by
    rw [execAll_nil] at h
    cases h
    exact .refl
  | x :: l, s, t, h, rest => by
    obtain ⟨u, hx, hl⟩ := execAll_cons_eq_ok.1 h
    exact (arrives_of_exec hx _).trans (arrives_of_append hl rest)

end

/-- **One thread alone.** What code does as a whole it does step by step. -/
theorem arrives_of_execAll (h : execAll noLaunch c l s = .ok () t) : Arrives c (l, s) ([], t) := by
  have := arrives_of_append h []
  rwa [List.append_nil] at this

end Alone

/-! ## Locks -/

/-- the index at which comparing and swapping finds the bits compared with -/
def swapped? (c : Context) (s : State) (sc : Scalar) (n : Name) (idx cmp : Expr) : Option Int := do
  let i ← (evalInt c s idx).toOption
  let v ← (eval c s cmp).toOption
  let w ← (s.memory.read n i).toOption
  if Value.ofBits w.toBits sc.bitPattern = .ofBits v.toBits sc.bitPattern then some i else none

/-- the lock of a table that a thread holds after its next step, if it holds `held` before -/
def heldAfter (c : Context) (table : Name) (s : State) (held : Option Int) : List Stmt → Option Int
  | .compareSwap _ _ sc n idx cmp _ _ :: _ =>
    if n = table then (swapped? c s sc n idx cmp).or held else held
  | .atomic .xchg _ _ n idx _ _ _ :: _ =>
    if n = table ∧ (evalInt c s idx).toOption = held then none else held
  | _ => held

/-! ## Systems -/

/-- the variables of a thread, and the code that is left to it -/
structure Strand where
  vars : Bindings Value
  code : List Stmt

/-- threads with the memory that they share -/
structure System (ι : Type) where
  strands : ι → Strand
  memory : Memory

/-- what a thread sees -/
def System.state {ι : Type} (S : System ι) (i : ι) : State :=
  { vars := (S.strands i).vars, memory := S.memory }

/-- the thread `i` takes a step; no other thread changes its variables or its code -/
structure System.Step {ι : Type} (c : ι → Context) (i : ι) (S S' : System ι) : Prop where
  unfinished : (S.strands i).code ≠ []
  goes : ∃ t, advance (c i) (S.strands i).code (S.state i) = .ok (S'.strands i).code t ∧
    (S'.strands i).vars = t.vars ∧ S'.memory = t.memory
  others : ∀ j, j ≠ i → S'.strands j = S.strands j

/-- the systems that are reached from `S₀` when the threads take steps in any order, with the locks that each thread
holds -/
inductive Interleaved {ι : Type} (c : ι → Context) (table : Name) (S₀ : System ι) : (ι → Option Int) → System ι → Prop where
  | start : Interleaved c table S₀ (fun _ => none) S₀
  | step {held held' : ι → Option Int} {S S' : System ι} {i : ι} (h : Interleaved c table S₀ held S)
    (hstep : S.Step c i S') (hheld : held' i = heldAfter (c i) table (S.state i) (held i) (S.strands i).code)
    (hothers : ∀ j, j ≠ i → held' j = held j) : Interleaved c table S₀ held' S'

section Schedules

variable {ι : Type} [DecidableEq ι] {c : ι → Context} {table : Name} {S₀ S : System ι} {held : ι → Option Int}

/-- the thread `i` takes its next step, if it has one -/
def System.turn (c : ι → Context) (i : ι) (S : System ι) : System ι :=
  match (S.strands i).code with
  | [] => S
  | x :: rest =>
    match advance (c i) (x :: rest) (S.state i) with
    | .ok left t => ⟨Function.update S.strands i ⟨t.vars, left⟩, t.memory⟩
    | .error _ _ => S

/-- the threads take their steps in a given order -/
def System.play (c : ι → Context) : List ι → System ι → System ι
  | [], S => S
  | i :: order, S => System.play c order (S.turn c i)

theorem Interleaved.turn (h : Interleaved c table S₀ held S) (i : ι) :
    ∃ held', Interleaved c table S₀ held' (S.turn c i) := by
  unfold System.turn
  split
  · exact ⟨held, h⟩
  · rename_i x rest hcode
    split
    · rename_i left t hstep
      refine ⟨Function.update held i _, h.step (i := i) ⟨?_, ⟨t, ?_, ?_, rfl⟩, ?_⟩ (Function.update_self ..)
        fun j hj => Function.update_of_ne hj ..⟩
      · rw [hcode]
        exact List.cons_ne_nil _ _
      · rw [hcode]
        dsimp only
        rw [Function.update_self]
        exact hstep
      · dsimp only
        rw [Function.update_self]
      · exact fun j hj => Function.update_of_ne hj ..
    · exact ⟨held, h⟩

/-- what is reached in a given order -/
theorem Interleaved.play (h : Interleaved c table S₀ held S) (order : List ι) :
    ∃ held', Interleaved c table S₀ held' (S.play c order) := by
  induction order generalizing held S with
  | nil => exact ⟨held, h⟩
  | cons i order ih =>
    obtain ⟨_, h⟩ := h.turn i
    exact ih h

end Schedules

end GpuHistogram.Machine
