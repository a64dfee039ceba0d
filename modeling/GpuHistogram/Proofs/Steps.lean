/-
The steps that running code is made of, each described by when it succeeds and what it leaves. `Ends x s Q` says that a
computation succeeds with a result and a final state for which `Q` holds; a run of statements is taken apart with
`bind_eq_ok` and put together with `Ends.bind`.
-/
import GpuHistogram.Machine.Exec
import Mathlib.Tactic.Common

namespace GpuHistogram

theorem except_bind_eq_ok {ε α β : Type} {x : Except ε α} {g : α → Except ε β} {b : β} :
    (x >>= g) = .ok b ↔ ∃ a, x = .ok a ∧ g a = .ok b := by
  cases x with
  | ok a => exact ⟨fun h => ⟨a, rfl, h⟩, fun ⟨_, ha, h⟩ => Except.ok.inj ha ▸ h⟩
  | error e => exact ⟨fun h => (nomatch h), fun ⟨_, h, _⟩ => (nomatch h)⟩

theorem except_pure_eq_ok {ε α : Type} {a b : α} : (pure a : Except ε α) = .ok b ↔ a = b := by
  change Except.ok a = _ ↔ _
  simp

namespace Machine

variable {α β : Type} {s t : State}

/-- the computation succeeds, with a result and a state for which `Q` holds -/
def Ends (x : Exec α) (s : State) (Q : α → State → Prop) : Prop :=
  ∃ a t, x s = .ok a t ∧ Q a t

theorem Ends.mono {x : Exec α} {Q R : α → State → Prop} (h : Ends x s Q) (hQ : ∀ a t, Q a t → R a t) : Ends x s R := by
  obtain ⟨a, t, hx, hq⟩ := h
  exact ⟨a, t, hx, hQ a t hq⟩

theorem Ends.pure {a : α} {Q : α → State → Prop} (h : Q a s) : Ends (Pure.pure a : Exec α) s Q :=
  ⟨a, s, rfl, h⟩

theorem Ends.bind {x : Exec α} {g : α → Exec β} {Q : α → State → Prop} {R : β → State → Prop} (h : Ends x s Q)
    (hg : ∀ a t, Q a t → Ends (g a) t R) : Ends (x >>= g) s R := by
  obtain ⟨a, t, hx, hq⟩ := h
  obtain ⟨b, u, hb, hr⟩ := hg a t hq
  refine ⟨b, u, ?_, hr⟩
  change EStateM.bind x g s = _
  simp only [EStateM.bind, hx, hb]

theorem bind_eq_ok {x : Exec α} {g : α → Exec β} {b : β} :
    (x >>= g) s = .ok b t ↔ ∃ a u, x s = .ok a u ∧ g a u = .ok b t := by
  change EStateM.bind x g s = _ ↔ _
  unfold EStateM.bind
  cases h : x s with
  | ok a u => simp
  | error e u => simp

theorem bind_run {x : Exec α} {g : α → Exec β} {a : α} {u : State} (h : x s = .ok a u) : (x >>= g) s = g a u := by
  change EStateM.bind x g s = _
  simp only [EStateM.bind, h]

theorem bind_fails {x : Exec α} {g : α → Exec β} {f : Fault} (h : x s = .error f t) : (x >>= g) s = .error f t := by
  change EStateM.bind x g s = _
  simp only [EStateM.bind, h]

theorem pure_eq_ok {a b : α} : (Pure.pure a : Exec α) s = .ok b t ↔ a = b ∧ s = t := by
  change EStateM.Result.ok a s = _ ↔ _
  simp

theorem fail_eq_ok {cause : Cause} {o : Origin} {a : α} : (fail cause o : Exec α) s = .ok a t ↔ False := by
  change EStateM.Result.error _ s = _ ↔ _
  simp

theorem observe_eq_ok {g : State → Except Fault α} {a : α} : observe g s = .ok a t ↔ g s = .ok a ∧ s = t := by
  unfold observe
  cases h : g s with
  | ok b => simp
  | error e => simp

theorem value_eq_ok {c : Context} {e : Expr} {v : Value} :
    value c e s = .ok v t ↔ eval c s e = .ok v ∧ s = t := observe_eq_ok

theorem value_run {c : Context} {e : Expr} {v : Value} (h : eval c s e = .ok v) : value c e s = .ok v s :=
  value_eq_ok.2 ⟨h, rfl⟩

theorem number_eq_ok {c : Context} {e : Expr} {a : Int} :
    number c e s = .ok a t ↔ ∃ v, eval c s e = .ok v ∧ v.toInt64 = a ∧ s = t := by
  unfold number
  rw [bind_eq_ok]
  constructor
  · rintro ⟨v, u, hv, hp⟩
    rw [value_eq_ok] at hv
    rw [pure_eq_ok] at hp
    exact ⟨v, hv.1, hp.1, hv.2.trans hp.2⟩
  · rintro ⟨v, hv, rfl, rfl⟩
    exact ⟨v, s, value_run hv, rfl⟩

theorem number_run {c : Context} {e : Expr} {v : Value} (h : eval c s e = .ok v) : number c e s = .ok v.toInt64 s :=
  number_eq_ok.2 ⟨v, h, rfl, rfl⟩

theorem holds_eq_ok {c : Context} {e : Expr} {b : Bool} :
    holds c e s = .ok b t ↔ ∃ v, eval c s e = .ok v ∧ v.truth = b ∧ s = t := by
  unfold holds
  rw [bind_eq_ok]
  constructor
  · rintro ⟨v, u, hv, hp⟩
    rw [value_eq_ok] at hv
    rw [pure_eq_ok] at hp
    exact ⟨v, hv.1, hp.1, hv.2.trans hp.2⟩
  · rintro ⟨v, hv, rfl, rfl⟩
    exact ⟨v, s, value_run hv, rfl⟩

theorem holds_run {c : Context} {e : Expr} {v : Value} (h : eval c s e = .ok v) : holds c e s = .ok v.truth s :=
  holds_eq_ok.2 ⟨v, h, rfl, rfl⟩

/-- the state in which a variable has a value -/
def State.set (s : State) (n : Name) (v : Value) : State :=
  { s with vars := s.vars.set n v }

@[simp] theorem State.memory_set (s : State) (n : Name) (v : Value) : (s.set n v).memory = s.memory := rfl

@[simp] theorem State.launched_set (s : State) (n : Name) (v : Value) : (s.set n v).launched = s.launched := rfl

@[simp] theorem State.get?_set (s : State) (n m : Name) (v : Value) :
    (s.set n v).vars.get? m = if n = m then some v else s.vars.get? m :=
  Bindings.get?_set s.vars n m v

theorem setVar_run (n : Name) (v : Value) : setVar n v s = .ok () (s.set n v) := rfl

theorem setVar_eq_ok {n : Name} {v : Value} {a : Unit} : setVar n v s = .ok a t ↔ t = s.set n v := by
  rw [setVar_run]
  simp [eq_comm]

theorem onMemory_eq_ok {o : Origin} {change : Memory.Change α} {a : α} :
    onMemory o change s = .ok a t ↔ ∃ m, change s.memory = .ok a m ∧ t = { s with memory := m } := by
  unfold onMemory
  cases h : change s.memory with
  | ok b m =>
    simp only [h, EStateM.Result.ok.injEq]
    exact ⟨fun ⟨h1, h2⟩ => ⟨m, ⟨h1, rfl⟩, h2.symm⟩, fun ⟨_, ⟨h1, h2⟩, h3⟩ => ⟨h1, by rw [h3, h2]⟩⟩
  | error e m => simp [h]

theorem onMemory_run {o : Origin} {change : Memory.Change α} {a : α} {m : Memory} (h : change s.memory = .ok a m) :
    onMemory o change s = .ok a { s with memory := m } := onMemory_eq_ok.2 ⟨m, h, rfl⟩

theorem onMemory_fails {o : Origin} {change : Memory.Change α} {e : MemoryError} {m : Memory}
    (h : change s.memory = .error e m) : onMemory o change s = .error ⟨.memory e, o⟩ { s with memory := m } := by
  unfold onMemory
  simp only [h]

theorem mapM_value_state {c : Context} {es : List Expr} {vs : List Value} (h : es.mapM (value c) s = .ok vs t) :
    s = t := by
  induction es generalizing vs with
  | nil =>
    rw [List.mapM_nil] at h
    exact (pure_eq_ok.1 h).2
  | cons e es ih =>
    rw [List.mapM_cons] at h
    obtain ⟨v, u, hv, h⟩ := bind_eq_ok.1 h
    obtain ⟨-, rfl⟩ := value_eq_ok.1 hv
    obtain ⟨ws, u, hws, h⟩ := bind_eq_ok.1 h
    obtain ⟨-, rfl⟩ := pure_eq_ok.1 h
    exact ih hws

variable {L : LaunchSpec → List Stmt → Exec Unit} {c : Context}

theorem execAll_nil : execAll L c [] s = .ok () s := by
  rw [execAll]
  rfl

theorem execAll_cons (x : Stmt) (l : List Stmt) : execAll L c (x :: l) = exec L c x >>= fun _ => execAll L c l := by
  rw [execAll]

theorem execAll_cons_eq_ok {x : Stmt} {l : List Stmt} {a : Unit} :
    execAll L c (x :: l) s = .ok a t ↔ ∃ u, exec L c x s = .ok () u ∧ execAll L c l u = .ok a t := by
  rw [execAll_cons, bind_eq_ok]
  exact ⟨fun ⟨_, u, h, h'⟩ => ⟨u, h, h'⟩, fun ⟨u, h, h'⟩ => ⟨(), u, h, h'⟩⟩

theorem execAll_append_eq_ok {l l' : List Stmt} :
    execAll L c (l ++ l') s = .ok () t ↔ ∃ u, execAll L c l s = .ok () u ∧ execAll L c l' u = .ok () t := by
  induction l generalizing s with
  | nil => simp [execAll_nil]
  | cons x l ih =>
    rw [List.cons_append, execAll_cons_eq_ok]
    constructor
    · rintro ⟨u, hx, h⟩
      obtain ⟨w, hl, hl'⟩ := ih.1 h
      exact ⟨w, execAll_cons_eq_ok.2 ⟨u, hx, hl⟩, hl'⟩
    · rintro ⟨w, hl, hl'⟩
      obtain ⟨u, hx, hl⟩ := execAll_cons_eq_ok.1 hl
      exact ⟨u, hx, ih.2 ⟨w, hl, hl'⟩⟩

theorem execAll_singleton (x : Stmt) : execAll L c [x] s = exec L c x s := by
  rw [execAll_cons]
  change EStateM.bind _ _ s = _
  unfold EStateM.bind
  cases h : exec L c x s with
  | ok a u => exact execAll_nil
  | error e u => rfl

/-- one round of a loop, or its end -/
theorem iterate_succ_eq_ok {cond : Exec Bool} {round : Exec Unit} {limit : Int} {o : Origin} {left : ℕ} {a : Unit} :
    iterate cond round limit o (left + 1) s = .ok a t ↔
      ∃ b u, cond s = .ok b u ∧
        if b then ∃ w, round u = .ok () w ∧ iterate cond round limit o left w = .ok a t else u = t := by
  rw [iterate, bind_eq_ok]
  refine exists_congr fun b => exists_congr fun u => and_congr_right fun _ => ?_
  cases b
  · simp [pure_eq_ok]
  · simp only [if_true]
    rw [bind_eq_ok]
    exact ⟨fun ⟨_, w, h, h'⟩ => ⟨w, h, h'⟩, fun ⟨w, h, h'⟩ => ⟨(), w, h, h'⟩⟩

theorem iterate_zero_eq_ok {cond : Exec Bool} {round : Exec Unit} {limit : Int} {o : Origin} {a : Unit} :
    iterate cond round limit o 0 s = .ok a t ↔ cond s = .ok false t := by
  rw [iterate, bind_eq_ok]
  constructor
  · rintro ⟨b, u, hb, h⟩
    cases b
    · simp only [Bool.false_eq_true, if_false, pure_eq_ok] at h
      rw [hb, h.2]
    · simp [fail_eq_ok] at h
  · intro h
    exact ⟨false, t, h, rfl⟩

/-- what holds through all rounds of a loop holds after it -/
theorem iterate_invariant {cond : Exec Bool} {round : Exec Unit} {limit : Int} {o : Origin} (I : State → Prop)
    (hc : ∀ {s b t}, I s → cond s = .ok b t → I t) (hr : ∀ {s t}, I s → round s = .ok () t → I t) {left : ℕ} {a : Unit}
    (h : iterate cond round limit o left s = .ok a t) (hs : I s) : I t := by
  induction left generalizing s with
  | zero => exact hc hs (iterate_zero_eq_ok.1 h)
  | succ left ih =>
    obtain ⟨b, u, hb, h⟩ := iterate_succ_eq_ok.1 h
    have hu := hc hs hb
    cases b
    · simp only [Bool.false_eq_true, if_false] at h
      exact h ▸ hu
    · simp only [if_true] at h
      obtain ⟨w, hw, h⟩ := h
      exact ih h (hr hu hw)

/-- a loop of so many rounds that get from one stage of an invariant to the next -/
theorem iterate_ends {cond : Exec Bool} {round : Exec Unit} {limit : Int} {o : Origin} {rounds : ℕ}
    (I : ℕ → State → Prop) (hc : ∀ i s, i ≤ rounds → I i s → cond s = .ok (decide (i < rounds)) s)
    (hr : ∀ i s, i < rounds → I i s → ∃ t, round s = .ok () t ∧ I (i + 1) t) (left : ℕ) :
    ∀ i s, i ≤ rounds → rounds - i ≤ left → I i s →
      ∃ t, iterate cond round limit o left s = .ok () t ∧ I rounds t := by
  induction left with
  | zero =>
    intro i s hi hl hs
    obtain rfl : i = rounds := by omega
    refine ⟨s, iterate_zero_eq_ok.2 ?_, hs⟩
    rw [hc i s hi hs]
    simp
  | succ left ih =>
    intro i s hi hl hs
    have hcond := hc i s hi hs
    by_cases h : i < rounds
    · obtain ⟨t, ht, hI⟩ := hr i s h hs
      obtain ⟨u, hu, hI'⟩ := ih (i + 1) t h (by omega) hI
      refine ⟨u, iterate_succ_eq_ok.2 ⟨true, s, by simpa [h] using hcond, ?_⟩, hI'⟩
      exact ⟨t, ht, hu⟩
    · obtain rfl : i = rounds := by omega
      exact ⟨s, iterate_succ_eq_ok.2 ⟨false, s, by simpa using hcond, rfl⟩, hs⟩

end Machine

end GpuHistogram
