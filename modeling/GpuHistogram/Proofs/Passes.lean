/-
Passes over a list with an accumulator that each step updates, stopped by the first step that fails: `List.foldlM`, which
only reads the members, and `replaceAll`, which also puts others in their place.

A pass is told by its visits. `visits` lists them by what the steps do, each member with the accumulator it is met with;
`logged` is a step that writes its visits down while the pass runs, and a failure does not undo what is written. The two
agree for both kinds of passes (`run_foldlM_logged`, `run_replaceAll_logged`), whose visits are therefore the same.

- `foldlM_eq_error`: a pass fails with the first error of a step, and visits nothing after it;
- `replaceAll_keeping`: a pass that puts every member back ends as the pass that reads;
- `replaceAll_andThen_of_ok`, `replaceAll_andThen_of_error`: two passes, the second over the result of the first, against
  one pass with both steps. If the first of the two goes through, the one pass ends as the second of the two. If it fails,
  so does the one pass, but perhaps earlier, by the second step: it gets to the later members later.
-/
import GpuHistogram.Code.Children

namespace GpuHistogram

variable {m : Type → Type} [Monad m] {α β γ ε σ : Type}

/-! ## Steps -/

/-- what a step that replaces members does to the accumulator -/
def onAccumulator (step : α → σ → Except ε (α × σ)) (a : α) (s : σ) : Except ε α :=
  (step a s).map Prod.fst

/-- a step that puts every member back -/
def keeping (step : α → σ → Except ε α) (a : α) (s : σ) : Except ε (α × σ) :=
  (step a s).map fun b => (b, s)

/-- one step, then another on what the first returns, each with an accumulator of its own -/
def andThen (f : α → σ → Except ε (α × σ)) (g : β → σ → Except ε (β × σ)) (p : α × β) (s : σ) :
    Except ε ((α × β) × σ) := do
  let (a, s') ← f p.1 s
  let (b, s'') ← g p.2 s'
  return ((a, b), s'')

/-- a step that writes its visits down, in a log that outlives a failure -/
def logged (step : α → σ → Except ε β) (a : α) (s : σ) : ExceptT ε (StateM (List (α × σ))) β :=
  .mk fun log => (step a s, log ++ [(a, s)])

/-- a run that writes a log: its result and what it wrote -/
def runLogged (x : ExceptT ε (StateM (List γ)) β) : Except ε β × List γ :=
  x.run.run []

section

variable {f : α → σ → Except ε (α × σ)} {g : β → σ → Except ε (β × σ)} {a : α} {c : β} {s : σ} {r : α × σ} {e : ε}

theorem onAccumulator_of_ok (h : f a s = .ok r) : onAccumulator f a s = .ok r.1 := by
  rw [onAccumulator, h]
  rfl

theorem onAccumulator_of_error (h : f a s = .error e) : onAccumulator f a s = .error e := by
  rw [onAccumulator, h]
  rfl

theorem andThen_of_ok (h : f a s = .ok r) : andThen f g (a, c) s = (g c r.2).map fun q => ((r.1, q.1), q.2) := by
  rw [andThen, h]
  rfl

theorem andThen_of_error (h : f a s = .error e) : andThen f g (a, c) s = .error e := by
  rw [andThen, h]
  rfl

end

section

variable {step : α → σ → Except ε β} {a : α} {s : σ}

theorem run_logged_bind_ok {b : β} (h : step a s = .ok b) (k : β → ExceptT ε (StateM (List (α × σ))) γ)
    (log : List (α × σ)) : (logged step a s >>= k).run.run log = (k b).run.run (log ++ [(a, s)]) := by
  simp only [logged, h]
  rfl

theorem run_logged_bind_error {e : ε} (h : step a s = .error e) (k : β → ExceptT ε (StateM (List (α × σ))) γ)
    (log : List (α × σ)) : (logged step a s >>= k).run.run log = (.error e, log ++ [(a, s)]) := by
  simp only [logged, h]
  rfl

end

/-! ## Reading -/

/-- the visits of a pass over a list, each with the accumulator that the member is met with; one that fails is the last -/
def visits (step : α → σ → Except ε α) (a : α) : List σ → List (α × σ)
  | [] => []
  | s :: rest => (a, s) :: match step a s with
    | .ok b => visits step b rest
    | .error _ => []

/-- the steps go through up to a member and fail there, and nothing is visited after it -/
def StopsWith (step : α → σ → Except ε α) (a : α) (l : List σ) (e : ε) : Prop :=
  ∃ before s after b, l = before ++ s :: after ∧ before.foldlM step a = .ok b ∧ step b s = .error e ∧
    (visits step a l).map Prod.snd = before ++ [s]

section

variable {step : α → σ → Except ε α} {a b : α} {s : σ} {e : ε} {l : List σ}

theorem visits_cons_ok (h : step a s = .ok b) : visits step a (s :: l) = (a, s) :: visits step b l := by
  rw [visits, h]

theorem visits_cons_error (h : step a s = .error e) : visits step a (s :: l) = [(a, s)] := by
  rw [visits, h]

theorem foldlM_cons_ok (h : step a s = .ok b) : (s :: l).foldlM step a = l.foldlM step b := by
  rw [List.foldlM_cons, h]
  rfl

theorem foldlM_cons_error (h : step a s = .error e) : (s :: l).foldlM step a = .error e := by
  rw [List.foldlM_cons, h]
  rfl

theorem run_foldlM_logged (step : α → σ → Except ε α) (l : List σ) (a : α) (log : List (α × σ)) :
    (l.foldlM (logged step) a).run.run log = (l.foldlM step a, log ++ visits step a l) := by
  induction l generalizing a log with
  | nil =>
    rw [visits, List.append_nil]
    rfl
  | cons s l ih =>
    rw [List.foldlM_cons]
    cases h : step a s with
    | error e => rw [run_logged_bind_error h, visits_cons_error h, foldlM_cons_error h]
    | ok b =>
      rw [run_logged_bind_ok h, ih, visits_cons_ok h, foldlM_cons_ok h, List.append_assoc, List.singleton_append]

/-- a pass that goes through visits every member -/
theorem visits_of_ok (h : l.foldlM step a = .ok b) : (visits step a l).map Prod.snd = l := by
  induction l generalizing a with
  | nil => rfl
  | cons s l ih =>
    cases hs : step a s with
    | error e =>
      rw [foldlM_cons_error hs] at h
      cases h
    | ok c =>
      rw [foldlM_cons_ok hs] at h
      rw [visits_cons_ok hs, List.map_cons, ih h]

/-- a pass fails exactly with the first error of a step -/
theorem foldlM_eq_error : l.foldlM step a = .error e ↔ StopsWith step a l e := by
  constructor
  · intro h
    induction l generalizing a with
    | nil => cases h
    | cons s l ih =>
      cases hs : step a s with
      | error e' =>
        rw [foldlM_cons_error hs] at h
        cases h
        refine ⟨[], s, l, a, rfl, rfl, hs, ?_⟩
        rw [visits_cons_error hs]
        rfl
      | ok c =>
        rw [foldlM_cons_ok hs] at h
        obtain ⟨before, t, after, b, rfl, hbefore, ht, hvisits⟩ := ih h
        refine ⟨s :: before, t, after, b, rfl, (foldlM_cons_ok hs).trans hbefore, ht, ?_⟩
        rw [visits_cons_ok hs, List.map_cons, hvisits, List.cons_append]
  · rintro ⟨before, s, after, b, rfl, hbefore, hs, -⟩
    rw [List.foldlM_append, hbefore]
    exact foldlM_cons_error hs

end

/-! ## Replacing -/

/-- put others in the place of the members of a list, from left to right -/
def replaceAll (step : α → σ → m (α × σ)) (a : α) : List σ → m (α × List σ)
  | [] => return (a, [])
  | s :: rest => do
    let (b, s') ← step a s
    let (c, rest') ← replaceAll step b rest
    return (c, s' :: rest')

theorem replaceAll_cons [LawfulMonad m] (step : α → σ → m (α × σ)) (a : α) (s : σ) (l : List σ) :
    replaceAll step a (s :: l) = step a s >>= fun r => (fun q => (q.1, r.2 :: q.2)) <$> replaceAll step r.1 l := by
  simp only [replaceAll, map_eq_pure_bind]

section

variable {step : α → σ → Except ε (α × σ)} {a b : α} {s : σ} {r : α × σ} {e : ε} {l l' : List σ}

theorem replaceAll_cons_ok (h : step a s = .ok r) :
    replaceAll step a (s :: l) = (replaceAll step r.1 l).map fun q => (q.1, r.2 :: q.2) := by
  rw [replaceAll_cons, h]
  rfl

theorem replaceAll_cons_error (h : step a s = .error e) : replaceAll step a (s :: l) = .error e := by
  rw [replaceAll_cons, h]
  rfl

theorem replaceAll_cons_eq_ok : replaceAll step a (s :: l) = .ok (b, l') ↔
    ∃ r t, step a s = .ok r ∧ replaceAll step r.1 l = .ok (b, t) ∧ l' = r.2 :: t := by
  constructor
  · intro h
    cases hs : step a s with
    | error e =>
      rw [replaceAll_cons_error hs] at h
      cases h
    | ok r =>
      rw [replaceAll_cons_ok hs] at h
      cases hl : replaceAll step r.1 l with
      | error e =>
        rw [hl] at h
        cases h
      | ok q =>
        rw [hl] at h
        cases h
        exact ⟨r, q.2, rfl, hl, rfl⟩
  · rintro ⟨r, t, hs, hl, rfl⟩
    rw [replaceAll_cons_ok hs, hl]
    rfl

theorem replaceAll_cons_eq_error : replaceAll step a (s :: l) = .error e ↔
    step a s = .error e ∨ ∃ r, step a s = .ok r ∧ replaceAll step r.1 l = .error e := by
  cases hs : step a s with
  | error e' =>
    rw [replaceAll_cons_error hs]
    simp
  | ok r =>
    rw [replaceAll_cons_ok hs]
    cases hl : replaceAll step r.1 l <;> simp [hl, Except.map]

/-- the accumulator of a pass that replaces is that of a pass that reads -/
theorem map_fst_replaceAll (step : α → σ → Except ε (α × σ)) (a : α) (l : List σ) :
    (replaceAll step a l).map Prod.fst = l.foldlM (onAccumulator step) a := by
  induction l generalizing a with
  | nil => rfl
  | cons s l ih =>
    cases h : step a s with
    | error e =>
      rw [replaceAll_cons_error h, foldlM_cons_error (onAccumulator_of_error h)]
      rfl
    | ok r =>
      rw [replaceAll_cons_ok h, foldlM_cons_ok (onAccumulator_of_ok h), ← ih]
      cases replaceAll step r.1 l <;> rfl

theorem run_replaceAll_logged (step : α → σ → Except ε (α × σ)) (l : List σ) (a : α) (log : List (α × σ)) :
    (replaceAll (logged step) a l).run.run log = (replaceAll step a l, log ++ visits (onAccumulator step) a l) := by
  induction l generalizing a log with
  | nil =>
    rw [visits, List.append_nil]
    rfl
  | cons s l ih =>
    rw [replaceAll_cons]
    cases h : step a s with
    | error e => rw [run_logged_bind_error h, visits_cons_error (onAccumulator_of_error h), replaceAll_cons_error h]
    | ok r =>
      rw [run_logged_bind_ok h, visits_cons_ok (onAccumulator_of_ok h), replaceAll_cons_ok h, ExceptT.run_map,
        StateT.run_map, ih, List.append_assoc, List.singleton_append]
      rfl

theorem length_of_replaceAll (h : replaceAll step a l = .ok (b, l')) : l'.length = l.length := by
  induction l generalizing a l' with
  | nil =>
    cases h
    rfl
  | cons s l ih =>
    obtain ⟨r, t, -, hl, rfl⟩ := replaceAll_cons_eq_ok.1 h
    rw [List.length_cons, List.length_cons, ih hl]

theorem replaceAll_keeping (step : α → σ → Except ε α) (a : α) (l : List σ) :
    replaceAll (keeping step) a l = (l.foldlM step a).map fun b => (b, l) := by
  induction l generalizing a with
  | nil => rfl
  | cons s l ih =>
    have hstep : keeping step a s = (step a s).map fun b => (b, s) := rfl
    cases h : step a s with
    | error e =>
      rw [h] at hstep
      rw [replaceAll_cons_error hstep, foldlM_cons_error h]
      rfl
    | ok b =>
      rw [h] at hstep
      rw [replaceAll_cons_ok hstep, foldlM_cons_ok h, ih]
      cases l.foldlM step b <;> rfl

/-- a pass whose steps neither fail nor touch the accumulator -/
theorem replaceAll_plain (f : σ → σ) (a : α) (l : List σ) :
    replaceAll (fun a s => (.ok (a, f s) : Except ε (α × σ))) a l = .ok (a, l.map f) := by
  induction l with
  | nil => rfl
  | cons s l ih =>
    rw [replaceAll_cons_ok rfl, ih]
    rfl

end

/-! ## Two passes -/

section

variable {f : α → σ → Except ε (α × σ)} {g : β → σ → Except ε (β × σ)} {a b : α} {c : β} {e : ε} {l l' : List σ}

theorem replaceAll_andThen_of_ok (h : replaceAll f a l = .ok (b, l')) :
    replaceAll (andThen f g) (a, c) l = (replaceAll g c l').map fun q => ((b, q.1), q.2) := by
  induction l generalizing a c l' with
  | nil =>
    cases h
    rfl
  | cons s l ih =>
    obtain ⟨r, t, hs, hl, rfl⟩ := replaceAll_cons_eq_ok.1 h
    have hstep := andThen_of_ok (g := g) (c := c) hs
    cases ht : g c r.2 with
    | error e =>
      rw [ht] at hstep
      rw [replaceAll_cons_error hstep, replaceAll_cons_error ht]
      rfl
    | ok q =>
      rw [ht] at hstep
      rw [replaceAll_cons_ok hstep, ih hl, replaceAll_cons_ok ht]
      cases replaceAll g q.1 t <;> rfl

theorem replaceAll_andThen_of_error (h : replaceAll f a l = .error e) :
    ∃ e', replaceAll (andThen f g) (a, c) l = .error e' ∧ (e' = e ∨ ∃ d t, g d t = .error e') := by
  induction l generalizing a c with
  | nil => cases h
  | cons s l ih =>
    obtain hs | ⟨r, hs, hl⟩ := replaceAll_cons_eq_error.1 h
    · exact ⟨e, replaceAll_cons_error (andThen_of_error hs), .inl rfl⟩
    · have hstep := andThen_of_ok (g := g) (c := c) hs
      cases ht : g c r.2 with
      | error e' =>
        rw [ht] at hstep
        exact ⟨e', replaceAll_cons_error hstep, .inr ⟨c, r.2, ht⟩⟩
      | ok q =>
        rw [ht] at hstep
        obtain ⟨e', he, hor⟩ := ih (c := q.1) hl
        exact ⟨e', replaceAll_cons_eq_error.2 (.inr ⟨_, hstep, he⟩), hor⟩

end

end GpuHistogram
