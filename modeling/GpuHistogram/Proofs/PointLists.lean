/-
The points of a run as a list. `points c l s` runs the host code `l` from `s` and lists every statement that it comes to
with the state in which it does; `mem_points` says that these are the points that the run reaches. With it, and with the
instance that decides `Exact`, that nothing overflows in the run of a given program is decided by running it.
-/
import GpuHistogram.Proofs.Points

namespace GpuHistogram

namespace Machine

variable {c : Context} {s t : State} {l : List Stmt} {x : Stmt}

/-- the states in which a loop with so many rounds left begins a round -/
def begins (cond : Exec Bool) (round : Exec Unit) : ℕ → State → List State
  | 0, _ => []
  | left + 1, s =>
    match cond s with
    | .ok true _ =>
      s :: match round s with
        | .ok _ u => begins cond round left u
        | .error .. => []
    | _ => []

theorem mem_begins {e : Expr} {round : Exec Unit} {left : ℕ} :
    t ∈ begins (holds c e) round left s ↔ Begins (holds c e) round left s t := by
  induction left generalizing s with
  | zero => exact ⟨fun h => absurd h List.not_mem_nil, False.elim⟩
  | succ left ih =>
    rw [begins, Begins]
    split
    · rename_i u hc
      obtain ⟨-, -, -, rfl⟩ := holds_eq_ok.1 hc
      rw [List.mem_cons, eq_comm (a := t)]
      refine ⟨fun h => ⟨hc, h.imp_right fun h => ?_⟩, fun h => h.2.imp_right fun ⟨u, hu, h⟩ => ?_⟩
      · split at h
        · exact ⟨_, ‹_›, ih.1 h⟩
        · cases h
      · rw [hu]
        exact ih.2 h
    · rename_i hc
      exact ⟨fun h => absurd h List.not_mem_nil, fun h => absurd h.1 (hc s)⟩

mutual

/-- the points inside a statement that starts in a state -/
def innerPoints (c : Context) : Stmt → State → List (Stmt × State)
  | .ifElse cond thn els _, s =>
    match holds c cond s with
    | .ok true _ => points c thn s
    | .ok false _ => points c els s
    | .error .. => []
  | .scope body _, s => points c body s
  | .whileLoop cond body _, s =>
    (begins (holds c cond) (execAll (launch c) c body) c.rounds s).flatMap (points c body)
  | .forLoop ty n init cond incr body _, s =>
    match eval c s init with
    | .ok first =>
      (begins (holds c cond) (do
        execAll (launch c) c body
        let next ← value c incr
        setVar n (next.convert ty.elem)) c.rounds (s.set n (first.convert ty.elem))).flatMap (points c body)
    | .error _ => []
  | _, _ => []

/-- the points of host code that starts in a state -/
def points (c : Context) : List Stmt → State → List (Stmt × State)
  | [], _ => []
  | x :: l, s =>
    (x, s) :: (innerPoints c x s ++
      match exec (launch c) c x s with
      | .ok _ t => points c l t
      | .error .. => [])

end

mutual

theorem reaches_of_innerPoints : ∀ {x : Stmt} {m : List Stmt} {y : Stmt} {s u : State},
    (y, u) ∈ innerPoints c x s → Reaches c (x :: m) s y u
  | .ifElse cond thn els o, m, y, s, u, h => by
    rw [innerPoints] at h
    split at h
    · rename_i t hb
      obtain ⟨-, -, -, rfl⟩ := holds_eq_ok.1 hb
      exact .thn hb (reaches_of_points h)
    · rename_i t hb
      obtain ⟨-, -, -, rfl⟩ := holds_eq_ok.1 hb
      exact .els hb (reaches_of_points h)
    · cases h
  | .scope body o, m, y, s, u, h => by
    rw [innerPoints] at h
    exact .scope (reaches_of_points h)
  | .whileLoop cond body o, m, y, s, u, h => by
    rw [innerPoints] at h
    obtain ⟨t, ht, h⟩ := List.mem_flatMap.1 h
    exact .whileLoop (mem_begins.1 ht) (reaches_of_points h)
  | .forLoop ty n init cond incr body o, m, y, s, u, h => by
    rw [innerPoints] at h
    split at h
    · rename_i first hf
      obtain ⟨t, ht, h⟩ := List.mem_flatMap.1 h
      exact .forLoop hf (mem_begins.1 ht) (reaches_of_points h)
    · cases h
  | .define .., m, y, s, u, h | .assign .., m, y, s, u, h | .barrier .., m, y, s, u, h | .fence .., m, y, s, u, h
  | .atomic .., m, y, s, u, h | .compareSwap .., m, y, s, u, h | .alloc .., m, y, s, u, h | .free .., m, y, s, u, h
  | .copy .., m, y, s, u, h | .fill .., m, y, s, u, h | .rebind .., m, y, s, u, h | .table .., m, y, s, u, h
  | .launch .., m, y, s, u, h => by
    simp [innerPoints] at h

theorem reaches_of_points : ∀ {l : List Stmt} {y : Stmt} {s u : State}, (y, u) ∈ points c l s → Reaches c l s y u
  | [], y, s, u, h => by
    rw [points] at h
    cases h
  | x :: l, y, s, u, h => by
    rw [points, List.mem_cons, List.mem_append] at h
    rcases h with h | h | h
    · cases h
      exact .here
    · exact reaches_of_innerPoints h
    · split at h
      · rename_i t hx
        exact .later hx (reaches_of_points h)
      · cases h

end

instance decidableForallOk {ε α : Type} {P : α → Prop} [∀ a, Decidable (P a)] : (x : Except ε α) →
    Decidable (∀ a, x = .ok a → P a)
  | .ok a => decidable_of_iff (P a) ⟨fun h _ he => Except.ok.inj he ▸ h, fun h => h a rfl⟩
  | .error _ => isTrue fun _ he => nomatch he

/-- the number that a word stands for -/
def word? : Value → Option Int
  | .int a .i64 => some a
  | _ => none

theorem word?_eq_some {v : Value} {a : Int} : word? v = some a ↔ v = .word a := by
  constructor
  · intro h
    unfold word? at h
    split at h
    · cases h
      rfl
    · cases h
  · rintro rfl
    rfl

/-- deciding whether the result of an operator on two parts is a word -/
instance decidableNumberFits (op : Binary) (x y : Except Fault Value) : Decidable
    (∀ a b v, x = .ok (.word a) → y = .ok (.word b) → op.number? a b = some v → Word64.fits v = true) :=
  decidable_of_iff (∀ v, x = .ok v → ∀ w, y = .ok w → ∀ a ∈ word? v, ∀ b ∈ word? w, ∀ n ∈ op.number? a b, Word64.fits n = true)
    ⟨fun h a b n hx hy hn => h _ hx _ hy a (word?_eq_some.2 rfl) b (word?_eq_some.2 rfl) n hn,
      fun h _ hx _ hy a ha b hb n hn => h a b n (word?_eq_some.1 ha ▸ hx) (word?_eq_some.1 hb ▸ hy) hn⟩

instance decidableExact (c : Context) (s : State) : (e : Expr) → Decidable (Exact c s e)
  | .unary op e _ _ =>
    have := decidableExact c s e
    decidable_of_iff (Exact c s e ∧ ∀ v, eval c s e = .ok v → ∀ a ∈ word? v, op = .neg → Word64.fits (-a) = true)
      (and_congr_right fun _ => ⟨fun h a ha => h _ ha a (word?_eq_some.2 rfl), fun h _ hv a ha => h a (word?_eq_some.1 ha ▸ hv)⟩)
  | .binary _ l r _ _ =>
    have := decidableExact c s l
    have := decidableExact c s r
    inferInstanceAs (Decidable (_ ∧ _ ∧ _))
  | .select b t e _ _ =>
    have := decidableExact c s b
    have := decidableExact c s t
    have := decidableExact c s e
    inferInstanceAs (Decidable (Exact c s b ∧ ∀ v, eval c s b = .ok v → if v.truth then Exact c s t else Exact c s e))
  | .access _ i _ _ => decidableExact c s i
  | .convert e _ | .bitCast e _ => decidableExact c s e
  | .var .. | .bool .. | .int .. | .float .. | .place .. | .size .. | .capability .. => isTrue trivial

end Machine

end GpuHistogram
