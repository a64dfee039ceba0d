/-
Two programs side by side. A link says which variable of the first program corresponds to which variable of the second, and
which variables of the second stand for a number that is known in the first. Linked states agree on corresponding names
and have the same buffers; `Mirrors I x y R` says that wherever `x` succeeds, `y` does as well, with related results and
states that are related again by `I`. There is one rule for each way of putting computations together, and one for each
change of memory.

The two programs draw their fresh names from supplies of their own, so corresponding names need not be equal. Names from
before both supplies are shared: each corresponds to itself. Links grow while names are drawn (`L ≤ M`), and what is said
of a link holds of every later one.
-/
import GpuHistogram.Proofs.Arrays
import GpuHistogram.Proofs.Generate
import GpuHistogram.Proofs.Points

namespace GpuHistogram

namespace Machine

/-- the context on a thread, or for the host -/
def Context.within (c : Context) (th : Option ThreadPlace) : Context := { c with thread := th }

/-- two hosts, and the symbols that the names of the two programs are drawn from; the second host knows every size that the
first one knows -/
structure Hosts where
  first : Context
  second : Context
  start : ℕ
  start' : ℕ
  limits : second.limits = first.limits
  loopLimit : second.loopLimit = first.loopLimit
  sizes : ∀ {id v}, first.sizes id = some v → second.sizes id = some v
  thread : first.thread = none
  thread' : second.thread = none

/-- a name that both programs have from before -/
def Hosts.Shared (H : Hosts) (n : Name) : Prop := n.Before H.start ∧ n.Before H.start'

/-- what corresponds in two programs: variables and arrays by their names, and variables of the second to numbers -/
structure Link (H : Hosts) where
  rel : Name → Name → Prop
  /-- variables of the first program that never hold anything but 64-bit numbers -/
  word : Name → Prop
  value : Name → Option Int
  functional : ∀ {n m m'}, rel n m → rel n m' → m = m'
  injective : ∀ {n n' m}, rel n m → rel n' m → n = n'
  shared : ∀ {n}, H.Shared n → rel n n
  fresh : ∀ {n m}, rel n m → n = m ∧ H.Shared n ∨ ¬ n.Before H.start ∧ ¬ m.Before H.start'
  word_fresh : ∀ {n}, word n → ¬ n.Before H.start
  value_fresh : ∀ {m v}, value m = some v → ¬ m.Before H.start'
  apart : ∀ {n m}, rel n m → value m = none
  fits : ∀ {m v}, value m = some v → Word64.fits v = true

namespace Link

variable {H : Hosts} {L M : Link H} {n m n' m' : Name} {j k : ℕ}

/-- the later link has the pairs and numbers of the earlier one -/
structure Grows (L M : Link H) : Prop where
  rel : ∀ {n m}, L.rel n m → M.rel n m
  word : ∀ {n m}, L.rel n m → (M.word n ↔ L.word n)
  value : ∀ {m v}, L.value m = some v → M.value m = some v

instance : Preorder (Link H) where
  le := Grows
  le_refl _ := ⟨id, fun _ => Iff.rfl, id⟩
  le_trans _ _ _ h h' := ⟨fun hr => h'.rel (h.rel hr), fun hr => (h'.word (h.rel hr)).trans (h.word hr), fun hv => h'.value (h.value hv)⟩

theorem rel_mono (h : L ≤ M) (hr : L.rel n m) : M.rel n m := Grows.rel h hr

theorem word_mono (h : L ≤ M) (hr : L.rel n m) : M.word n ↔ L.word n := Grows.word h hr

theorem value_mono (h : L ≤ M) {v : Int} (hv : L.value m = some v) : M.value m = some v := Grows.value h hv

theorem not_word_of_shared (hn : H.Shared n) : ¬ L.word n := fun hw => L.word_fresh hw hn.1

theorem rel_iff (h : L.rel n m) (h' : L.rel n' m') : n = n' ↔ m = m' :=
  ⟨fun hn => L.functional h (hn ▸ h'), fun hm => L.injective h (hm ▸ h')⟩

/-! ## Drawing names -/

/-- all that the link knows was drawn by then -/
structure Below (L : Link H) (j k : ℕ) : Prop where
  start : H.start ≤ j
  start' : H.start' ≤ k
  rel : ∀ {n m}, L.rel n m → n.Before j ∧ m.Before k
  value : ∀ {m v}, L.value m = some v → m.Before k

theorem Below.mono {j' k' : ℕ} (h : L.Below j k) (hj : j ≤ j') (hk : k ≤ k') : L.Below j' k' :=
  ⟨h.start.trans hj, h.start'.trans hk, fun hr => ⟨(h.rel hr).1.mono hj, (h.rel hr).2.mono hk⟩, fun hv => (h.value hv).mono hk⟩

/-- the names that both programs have, each corresponding to itself -/
def base (H : Hosts) : Link H where
  rel n m := n = m ∧ H.Shared n
  word _ := False
  value _ := none
  functional h h' := h.1.symm.trans h'.1
  injective h h' := h.1.trans h'.1.symm
  shared h := ⟨rfl, h⟩
  fresh h := .inl h
  word_fresh h := h.elim
  value_fresh h := nomatch h
  apart _ := rfl
  fits h := nomatch h

theorem base_below (H : Hosts) : (base H).Below H.start H.start' :=
  ⟨le_rfl, le_rfl, fun ⟨hn, hs⟩ => ⟨hs.1, hn ▸ hs.2⟩, fun h => nomatch h⟩

/-- the later link has more pairs, and no number more -/
structure Extends (L M : Link H) : Prop where
  le : L ≤ M
  value : ∀ {m v}, M.value m = some v → L.value m = some v

theorem Extends.refl (L : Link H) : L.Extends L := ⟨le_rfl, id⟩

theorem Extends.trans {K : Link H} (h : K.Extends L) (h' : L.Extends M) : K.Extends M :=
  ⟨h.le.trans h'.le, fun hv => h.value (h'.value hv)⟩

theorem not_before {text : String} {i j : ℕ} (h : i ≤ j) : ¬ (⟨text, some j⟩ : Name).Before i := fun hb =>
  absurd (hb j rfl) (by omega)

/-- a name drawn for each program: the link with the pair of them -/
theorem exists_pair (h : L.Below j k) (text text' : String) (w : Prop) : ∃ M : Link H, L.Extends M ∧ M.Below (j + 1) (k + 1) ∧
    M.rel ⟨text, some j⟩ ⟨text', some k⟩ ∧ (M.word ⟨text, some j⟩ ↔ w) := by
  have hj {i : ℕ} (hi : i ≤ j) : ¬ (⟨text, some j⟩ : Name).Before i := not_before hi
  have hk {i : ℕ} (hi : i ≤ k) : ¬ (⟨text', some k⟩ : Name).Before i := not_before hi
  have hleft {m : Name} : ¬ L.rel ⟨text, some j⟩ m := fun hr => hj le_rfl (h.rel hr).1
  have hright {n : Name} : ¬ L.rel n ⟨text', some k⟩ := fun hr => hk le_rfl (h.rel hr).2
  refine ⟨{
    rel := fun n m => L.rel n m ∨ n = ⟨text, some j⟩ ∧ m = ⟨text', some k⟩
    word := fun n => (n = ⟨text, some j⟩ ∧ w) ∨ (n ≠ ⟨text, some j⟩ ∧ L.word n)
    value := L.value
    functional := ?_
    injective := ?_
    shared := fun hn => .inl (L.shared hn)
    fresh := ?_
    word_fresh := ?_
    value_fresh := L.value_fresh
    apart := ?_
    fits := L.fits }, ⟨⟨fun hr => .inl hr, fun {n m} hr => ?_, id⟩, id⟩, ⟨by have := h.start; omega, by have := h.start'; omega, ?_, ?_⟩,
    .inr ⟨rfl, rfl⟩, by simp⟩
  · rintro n m m' (hr | ⟨rfl, rfl⟩) (hr' | ⟨rfl', rfl⟩)
    · exact L.functional hr hr'
    · exact absurd (rfl' ▸ hr) hleft
    · exact absurd hr' hleft
    · rfl
  · rintro n n' m (hr | ⟨rfl, rfl⟩) (hr' | ⟨rfl, rfl'⟩)
    · exact L.injective hr hr'
    · exact absurd (rfl' ▸ hr) hright
    · exact absurd hr' hright
    · rfl
  · rintro n m (hr | ⟨rfl, rfl⟩)
    · exact L.fresh hr
    · exact .inr ⟨hj h.start, hk h.start'⟩
  · rintro n (⟨rfl, -⟩ | ⟨-, hw⟩)
    · exact hj h.start
    · exact L.word_fresh hw
  · rintro n m (hr | ⟨rfl, rfl⟩)
    · exact L.apart hr
    · exact Option.eq_none_iff_forall_ne_some.2 fun v hv => hk le_rfl (h.value hv)
  · have hn : n ≠ ⟨text, some j⟩ := by
      rintro rfl
      exact hleft hr
    simp [hn]
  · rintro n m (hr | ⟨rfl, rfl⟩)
    · exact ⟨(h.rel hr).1.mono (Nat.le_succ j), (h.rel hr).2.mono (Nat.le_succ k)⟩
    · exact ⟨fun i hi => by cases hi; omega, fun i hi => by cases hi; omega⟩
  · exact fun hv => (h.value hv).mono (Nat.le_succ k)

/-- a name drawn for the second program only: the link with the number that it stands for -/
theorem exists_value (h : L.Below j k) (text : String) {v : Int} (hv : Word64.fits v = true) :
    ∃ M : Link H, L ≤ M ∧ M.Below j (k + 1) ∧ M.value ⟨text, some k⟩ = some v ∧
      ∀ {m w}, M.value m = some w → m = ⟨text, some k⟩ ∨ L.value m = some w := by
  have hk {i : ℕ} (hi : i ≤ k) : ¬ (⟨text, some k⟩ : Name).Before i := not_before hi
  refine ⟨{ L with
    value := fun m => if m = ⟨text, some k⟩ then some v else L.value m
    value_fresh := ?_
    apart := ?_
    fits := ?_ }, ⟨id, fun _ => Iff.rfl, ?_⟩, ⟨h.start, by have := h.start'; omega, ?_, ?_⟩, by simp, ?_⟩
  · intro m w hw
    split_ifs at hw with hm
    · exact hm ▸ hk h.start'
    · exact L.value_fresh hw
  · intro n m hr
    have hm : m ≠ ⟨text, some k⟩ := by
      rintro rfl
      exact hk le_rfl (h.rel hr).2
    simp only [hm, if_false]
    exact L.apart hr
  · intro m w hw
    split_ifs at hw with hm
    · exact Option.some.inj hw ▸ hv
    · exact L.fits hw
  · intro m w hw
    have hm : m ≠ ⟨text, some k⟩ := by
      rintro rfl
      exact hk le_rfl (h.value hw)
    simp only [hm, if_false]
    exact hw
  · exact fun hr => ⟨(h.rel hr).1, (h.rel hr).2.mono (Nat.le_succ k)⟩
  · intro m w hw
    dsimp only at hw
    split_ifs at hw with hm
    · exact hm ▸ fun i hi => by cases hi; omega
    · exact (h.value hw).mono (Nat.le_succ k)
  · intro m w hw
    dsimp only at hw
    split_ifs at hw with hm
    · exact .inl hm
    · exact .inr hw

/-! ## Linked states -/

/-- corresponding variables have the same values -/
structure Vars (L : Link H) (a b : Bindings Value) : Prop where
  get : ∀ {n m}, L.rel n m → a.get? n = b.get? m
  words : ∀ {n m v}, L.rel n m → L.word n → a.get? n = some v → v.Fits .i64
  own : ∀ n v, a.get? n = some v → v.Fits v.scalar

/-- corresponding arrays are the same buffers -/
structure Arrays (L : Link H) (a b : Memory) : Prop where
  get : ∀ {n m}, L.rel n m → a.names.get? n = b.names.get? m
  buffers : a.buffers = b.buffers
  uniform : ∀ (p : ℕ) (x : Buffer), a.buffers[p]? = some x → x.Uniform

/-- the states have the same memory, but for the names of variables and arrays -/
structure Shares (L : Link H) (s t : State) : Prop where
  memory : L.Arrays s.memory t.memory
  launched : s.launched = t.launched

/-- the states are the same but for the names of variables and arrays -/
structure Linked (L : Link H) (s t : State) : Prop extends L.Shares s t where
  vars : L.Vars s.vars t.vars

/-- variables that stand for numbers hold them -/
def Holds (L : Link H) (N : Name → Prop) (t : State) : Prop :=
  ∀ m v, N m → L.value m = some v → t.vars.get? m = some (.word v)

variable {s t : State} {N N' : Name → Prop}

theorem Vars.mono {a b : Bindings Value} (h : L ≤ M) (hv : M.Vars a b) : L.Vars a b :=
  ⟨fun hr => hv.get (rel_mono h hr), fun hr hw => hv.words (rel_mono h hr) ((word_mono h hr).2 hw), hv.own⟩

theorem Arrays.mono {a b : Memory} (h : L ≤ M) (hm : M.Arrays a b) : L.Arrays a b :=
  ⟨fun hr => hm.get (rel_mono h hr), hm.buffers, hm.uniform⟩

theorem Linked.mono (h : L ≤ M) (hs : M.Linked s t) : L.Linked s t :=
  ⟨⟨hs.memory.mono h, hs.launched⟩, hs.vars.mono h⟩

theorem Linked.sound (h : L.Linked s t) : s.Sound := ⟨h.vars.own, h.memory.uniform⟩

theorem Holds.mono (h : L ≤ M) (ht : M.Holds N t) : L.Holds N t := fun m v hm hv => ht m v hm (value_mono h hv)

theorem Holds.subset (ht : L.Holds N t) (h : ∀ m, N' m → N m) : L.Holds N' t := fun m v hm => ht m v (h m hm)

theorem Vars.set {a b : Bindings Value} {v : Value} (h : L.Vars a b) (hr : L.rel n m) (ho : v.Fits v.scalar)
    (hw : L.word n → v.Fits .i64) : L.Vars (a.set n v) (b.set m v) where
  own n' w hv := by
    rw [Bindings.get?_set] at hv
    split_ifs at hv
    · exact Option.some.inj hv ▸ ho
    · exact h.own n' w hv
  get hr' := by
    simp only [Bindings.get?_set, L.rel_iff hr hr', h.get hr']
  words {n' m' w} hr' hw' hv := by
    rw [Bindings.get?_set] at hv
    split_ifs at hv with hn
    · cases hv
      exact hw (hn ▸ hw')
    · exact h.words hr' hw' hv

theorem Linked.set {v : Value} (h : L.Linked s t) (hr : L.rel n m) (ho : v.Fits v.scalar) (hw : L.word n → v.Fits .i64) :
    L.Linked (s.set n v) (t.set m v) := ⟨⟨h.memory, h.launched⟩, h.vars.set hr ho hw⟩

theorem Holds.set (ht : L.Holds N t) (hm : L.value m = none) (v : Value) : L.Holds N (t.set m v) := by
  intro m' w hm' hw
  have hne : m ≠ m' := by
    rintro rfl
    rw [hm] at hw
    cases hw
  rw [State.get?_set, if_neg hne]
  exact ht m' w hm' hw

end Link

/-! ## Mirrored computations -/

/-- where `x` succeeds from the first of two related states, `y` succeeds from the second, with related results and states -/
def Mirrors {α β : Type} (I : State → State → Prop) (x : Exec α) (y : Exec β) (R : α → β → Prop) : Prop :=
  ∀ s t a s', I s t → x s = .ok a s' → ∃ b t', y t = .ok b t' ∧ R a b ∧ I s' t'

namespace Mirrors

variable {α β γ δ : Type} {I : State → State → Prop} {x : Exec α} {y : Exec β} {R : α → β → Prop}

theorem mono {R' : α → β → Prop} (h : Mirrors I x y R) (hR : ∀ a b, R a b → R' a b) : Mirrors I x y R' := by
  intro s t a s' hI hx
  obtain ⟨b, t', hy, hr, hI'⟩ := h s t a s' hI hx
  exact ⟨b, t', hy, hR _ _ hr, hI'⟩

theorem pure {a : α} {b : β} (h : R a b) : Mirrors I (Pure.pure a) (Pure.pure b) R := by
  intro s t a s' hI hx
  obtain ⟨rfl, rfl⟩ := pure_eq_ok.1 hx
  exact ⟨b, t, rfl, h, hI⟩

theorem fail (cause : Cause) (o : Origin) : Mirrors I (Machine.fail cause o) y R := fun _ _ _ _ _ hx =>
  (fail_eq_ok.1 hx).elim

theorem bind {f : α → Exec γ} {g : β → Exec δ} {Q : γ → δ → Prop} (h : Mirrors I x y R)
    (hf : ∀ a b, R a b → Mirrors I (f a) (g b) Q) : Mirrors I (x >>= f) (y >>= g) Q := by
  intro s t c s' hI hx
  obtain ⟨a, u, hx, hfa⟩ := bind_eq_ok.1 hx
  obtain ⟨b, w, hy, hr, hI⟩ := h _ _ _ _ hI hx
  obtain ⟨d, t', hgb, hq, hI⟩ := hf a b hr _ _ _ _ hI hfa
  exact ⟨d, t', bind_eq_ok.2 ⟨b, w, hy, hgb⟩, hq, hI⟩

theorem ite {x' : Exec α} {y' : Exec β} {p q : Prop} [Decidable p] [Decidable q] (hpq : p ↔ q) (h : Mirrors I x y R)
    (h' : Mirrors I x' y' R) : Mirrors I (if p then x else x') (if q then y else y') R := by
  by_cases hp : p
  · rw [if_pos hp, if_pos (hpq.1 hp)]
    exact h
  · rw [if_neg hp, if_neg fun hq => hp (hpq.2 hq)]
    exact h'

theorem observe {f : State → Except Fault α} {g : State → Except Fault β}
    (h : ∀ s t a, I s t → f s = .ok a → ∃ b, g t = .ok b ∧ R a b) :
    Mirrors I (Machine.observe f) (Machine.observe g) R := by
  intro s t a s' hI hx
  obtain ⟨ha, rfl⟩ := observe_eq_ok.1 hx
  obtain ⟨b, hb, hr⟩ := h s t a hI ha
  exact ⟨b, t, observe_eq_ok.2 ⟨hb, rfl⟩, hr, hI⟩

theorem iterate {cond cond' : Exec Bool} {round round' : Exec Unit} (hc : Mirrors I cond cond' Eq)
    (hr : Mirrors I round round' fun _ _ => True) (limit limit' : Int) (o o' : Origin) (left : ℕ) :
    Mirrors I (Machine.iterate cond round limit o left) (Machine.iterate cond' round' limit' o' left) fun _ _ => True := by
  induction left with
  | zero =>
    intro s t a s' hI hx
    obtain ⟨_, t', hy, rfl, hI⟩ := hc _ _ _ _ hI (iterate_zero_eq_ok.1 hx)
    exact ⟨(), t', iterate_zero_eq_ok.2 hy, trivial, hI⟩
  | succ left ih =>
    intro s t a s' hI hx
    obtain ⟨b, u, hb, hx⟩ := iterate_succ_eq_ok.1 hx
    obtain ⟨_, u', hb', rfl, hI⟩ := hc _ _ _ _ hI hb
    cases b with
    | true =>
      obtain ⟨w, hw, hx⟩ := hx
      obtain ⟨_, w', hw', -, hI⟩ := hr _ _ _ _ hI hw
      obtain ⟨_, t', hy, -, hI⟩ := ih _ _ _ _ hI hx
      exact ⟨(), t', iterate_succ_eq_ok.2 ⟨true, u', hb', w', hw', hy⟩, trivial, hI⟩
    | false => exact ⟨(), u', iterate_succ_eq_ok.2 ⟨false, u', hb', rfl⟩, trivial, (show u = s' from hx) ▸ hI⟩

end Mirrors

/-! ## Linked computations -/

namespace Link

variable {α β : Type} {H : Hosts} {L M : Link H} {n m n' m' : Name} {s t : State} {N : Name → Prop} {o o' : Origin}

/-- linked states in which the variables among `N` that stand for numbers hold them; the numbers are those of the first
link, the names those of the second -/
def Tied (L M : Link H) (N : Name → Prop) (s t : State) : Prop := M.Linked s t ∧ L.Holds N t

theorem setVar_mirrors {v : Value} (hL : L ≤ M) (hr : L.rel n m) (ho : v.Fits v.scalar) (hw : L.word n → v.Fits .i64) :
    Mirrors (L.Tied M N) (setVar n v) (setVar m v) fun _ _ => True := by
  intro s t _ s' hI hx
  obtain rfl := setVar_eq_ok.1 hx
  exact ⟨(), _, setVar_run m v, trivial, hI.1.set (rel_mono hL hr) ho fun h => hw ((word_mono hL hr).1 h),
    hI.2.set (L.apart hr) v⟩

/-! ### Memory -/

variable {a b a' b' : Memory}

theorem Arrays.lookup {f : Memory.Found} (h : L.Arrays a b) (hr : L.rel n m) (ha : a.lookup n = .ok f) :
    b.lookup m = .ok f := by
  unfold Memory.lookup at ha ⊢
  rw [← h.get hr, ← h.buffers]
  split at ha
  · split at ha
    · exact ha
    · cases ha
  · cases ha

theorem checkIndex_renamed {length k : ℕ} {i : Int} (h : Memory.checkIndex n length i = .ok k) :
    Memory.checkIndex m length i = .ok k := by
  unfold Memory.checkIndex at h ⊢
  split at h
  · rwa [if_pos ‹_›]
  · cases h

theorem checkRange_renamed {length : ℕ} {i j : Int} {r : ℕ × ℕ} (h : Memory.checkRange n length i j = .ok r) :
    Memory.checkRange m length i j = .ok r := by
  unfold Memory.checkRange at h ⊢
  split at h
  · rwa [if_pos ‹_›]
  · cases h

theorem Arrays.locate {i : Int} {r : ℕ × ℕ} (h : L.Arrays a b) (hr : L.rel n m) (ha : a.locate n i = .ok r) :
    b.locate m i = .ok r := by
  obtain ⟨f, hf, ha⟩ := except_bind_eq_ok.1 ha
  obtain ⟨k, hk, ha⟩ := except_bind_eq_ok.1 ha
  exact except_bind_eq_ok.2 ⟨f, h.lookup hr hf, except_bind_eq_ok.2 ⟨k, checkIndex_renamed hk, ha⟩⟩

theorem Arrays.locateRange {i j : Int} {r : ℕ × ℕ × ℕ} (h : L.Arrays a b) (hr : L.rel n m)
    (ha : a.locateRange n i j = .ok r) : b.locateRange m i j = .ok r := by
  obtain ⟨f, hf, ha⟩ := except_bind_eq_ok.1 ha
  obtain ⟨k, hk, ha⟩ := except_bind_eq_ok.1 ha
  exact except_bind_eq_ok.2 ⟨f, h.lookup hr hf, except_bind_eq_ok.2 ⟨k, checkRange_renamed hk, ha⟩⟩

theorem Arrays.readRange {i j : Int} {l : List Value} (h : L.Arrays a b) (hr : L.rel n m)
    (ha : a.readRange n i j = .ok l) : b.readRange m i j = .ok l := by
  obtain ⟨f, hf, ha⟩ := except_bind_eq_ok.1 ha
  obtain ⟨k, hk, ha⟩ := except_bind_eq_ok.1 ha
  exact except_bind_eq_ok.2 ⟨f, h.lookup hr hf, except_bind_eq_ok.2 ⟨k, checkRange_renamed hk, ha⟩⟩

theorem Arrays.cell (h : L.Arrays a b) (place k : ℕ) : b.cell place k = a.cell place k := by
  unfold Memory.cell
  rw [h.buffers]

theorem Arrays.read {i : Int} {v : Value} (h : L.Arrays a b) (hr : L.rel n m) (ha : a.read n i = .ok v) :
    b.read m i = .ok v := by
  obtain ⟨⟨place, k⟩, hf, ha⟩ := except_bind_eq_ok.1 ha
  refine except_bind_eq_ok.2 ⟨(place, k), h.locate hr hf, ?_⟩
  dsimp only at ha ⊢
  rwa [h.cell]

theorem Arrays.contains (h : L.Arrays a b) (hr : L.rel n m) : b.contains m = a.contains n := by
  unfold Memory.contains Bindings.contains
  rw [h.get hr]

/-- a typing of no names: all that conforms to it are the elements of the arrays, to their own types -/
def untyped : Typing := ⟨fun _ => none, fun _ => none⟩

theorem Arrays.conforms (h : L.Arrays a b) : a.Conforms untyped := ⟨fun {p x} => h.uniform p x, nofun⟩

theorem Arrays.store (h : L.Arrays a b) (place k : ℕ) {l : List Value} (hl : ∀ v ∈ l, v.Fits v.scalar) :
    L.Arrays (a.store place k l) (b.store place k l) :=
  ⟨h.get, by rw [Memory.store, Memory.store, h.buffers], fun _ _ => (h.conforms.store hl place k).1.uniform⟩

theorem Arrays.rename (h : L.Arrays a b) (hr : L.rel n m) (place : ℕ) :
    L.Arrays { a with names := a.names.set n place } { b with names := b.names.set m place } :=
  ⟨fun hr' => by simp only [Bindings.get?_set, L.rel_iff hr hr', h.get hr'], h.buffers, h.uniform⟩

theorem Arrays.insert (h : L.Arrays a b) (hr : L.rel n m) {x : Buffer} (hx : x.Uniform) :
    L.Arrays (a.insert n x) (b.insert m x) where
  uniform p y hp := by
    rw [Memory.insert, Array.getElem?_push] at hp
    split_ifs at hp
    · exact Option.some.inj hp ▸ hx
    · exact h.uniform p y hp
  get hr' := by simp only [Memory.insert, Bindings.get?_set, L.rel_iff hr hr', h.get hr', h.buffers]
  buffers := by rw [Memory.insert, Memory.insert, h.buffers]

/-- a change of the memory of linked states -/
theorem onMemory_mirrors {f g : Memory.Change α} (h : ∀ a b r a', M.Arrays a b → f a = .ok r a' →
    ∃ b', g b = .ok r b' ∧ M.Arrays a' b') : Mirrors (L.Tied M N) (onMemory o f) (onMemory o' g) Eq := by
  intro s t r s' hI hx
  obtain ⟨a', hf, rfl⟩ := onMemory_eq_ok.1 hx
  obtain ⟨b', hg, hab⟩ := h _ _ _ _ hI.1.memory hf
  exact ⟨r, _, onMemory_run hg, rfl, ⟨⟨hab, hI.1.launched⟩, hI.1.vars⟩, hI.2⟩

theorem exists_change {σ τ : Type} {check check' : Memory → Except MemoryError σ} {update update' : σ → Memory → τ × Memory}
    {r : τ} (ha : Memory.change check update a = .ok r a')
    (hc : ∀ x, check a = .ok x → check' b = .ok x)
    (hu : ∀ x, check a = .ok x → (update' x b).1 = (update x a).1 ∧ L.Arrays (update x a).2 (update' x b).2) :
    ∃ b', Memory.change check' update' b = .ok r b' ∧ L.Arrays a' b' := by
  obtain ⟨x, hx, hux⟩ := Memory.change_eq_ok ha
  obtain ⟨hval, hmem⟩ := hu x hx
  rw [hux] at hval hmem
  exact ⟨_, by rw [Memory.change_run (hc x hx), hval], hmem⟩

variable (hL : L ≤ M)

include hL

theorem write_mirrors (hr : L.rel n m) (i : Int) {v : Value} (hv : v.Fits v.scalar) :
    Mirrors (L.Tied M N) (onMemory o (Memory.write n i v)) (onMemory o' (Memory.write m i v)) Eq :=
  onMemory_mirrors fun _ _ _ _ hab h => exists_change h (fun _ => hab.locate (rel_mono hL hr))
    fun _ _ => ⟨hab.cell .., hab.store _ _ (List.forall_mem_singleton.2 hv)⟩

theorem fill_mirrors (hr : L.rel n m) (i j : Int) {v : Value} (hv : v.Fits v.scalar) :
    Mirrors (L.Tied M N) (onMemory o (Memory.fill n i j v)) (onMemory o' (Memory.fill m i j v)) Eq :=
  onMemory_mirrors fun _ _ _ _ hab h => exists_change h (fun _ => hab.locateRange (rel_mono hL hr))
    fun _ _ => ⟨rfl, hab.store _ _ fun _ hw => List.eq_of_mem_replicate hw ▸ hv⟩

theorem copy_mirrors (hr : L.rel n m) (hr' : L.rel n' m') (i i' j : Int) :
    Mirrors (L.Tied M N) (onMemory o (Memory.copy n i n' i' j)) (onMemory o' (Memory.copy m i m' i' j)) Eq := by
  refine onMemory_mirrors fun _ _ _ _ hab h => exists_change h (fun x hx => ?_) fun x hx => ⟨rfl, ?_⟩
  all_goals
    obtain ⟨values, hv, hx⟩ := except_bind_eq_ok.1 hx
    obtain ⟨r, hrange, hx⟩ := except_bind_eq_ok.1 hx
  · exact except_bind_eq_ok.2 ⟨values, hab.readRange (rel_mono hL hr') hv,
      except_bind_eq_ok.2 ⟨r, hab.locateRange (rel_mono hL hr) hrange, hx⟩⟩
  · obtain rfl := except_pure_eq_ok.1 hx
    exact hab.store _ _ (hab.conforms.readRange hv)

theorem rebind_mirrors (hr : L.rel n m) (hr' : L.rel n' m') :
    Mirrors (L.Tied M N) (onMemory o (Memory.rebind n n')) (onMemory o' (Memory.rebind m m')) Eq := by
  refine onMemory_mirrors fun _ _ _ _ hab h => exists_change h (fun x hx => ?_) fun _ _ => ⟨rfl, hab.rename (rel_mono hL hr) _⟩
  obtain ⟨f, hf, hx⟩ := except_bind_eq_ok.1 hx
  exact except_bind_eq_ok.2 ⟨f, hab.lookup (rel_mono hL hr') hf, hx⟩

theorem remove_mirrors (hr : L.rel n m) :
    Mirrors (L.Tied M N) (onMemory o (Memory.remove n)) (onMemory o' (Memory.remove m)) Eq := by
  refine onMemory_mirrors fun _ _ _ _ hab h => exists_change h (fun x hx => ?_) fun _ _ =>
    ⟨rfl, fun hr' => ?_, hab.buffers, hab.uniform⟩
  · rw [hab.contains (rel_mono hL hr)]
    split_ifs at hx ⊢
    rfl
  · simp only [Bindings.get?_erase, M.rel_iff (rel_mono hL hr) hr', hab.get hr']

theorem read_mirrors (hr : L.rel n m) (i : Int) :
    Mirrors (L.Tied M N) (observe fun s => liftMemory o (s.memory.read n i))
      (observe fun s => liftMemory o' (s.memory.read m i)) fun v w => v = w ∧ v.Fits v.scalar := by
  refine .observe fun s t v hI h => ?_
  have hread := liftMemory_eq_ok.1 h
  exact ⟨v, liftMemory_eq_ok.2 (hI.1.memory.read (rel_mono hL hr) hread), rfl, hI.1.memory.conforms.read hread⟩

theorem allocate_mirrors (hr : L.rel n m) (sc : Scalar) (count : ℕ) :
    Mirrors (L.Tied M N) (allocate n sc count o) (allocate m sc count o') fun _ _ => True := by
  intro s t _ s' hI hx
  unfold allocate at hx ⊢
  split_ifs at hx ⊢
  · exact (fail_eq_ok.1 hx).elim
  · cases hx
    exact ⟨(), _, rfl, trivial,
      ⟨⟨hI.1.memory.insert (rel_mono hL hr) (Buffer.uniform_zeros sc count), hI.1.launched⟩, hI.1.vars⟩, hI.2⟩

end Link

end Machine

end GpuHistogram
