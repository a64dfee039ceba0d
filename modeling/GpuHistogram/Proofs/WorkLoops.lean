/-
Loops over work. The threads of a launch share out the numbers below a bound, and each goes through its share in rounds: it
has one number in every round, and does nothing if that is not below the bound. Either every thread has a block of numbers
that follow each other, or the numbers are dealt to the threads in turn.

Model: a `Schedule` says which item a thread has in which round. `Partitions` is that every item below a bound belongs to
exactly one thread and one round; `Obeys` that code does its work for the items of a thread, in their order, and for
nothing else.

Results:
- `blocks_partitions`, `turns_partitions`: both ways to share out items give each of them to one thread, in one round;
- `workLoop_obeys`: a loop obeys the schedule that its rounds and its item are computed from; `blockLoop_obeys` and
  `turnLoop_obeys` are the two ways.
-/
import GpuHistogram.Proofs.Layout

namespace GpuHistogram

/-! ## Quotients rounded up -/

theorem ceilDiv_pos {a b : ℕ} (ha : 0 < a) (hb : 0 < b) : 0 < (a + b - 1) / b :=
  Nat.div_pos (by omega) hb

/-- rounding up covers all -/
theorem le_ceilDiv_mul (a : ℕ) {b : ℕ} (hb : 0 < b) : a ≤ (a + b - 1) / b * b := by
  have h := Nat.div_add_mod (a + b - 1) b
  have hlt := Nat.mod_lt (a + b - 1) hb
  rw [mul_comm] at h
  omega

/-! ## Schedules -/

/-- which item a thread has in which round -/
structure Schedule where
  rounds : ℕ
  item : (thread round : ℕ) → ℕ

namespace Schedule

/-- `N` items in blocks, one for each of `T` threads -/
def blocks (N T : ℕ) : Schedule := ⟨(N + T - 1) / T, fun t k => t * ((N + T - 1) / T) + k⟩

/-- `N` items dealt to `T` threads in turn -/
def turns (N T : ℕ) : Schedule := ⟨(N + T - 1) / T, fun t k => k * T + t⟩

/-- every item belongs to exactly one thread and one round -/
def Partitions (d : Schedule) (N T : ℕ) : Prop :=
  ∀ e < N, ∃! x : ℕ × ℕ, x.1 < T ∧ x.2 < d.rounds ∧ d.item x.1 x.2 = e

variable {N T t k : ℕ}

theorem blocks_partitions (hT : 0 < T) : (blocks N T).Partitions N T := by
  intro e he
  have hC : 0 < (N + T - 1) / T := ceilDiv_pos (Nat.zero_lt_of_lt he) hT
  have hcover : e < (N + T - 1) / T * T := he.trans_le (le_ceilDiv_mul N hT)
  refine ⟨(e / ((N + T - 1) / T), e % ((N + T - 1) / T)), ⟨Nat.div_lt_of_lt_mul hcover, Nat.mod_lt _ hC, ?_⟩, ?_⟩
  · exact Nat.div_add_mod' e _
  · rintro ⟨t, k⟩ ⟨-, hk, hitem⟩
    have hsplit : k + (N + T - 1) / T * t = e := by rw [Nat.add_comm, Nat.mul_comm]; exact hitem
    obtain ⟨hdiv, hmod⟩ := (Nat.div_mod_unique hC).2 ⟨hsplit, hk⟩
    rw [hdiv, hmod]

theorem turns_partitions (hT : 0 < T) : (turns N T).Partitions N T := by
  intro e he
  have hcover : e < T * ((N + T - 1) / T) := by
    rw [Nat.mul_comm]
    exact he.trans_le (le_ceilDiv_mul N hT)
  refine ⟨(e % T, e / T), ⟨Nat.mod_lt _ hT, Nat.div_lt_of_lt_mul hcover, Nat.div_add_mod' e T⟩, ?_⟩
  rintro ⟨t, k⟩ ⟨ht, -, hitem⟩
  have hsplit : t + T * k = e := by rw [Nat.add_comm, Nat.mul_comm]; exact hitem
  obtain ⟨hdiv, hmod⟩ := (Nat.div_mod_unique hT).2 ⟨hsplit, ht⟩
  rw [hdiv, hmod]

/-- no thread looks further than one round beyond the items -/
theorem blocks_lt (ht : t < T) (hk : k < (blocks N T).rounds) : (blocks N T).item t k < N + T := by
  have hrounds : (N + T - 1) / T * T ≤ N + T - 1 := Nat.div_mul_le_self _ _
  calc t * ((N + T - 1) / T) + k < (t + 1) * ((N + T - 1) / T) := by rw [Nat.succ_mul]; exact Nat.add_lt_add_left hk _
    _ ≤ T * ((N + T - 1) / T) := Nat.mul_le_mul_right _ ht
    _ < N + T := by rw [Nat.mul_comm]; omega

theorem turns_lt (ht : t < T) (hk : k < (turns N T).rounds) : (turns N T).item t k < N + T := by
  have hrounds : (N + T - 1) / T * T ≤ N + T - 1 := Nat.div_mul_le_self _ _
  calc k * T + t < (k + 1) * T := by rw [Nat.succ_mul]; exact Nat.add_lt_add_left ht _
    _ ≤ (N + T - 1) / T * T := Nat.mul_le_mul_right _ hk
    _ < N + T := by omega

theorem rounds_lt (N : ℕ) (hT : 0 < T) : (N + T - 1) / T < N + T := by
  have h := Nat.div_le_self (N + T - 1) T
  omega

end Schedule

namespace Machine

variable {f : Form} {L : LaunchSpec → List Stmt → Exec Unit} {c : Context} {s u : State}

/-- a 64-bit expression has a value as long as the statements run -/
def Throughout (f : Form) (c : Context) (l : List Stmt) (s : State) (e : Expr) (a : ℕ) : Prop :=
  ∀ u, Keeps (blockSets l) (blockStores l) s u → Computes f c u e a

/-- The statements `l` run `body` for the items of the thread `t` below `N`, in their order, with the item in `x`: where
`body` takes an invariant from its round to the next, and rounds without an item keep it, `l` takes it from the first to
the last. `P` is what else is known where `body` starts. -/
def Obeys (d : Schedule) (N t : ℕ) (f : Form) (L : LaunchSpec → List Stmt → Exec Unit) (c : Context) (l : List Stmt)
    (x : Name) (body : List Stmt) (P : State → Prop) (s : State) : Prop :=
  ∀ I : ℕ → Memory → Prop, I 0 s.memory →
    (∀ k < d.rounds, d.item t k < N → ∀ u, P u → Keeps (blockSets l) (blockStores l) s u →
      u.vars.get? x = some (.word (d.item t k)) → I k u.memory → Runs f L c body u fun v => I (k + 1) v.memory) →
    (∀ k < d.rounds, N ≤ d.item t k → ∀ m, I k m → I (k + 1) m) →
    Runs f L c l s fun v => I d.rounds v.memory

/-! ## One loop -/

theorem Throughout.later {l l' : List Stmt} {e : Expr} {a : ℕ} (h : Throughout f c (l ++ l') s e a)
    (hk : Keeps (blockSets (l ++ l')) (blockStores (l ++ l')) s u) : Throughout f c l' u e a := by
  intro v hv
  refine h v (hk.trans (hv.mono ?_ ?_)) <;> simp only [blockSets, blockStores, blockUses_append] <;>
    exact List.subset_append_right _ _

section Obeys

variable {d : Schedule} {N t : ℕ} {x : Name} {l l' body : List Stmt} {P : State → Prop}

/-- what the loop leaves alone is known in every round -/
theorem Obeys.imp (h : Obeys d N t f L c l x body (fun _ => True) s)
    (hP : ∀ u, Keeps (blockSets l) (blockStores l) s u → P u) : Obeys d N t f L c l x body P s :=
  fun I hI hbody hskip => h I hI (fun k hk hlt u _ hu => hbody k hk hlt u (hP u hu) hu) hskip

/-- statements before the loop -/
theorem Obeys.append (h : Runs f L c l s fun u => u.memory = s.memory ∧
    Keeps (blockSets (l ++ l')) (blockStores (l ++ l')) s u ∧ Obeys d N t f L c l' x body P u) :
    Obeys d N t f L c (l ++ l') x body P s := by
  intro I hI hbody hskip
  refine Runs.append (h.mono ?_)
  rintro u ⟨hm, hk, hf⟩
  refine hf I (hm ▸ hI) (fun k hkd hlt v hP hv => hbody k hkd hlt v hP (hk.trans (hv.mono ?_ ?_))) hskip <;>
    simp only [blockSets, blockStores, blockUses_append] <;> exact List.subset_append_right _ _

end Obeys

/-- a loop in which a thread has an item in every round, and does something with it if it is below the size -/
def workLoop (k x : Name) (rounds item size : Expr) (body : List Stmt) : Stmt :=
  .count k 0 rounds [.bind x item, .ifThen ((Expr.ofName x).lt size) body]

/-- a loop of a thread over its block -/
def blockLoop (k x : Name) (thread chunk size : Expr) (body : List Stmt) : Stmt :=
  workLoop k x chunk (thread * chunk + .ofName k) size body

/-- a loop of a thread over what is dealt to it -/
def turnLoop (k x : Name) (thread threads size : Expr) (body : List Stmt) : Stmt :=
  workLoop k x (size.ceilDiv threads) (.ofName k * threads + thread) size body

section Loop

variable {k x : Name} {rounds item size thread threads chunk : Expr} {body : List Stmt} {N T t : ℕ}

theorem sets_workLoop {m : Name} :
    m ∈ blockSets [workLoop k x rounds item size body] ↔ m = k ∨ m = x ∨ m ∈ blockSets body := by
  simp [workLoop, blockSets, Stmt.count, Stmt.countBy, Stmt.bind, Stmt.ifThen, Stmt.uses, Use.among]

theorem stores_workLoop (k x : Name) (rounds item size : Expr) (body : List Stmt) :
    blockStores [workLoop k x rounds item size body] = blockStores body := by
  simp [workLoop, blockStores, Stmt.count, Stmt.countBy, Stmt.bind, Stmt.ifThen, Stmt.uses, Use.among]

/-- **The rounds of a loop.** In each the thread works on its item, if there is one. -/
theorem workLoop_obeys {d : Schedule} (hc : c.thread.isSome = true) (hlim : d.rounds ≤ c.rounds)
    (hrounds : Throughout f c [workLoop k x rounds item size body] s rounds d.rounds)
    (hsize : Throughout f c [workLoop k x rounds item size body] s size N)
    (hitem : ∀ i < d.rounds, ∀ u, Keeps (blockSets [workLoop k x rounds item size body])
      (blockStores [workLoop k x rounds item size body]) s u → u.vars.get? k = some (.word i) →
      Computes f c u item (d.item t i))
    (hkx : k ≠ x) (hkb : k ∉ blockSets body) :
    Obeys d N t f L c [workLoop k x rounds item size body] x body (fun _ => True) s := by
  intro I hI hbody hskip
  have hsets {m : Name} (hm : m ∈ blockSets [.bind x item, .ifThen ((Expr.ofName x).lt size) body]) :
      m = x ∨ m ∈ blockSets body := by
    simpa [blockSets, Stmt.bind, Stmt.ifThen, Stmt.uses, Use.among] using hm
  have hstores : blockStores [.bind x item, .ifThen ((Expr.ofName x).lt size) body] =
      blockStores [workLoop k x rounds item size body] := by
    rw [stores_workLoop]
    simp [blockStores, Stmt.bind, Stmt.ifThen, Stmt.uses, Use.among]
  have hk : k ∈ blockSets [workLoop k x rounds item size body] := sets_workLoop.2 (.inl rfl)
  have hx : x ∈ blockSets [workLoop k x rounds item size body] := sets_workLoop.2 (.inr (.inl rfl))
  unfold workLoop
  refine Runs.count (fun i u => I i u.memory ∧ Keeps (blockSets [workLoop k x rounds item size body])
    (blockStores [workLoop k x rounds item size body]) s u) .zero (Nat.zero_le _) (by simpa using hlim)
    (fun i u _ _ hI _ => hrounds u hI.2) (fun i u _ hi hI hku => ?_) ⟨hI, .set hk _⟩ fun u hI => hI.1
  have hround : Runs f L c [.bind x item, .ifThen ((Expr.ofName x).lt size) body] u fun v => I (i + 1) v.memory := by
    have hplace := hitem i hi u hI.2 hku
    refine Runs.bindWord hplace ?_
    have hset := hI.2.trans (.set hx (.word (d.item t i)))
    have hxu : (u.set x (.word (d.item t i))).vars.get? x = some (.word (d.item t i)) := by
      rw [State.get?_set, if_pos rfl]
    refine Runs.ifThen (Evals.lt (.ofName hxu hplace.fits) (hsize _ hset)) (fun hlt => ?_) fun hge => ?_
    · exact hbody i hi (Int.ofNat_lt.1 (of_decide_eq_true hlt)) _ trivial hset hxu hI.1
    · exact hskip i hi (Nat.le_of_not_lt fun h => of_decide_eq_false hge (Int.ofNat_lt.2 h)) _ hI.1
  refine (hround.keeps hc).mono ?_
  rintro v ⟨hv, hkv⟩
  have hkept : v.vars.get? k = u.vars.get? k := hkv.vars k fun hm => (hsets hm).elim hkx hkb
  have hwhole := hI.2.trans (hkv.mono (fun m hm => sets_workLoop.2 (.inr (hsets hm))) (hstores ▸ List.Subset.refl _))
  exact ⟨hkept.trans hku, hv, hwhole.trans (.set hk _)⟩

theorem fits_of_lt {a b : ℕ} (h : a < b) (hb : b ≤ 2 ^ 63) : Word64.fits (a : ℕ) = true := by
  rw [Word64.fits_iff]
  omega

/-- a variable that the loop does not set -/
theorem Throughout.ofName {m : Name} {a : ℕ} (hm : s.vars.get? m = some (.word a)) (hfit : Word64.fits (a : ℕ) = true)
    (hk : m ≠ k ∧ m ≠ x ∧ m ∉ blockSets body) :
    Throughout f c [workLoop k x rounds item size body] s (.ofName m) a := by
  intro u hu
  refine .ofName ((hu.vars m fun hset => ?_).trans hm) hfit
  exact (sets_workLoop.1 hset).elim hk.1 fun hset => hset.elim hk.2.1 hk.2.2

theorem blockLoop_obeys (ht : t < T) (hfit : N + T ≤ 2 ^ 63) (hc : c.thread.isSome = true)
    (hlim : (Schedule.blocks N T).rounds ≤ c.rounds)
    (hthread : Throughout f c [blockLoop k x thread chunk size body] s thread t)
    (hchunk : Throughout f c [blockLoop k x thread chunk size body] s chunk (Schedule.blocks N T).rounds)
    (hsize : Throughout f c [blockLoop k x thread chunk size body] s size N)
    (hkx : k ≠ x) (hkb : k ∉ blockSets body) :
    Obeys (.blocks N T) N t f L c [blockLoop k x thread chunk size body] x body (fun _ => True) s := by
  refine workLoop_obeys hc hlim hchunk hsize (fun i hi u hu hku => ?_) hkx hkb
  have hplace : Word64.fits (t * ((N + T - 1) / T) + i : ℕ) = true := fits_of_lt (Schedule.blocks_lt ht hi) hfit
  have hround : Computes f c u (.ofName k) i := .ofName hku (Word64.fits_le hplace (Nat.le_add_left _ _))
  exact ((hthread u hu).mulNat (hchunk u hu) (Word64.fits_le hplace (Nat.le_add_right _ _))).addNat hround hplace

theorem turnLoop_obeys (ht : t < T) (hfit : N + T ≤ 2 ^ 63) (hc : c.thread.isSome = true)
    (hlim : (Schedule.turns N T).rounds ≤ c.rounds)
    (hthread : Throughout f c [turnLoop k x thread threads size body] s thread t)
    (hthreads : Throughout f c [turnLoop k x thread threads size body] s threads T)
    (hsize : Throughout f c [turnLoop k x thread threads size body] s size N)
    (hkx : k ≠ x) (hkb : k ∉ blockSets body) :
    Obeys (.turns N T) N t f L c [turnLoop k x thread threads size body] x body (fun _ => True) s := by
  have hT : 0 < T := Nat.zero_lt_of_lt ht
  refine workLoop_obeys hc hlim (fun u hu => (hsize u hu).ceilDiv_wide (hthreads u hu) hT hfit) hsize
    (fun i hi u hu hku => ?_) hkx hkb
  have hplace : Word64.fits (i * T + t : ℕ) = true := fits_of_lt (Schedule.turns_lt ht hi) hfit
  have hround : Computes f c u (.ofName k) i := .ofName hku (fits_of_lt (hi.trans (Schedule.rounds_lt N hT)) hfit)
  exact (hround.mulNat (hthreads u hu) (Word64.fits_le hplace (Nat.le_add_right _ _))).addNat (hthread u hu) hplace

end Loop

end Machine

end GpuHistogram
