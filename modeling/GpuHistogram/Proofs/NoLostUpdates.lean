/-
No update is lost, however the steps of the threads are interleaved.

`Contention.no_lost_update`: at any time a lock is held by one thread at most, its cell says whether it is, and no thread
is stuck; and when all threads have finished, all locks are free and every bucket holds what it held, combined with the
values of its updates in some order, each once.
-/
import GpuHistogram.Proofs.ContendedLocks
import GpuHistogram.Proofs.Setting

namespace GpuHistogram

open Machine

namespace Contention

variable {κ : Type} {J : κ → Type} {X : Contention κ J} [Fintype κ]

/-- the code generated for an update is safe, by whichever method -/
theorem Regular.safe [DecidableEq κ] (hX : X.Regular) (i : X.Thread) (n : ℕ) :
    Safe i n .before (X.start.strands i) := by
  have hlen : (X.operator i.1).arrays.length = (X.operator i.1).op.dests.length := by
    rw [(hX.table i.1).length_eq, Operator.length_scalars]
  have hvalues : (X.job i.1 i.2).values.length = (X.operator i.1).op.dests.length := by
    rw [hX.length_values, Operator.length_scalars]
  have hsuits : (X.operator i.1).method.Suits (X.operator i.1).op (some X.table) := by
    rcases hX.method i.1 with ⟨sc, hm, hsc⟩ | ⟨hm, -⟩
    · rw [hm]
      exact hsc
    · rw [hm]
      rfl
  obtain ⟨u, k, hcode, hu⟩ := updateCode_spec _ hsuits (X.operator i.1).space (X.job i.1 i.2).addr hlen hvalues
    (X.job i.1 i.2).first
  obtain ⟨rfl, rfl⟩ : (X.job i.1 i.2).code = u ∧ (X.job i.1 i.2).last = k := by
    have h := (hX.code i.1 i.2).symm.trans hcode
    simpa using h
  have hnd {l : List Name} (hl : l.Nodup) (hin : ∀ m ∈ l, m.Within (X.job i.1 i.2).first (X.job i.1 i.2).last) :
      ((X.operator i.1).op.combiner.names ++ l).Nodup :=
    List.nodup_append.2 ⟨(hX.typed i.1).nodup, hl, fun m hm m' hm' he => hX.fresh i.1 i.2 m hm (he ▸ hin m' hm')⟩
  change Safe i n .before ⟨(X.job i.1 i.2).vars, [(X.job i.1 i.2).code]⟩
  generalize hmethod : (X.operator i.1).method = method at hu hsuits
  generalize hcode' : (X.job i.1 i.2).code = code at hu ⊢
  generalize hlast : (X.job i.1 i.2).last = last at hu hnd
  cases hu with
  | primitive =>
    rcases hX.method i.1 with ⟨sc, hm, -⟩ | ⟨hm, -⟩
    · rw [hmethod] at hm
      cases hm
    · rw [Locks, hmethod] at hm
      cases hm
  | @compareSwap sc target value ns hop hsc ht hv hns hin =>
    have hm : ¬X.Locks i.1 := fun hl => by
      rw [Locks, hmethod] at hl
      cases hl
    have hint : sc.isInteger = true := Operator.isInteger_of_swappable? hop (hX.discrete i.1 sc (by simp [hsc]))
    refine Safe.block ?_
    rw [List.append_nil]
    exact casLoop_safe hX hm hsc ht hv hint (hnd hns hin) fun w hw => .inl (hlast ▸ hin w hw)
  | @locked t ns hys hxs hns hin =>
    obtain rfl : X.table = t := Option.some.inj hsuits
    refine Safe.block ?_
    rw [List.append_nil]
    have hlength := hX.length_values i.1 i.2
    exact lockedUpdate_safe hX hmethod (hnd hns hin) (fun w hw => .inl (hlast ▸ hin w hw)) (hxs.trans hlength)
      (hys.trans hlength)

/-- each lock is held by one thread at most, and its cell says whether a thread holds it -/
structure Guarded (X : Contention κ J) (held : X.Thread → Option Int) (m : Memory) : Prop where
  exclusive : ∀ i i' k, held i = some k → held i' = some k → i = i'
  locked : ∀ k < X.locks, m.read X.table.name k = .ok (.int locked .i32) ↔ ∃ i, held i = some (k : Int)
  unlocked : ∀ k < X.locks, m.read X.table.name k = .ok (.int unlocked .i32) ↔ ¬∃ i, held i = some (k : Int)

/-- all locks are free, and every bucket holds what it held in the beginning, combined with the values of its updates in
some order, each once -/
structure Completed (X : Contention κ J) (m : Memory) : Prop where
  free : ∀ k < X.locks, m.read X.table.name k = .ok (.int unlocked .i32)
  buckets : ∀ p, ∃ T, m.Table (X.operator p).arrays (X.operator p).op.scalars (X.operator p).len T ∧
    ∀ a, ∃ order : List (J p), order.Nodup ∧ (∀ j, j ∈ order ↔ X.place ⟨p, j⟩ = a) ∧ T a = X.folded p a order

section Interleaved

variable {held : X.Thread → Option Int} {S : System X.Thread} {v : X.View} {phs : X.Phases} {log : X.Log}

omit [Fintype κ] in
theorem held_iff (hheld : ∀ i, held i = (phs i).held (X.lock i)) {i : X.Thread} {k : Int} :
    held i = some k ↔ (phs i).IsInside ∧ k = X.lock i := by
  rw [hheld]
  constructor
  · exact Phase.isInside_of_held
  · rintro ⟨hi, rfl⟩
    exact Phase.held_of_isInside hi

/-- what is in view says who holds the locks -/
theorem Consistent.guarded {m : Memory} (h : Consistent v phs log) (hv : X.Shows v m)
    (hheld : ∀ i, held i = (phs i).held (X.lock i)) : X.Guarded held m := by
  have htaken (k : ℕ) : v.taken k = true ↔ ∃ i, held i = some (k : Int) := by
    simp only [h.taken, held_iff hheld, Int.natCast_inj, eq_comm (a := k)]
  have hread {k : ℕ} (hk : k < X.locks) :
      m.read X.table.name k = .ok (.int (if v.taken k then locked else unlocked) .i32) :=
    (hv.locks (Nat.zero_lt_of_lt hk)).read_run hk
  refine ⟨fun i i' k hi hi' => ?_, fun k hk => ?_, fun k hk => ?_⟩
  · obtain ⟨hins, hl⟩ := (held_iff hheld).1 hi
    obtain ⟨hins', hl'⟩ := (held_iff hheld).1 hi'
    exact h.exclusive i i' hins hins' (Int.natCast_inj.1 (hl.symm.trans hl'))
  · rw [hread hk, ← htaken]
    cases v.taken k <;> decide
  · rw [hread hk, ← htaken]
    cases v.taken k <;> decide

/-- when all threads are after their updates, what is in view is complete -/
theorem Consistent.completed {m : Memory} (h : Consistent v phs log) (hv : X.Shows v m) (hend : ∀ i, phs i = .after) :
    X.Completed m := by
  have hout (i : X.Thread) : ¬(phs i).IsInside := by
    rw [hend]
    exact id
  refine ⟨fun k hk => ?_, fun p => ⟨v.tuples p, hv.table p, fun a => ⟨log p a, h.nodup p a, fun j => ?_, ?_⟩⟩⟩
  · have hfree : v.taken k = false := Bool.eq_false_iff.2 fun ht => by
      obtain ⟨i, hi, -⟩ := (h.taken k).1 ht
      exact hout i hi
    have hread := (hv.locks (Nat.zero_lt_of_lt hk)).read_run hk
    rwa [hfree] at hread
  · rw [h.logged, hend]
    exact and_iff_right rfl
  · exact h.settled p a fun j _ => hout _

/-- **No lost update.** In whatever order the threads take their steps, the cells of the locks say who holds them, no
thread is stuck, and when all threads have finished, all updates have been made, each once. -/
theorem no_lost_update [DecidableEq κ] (hX : X.Regular) (h : Interleaved X.context X.table.name X.start held S) :
    X.Guarded held S.memory ∧
    (∀ i, (S.strands i).code ≠ [] →
      ∃ rest t, advance (X.context i) (S.strands i).code (S.state i) = .ok rest t) ∧
    ((∀ i, (S.strands i).code = []) → X.Completed S.memory) := by
  obtain ⟨v, phs, log, hv, hcons, hheld, hsafe⟩ := consistent_of_interleaved hX.shows_first hX.safe h 1
  refine ⟨hcons.guarded hv hheld, fun i hi => ?_, fun hend => hcons.completed hv fun i => ?_⟩
  · obtain ⟨-, hnext⟩ := (hsafe i).resolve_left fun hend => hi hend.1
    obtain ⟨rest, t, -, -, hstep, -⟩ := hnext v S.memory hv (hcons.sees i)
    exact ⟨rest, t, hstep⟩
  · exact ((hsafe i).resolve_right fun hp => hp.1 (hend i)).2

end Interleaved

/-! ## A contest -/

namespace Contest

open Histogram (greaterTuple constantTuple)

/-- the locks of the contest: there is one -/
def table : LockTable := ⟨.plain "locks", .i64 1, .device⟩

/-- the greatest numbers, kept by comparing and swapping, and the greatest extents, kept under a lock -/
def operator : Bool → SharedOperator
  | false => {
    op := {
      width := 2
      shape := []
      bucketIndices := []
      combiner :=
        { params := [(.plain "a", .i64), (.plain "b", .i64)]
          body := []
          results := [.max (.ofName (.plain "a")) (.ofName (.plain "b"))] }
      neutral := [.i64 Word64.least]
      dests := [⟨.plain "greatest", .i64⟩] }
    method := .compareSwap .i64
    space := .device
    arrays := [.plain "greatest"]
    len := 2
    content := fun _ => constantTuple _ 0
    combine := greaterTuple }
  | true => {
    op := {
      width := 2
      shape := []
      bucketIndices := []
      combiner :=
        { params := [(.plain "a", .i64), (.plain "b", .i64), (.plain "c", .i64), (.plain "d", .i64)]
          body := []
          results := [.max (.ofName (.plain "a")) (.ofName (.plain "c")), .max (.ofName (.plain "b")) (.ofName (.plain "d"))] }
      neutral := [.i64 Word64.least, .i64 Word64.least]
      dests := [⟨.plain "width", .i64⟩, ⟨.plain "height", .i64⟩] }
    method := .locked table
    space := .device
    arrays := [.plain "width", .plain "height"]
    len := 2
    content := fun _ => constantTuple _ 0
    combine := greaterTuple }

/-- the code that combines `a` into the bucket `b` of an operator -/
def code (p : Bool) (a b : Int) : Option (Stmt × ℕ) :=
  (operator p).op.updateCode (operator p).method (operator p).space (operator p).arrays (.i64 b)
    ((operator p).op.scalars.map fun _ => .i64 a) 0

/-- three updates of two buckets -/
def job (p : Bool) (j : Fin 3) : Job (operator p).op.scalars :=
  let made := (code p j (j % 2 : ℕ)).get (by revert p j; decide +kernel)
  { context := { limits := {}, sizes := fun _ => none, loopLimit := 10 }
    vars := ∅
    addr := .i64 (j % 2 : ℕ)
    values := (operator p).op.scalars.map fun _ => .i64 j
    first := 0
    last := made.2
    code := made.1
    place := j % 2
    tuple := constantTuple _ j }

/-- all elements are zero and all locks are free -/
def memory : Memory where
  buffers := #[.ofValues .i64 [.word 0, .word 0], .ofValues .i64 [.word 0, .word 0], .ofValues .i64 [.word 0, .word 0],
    .ofValues .i32 [.int unlocked .i32]]
  names := ⟨[(.plain "greatest", 0), (.plain "width", 1), (.plain "height", 2), (.plain "locks", 3)]⟩

/-- six threads that update two buckets of two operators -/
def scene : Contention Bool fun _ => Fin 3 where
  operator := operator
  job := job
  table := table
  locks := 1
  memory := memory

theorem column_zero {n : Name} {p : ℕ} (hn : memory.names.get? n = some p)
    (hp : memory.buffers[p]? = some (.ofValues .i64 [.word 0, .word 0])) : memory.Column n .i64 2 fun _ => .word 0 := by
  refine ⟨p, _, ⟨hn, hp⟩, rfl, rfl, fun k hk => ?_⟩
  obtain rfl | rfl : k = 0 ∨ k = 1 := by omega
  · rfl
  · rfl

theorem apart_of_ne {m : Memory} {W : List Name} {n : Name} (h : ∀ w ∈ W, m.names.get? w ≠ m.names.get? n) : m.Apart W n :=
  fun w hw _ hp hp' => h w hw (hp'.trans hp.symm)

/-- literals stand for the tuple of their value -/
theorem literals_eval {c : Context} {s : State} {a : Int} (ha : Word64.fits a = true) {ss : List Scalar}
    (hss : ∀ sc ∈ ss, sc = .i64) : AllEval .plain c s (ss.map fun _ => .i64 a) (constantTuple ss a).cells := by
  intro k e v he hv
  rw [List.getElem?_map, Option.map_eq_some_iff] at he
  obtain ⟨sc, hk, rfl⟩ := he
  obtain rfl := hss sc (List.mem_of_getElem? hk)
  have hv' : Value.ofInt a .i64 = v := by
    rw [constantTuple, List.getElem?_map, hk] at hv
    exact Option.some.inj hv
  rw [← hv', Value.ofInt_i64 ha]
  exact (Computes.literal ha).evals

theorem exists_words (x : Tuple [.i64, .i64]) :
    ∃ a b, x.cells = [.word a, .word b] ∧ Word64.fits a = true ∧ Word64.fits b = true := by
  obtain ⟨v, w, hx⟩ := List.length_eq_two.1 x.length_eq
  have hv : v.Fits .i64 := x.fits 0 .i64 v rfl (by rw [hx]; rfl)
  have hw : w.Fits .i64 := x.fits 1 .i64 w rfl (by rw [hx]; rfl)
  obtain ⟨a, rfl, ha⟩ := hv.of_isInteger rfl
  obtain ⟨b, rfl, hb⟩ := hw.of_isInteger rfl
  exact ⟨a, b, hx, Histogram.fits_of_wrap ha, Histogram.fits_of_wrap hb⟩

theorem yields_greatest {c : Context} {s : State} :
    (operator false).op.combiner.Yields .plain c s (operator false).combine := by
  intro x y hxy
  obtain ⟨a, hx, ha⟩ := Histogram.exists_word x
  obtain ⟨b, hy, hb⟩ := Histogram.exists_word y
  rw [hx, hy] at hxy
  have hcells : ((operator false).combine x y).cells = [.word (max a b)] := by
    simp only [operator, greaterTuple, hx, hy, List.zipWith_cons_cons, List.zipWith_nil_left, Histogram.greater]
  rw [hcells]
  exact Histogram.allEval_single (Computes.max (.ofName (hxy 0 _ _ rfl rfl) (Histogram.fits_of_wrap ha))
    (.ofName (hxy 1 _ _ rfl rfl) (Histogram.fits_of_wrap hb))).evals

theorem yields_extent {c : Context} {s : State} :
    (operator true).op.combiner.Yields .plain c s (operator true).combine := by
  intro x y hxy
  obtain ⟨a, b, hx, ha, hb⟩ := exists_words x
  obtain ⟨d, e, hy, hd, he⟩ := exists_words y
  rw [hx, hy] at hxy
  have hcells : ((operator true).combine x y).cells = [.word (max a d), .word (max b e)] := by
    simp only [operator, greaterTuple, hx, hy, List.zipWith_cons_cons, List.zipWith_nil_left, Histogram.greater]
  rw [hcells]
  intro k r v hr hv
  rcases k with _ | _ | k
  · cases hr
    cases hv
    exact (Computes.max (.ofName (hxy 0 _ _ rfl rfl) ha) (.ofName (hxy 2 _ _ rfl rfl) hd)).evals
  · cases hr
    cases hv
    exact (Computes.max (.ofName (hxy 1 _ _ rfl rfl) hb) (.ofName (hxy 3 _ _ rfl rfl) he)).evals
  · cases hr

theorem scene_regular : scene.Regular where
  table := by
    rintro (_ | _)
    · refine ⟨rfl, fun k n sc hn hsc => ?_, List.pairwise_singleton _ _⟩
      rcases k with _ | k
      · cases hn
        cases hsc
        exact column_zero rfl rfl
      · cases hn
    · refine ⟨rfl, fun k n sc hn hsc => ?_, ?_⟩
      · rcases k with _ | _ | k
        · cases hn
          cases hsc
          exact column_zero rfl rfl
        · cases hn
          cases hsc
          exact column_zero rfl rfl
        · cases hn
      · exact List.pairwise_cons.2 ⟨fun n hn => apart_of_ne (by decide) n hn, List.pairwise_singleton _ _⟩
  discrete := by decide
  apart := by
    intro p q hpq n hn
    refine apart_of_ne ?_
    revert p q n
    decide
  method := by
    rintro (_ | _)
    · exact .inl ⟨.i64, rfl, rfl⟩
    · exact .inr ⟨rfl, Nat.one_pos⟩
  free := by
    intro _
    refine ⟨3, .ofValues .i32 [.int unlocked .i32], ⟨rfl, rfl⟩, rfl, rfl, fun k hk => ?_⟩
    obtain rfl : k = 0 := Nat.lt_one_iff.1 hk
    rfl
  unaliased p := by
    refine apart_of_ne ?_
    revert p
    decide
  named := by decide
  typed := by
    rintro (_ | _)
    · exact ⟨rfl, rfl, rfl, by decide⟩
    · exact ⟨rfl, rfl, rfl, by decide⟩
  yields := by
    rintro ⟨_ | _, j⟩ s -
    · exact yields_greatest
    · exact yields_extent
  code p j := (Option.some_get (x := code p j (j % 2 : ℕ)) _).symm
  fresh p j n hn hw := by
    obtain ⟨k, hk, -⟩ := hw
    have hplain : ∀ p, ∀ n ∈ (operator p).op.combiner.names, n.symbol = none := by decide
    rw [hplain p n hn] at hk
    cases hk
  inRange i := by
    obtain ⟨_ | _, j⟩ := i
    · exact Nat.mod_lt _ Nat.two_pos
    · exact Nat.mod_lt _ Nat.two_pos
  addr i s _ := .literal (Word64.fits_le (b := 2) (by decide) (Nat.mod_lt _ Nat.two_pos).le)
  length_values p j := List.length_map ..
  ty_values p j k e sc he hsc := by
    have hi64 : ∀ p, ∀ sc ∈ (operator p).op.scalars, sc = .i64 := by decide
    change ((operator p).op.scalars.map fun _ => Expr.i64 j)[k]? = some e at he
    obtain rfl := hi64 p sc (List.mem_of_getElem? hsc)
    rw [List.getElem?_map, Option.map_eq_some_iff] at he
    obtain ⟨_, -, rfl⟩ := he
    rfl
  values i s _ := literals_eval (Word64.fits_le (b := 3) (by decide) i.2.isLt.le) (by
    have hi64 : ∀ p, ∀ sc ∈ (operator p).op.scalars, sc = .i64 := by decide
    exact hi64 i.1)
  count i s _ _ := .literal (by decide)

/-- every thread in turn, for so many rounds -/
def rounds (k : ℕ) : List scene.Thread :=
  (List.replicate k [⟨true, 0⟩, ⟨false, 0⟩, ⟨true, 1⟩, ⟨false, 1⟩, ⟨true, 2⟩, ⟨false, 2⟩]).flatten

end Contest

/-- after sixty rounds all threads of the contest have finished -/
theorem no_lost_update_contest : ∃ held S, Interleaved Contest.scene.context Contest.scene.table.name Contest.scene.start held S ∧
    (∀ i, (S.strands i).code = []) ∧ Contest.scene.Guarded held S.memory ∧ Contest.scene.Completed S.memory := by
  have hstart : Interleaved Contest.scene.context Contest.scene.table.name Contest.scene.start (fun _ => none)
      Contest.scene.start := .start
  obtain ⟨held, h⟩ := hstart.play (Contest.rounds 60)
  have hend : ∀ i, ((Contest.scene.start.play Contest.scene.context (Contest.rounds 60)).strands i).code = [] := by
    have hempty : ∀ i, ((Contest.scene.start.play Contest.scene.context (Contest.rounds 60)).strands i).code.isEmpty = true := by
      rintro ⟨p, j⟩
      revert p j
      decide +kernel
    exact fun i => List.isEmpty_iff.1 (hempty i)
  obtain ⟨hguarded, -, hcompleted⟩ := no_lost_update Contest.scene_regular h
  exact ⟨held, _, h, hend, hguarded, hcompleted hend⟩

end Contention

end GpuHistogram
