/-
Updates under a lock while other threads update, too. The lock is taken if its cell is found unlocked (`Safe.takeLock`);
as long as the thread holds it, the tuple is the one that it has left there, so the tuple is read and written as if there
were no other threads (`Safe.writes`, `criticalSection_safe`), and with the exchange that gives the lock back
(`Safe.giveLock`) the update is made. If the cell is found locked nothing has happened, and the loop goes on.
-/
import GpuHistogram.Proofs.ContendedSwaps

namespace GpuHistogram

open Machine

namespace Contention

variable {κ : Type} {J : κ → Type} {X : Contention κ J} [Fintype κ] {i : X.Thread} {n : ℕ} {vars : Bindings Value}
  {rest : List Stmt}

/-! ## Updating under a lock -/

section Locked

variable {ns : LockNames} {old now x : X.TupleOf i.1}

theorem Regular.locks_pos (hX : X.Regular) {p : κ} (hm : X.Locks p) : 0 < X.locks := by
  rcases hX.method p with ⟨sc, hsc, -⟩ | ⟨-, hpos⟩
  · rw [Locks, hsc] at hm
    cases hm
  · exact hpos

variable [DecidableEq κ]

/-- an element of the tuple is stored under the lock -/
theorem Safe.storeElement (hX : X.Regular) {k : ℕ} {w : Name} {sc : Scalar} {sp : Space} {idx e : Expr} {x : Value}
    (hw : (X.operator i.1).arrays[k]? = some w) (hsc : (X.operator i.1).op.scalars[k]? = some sc) (hx : x.Fits sc)
    (hidx : ∀ s, Meets i (.inside old now) vars s → Computes .plain (X.context i) s idx (X.place i))
    (he : ∀ s, Meets i (.inside old now) vars s → Evals .plain (X.context i) s e x)
    (h : Safe i n (.inside old (now.put x hsc hx)) ⟨vars, rest⟩) :
    Safe i n (.inside old now) ⟨vars, .store (.element w sc sp idx) e :: rest⟩ := by
  refine Proceeds.safe ⟨List.cons_ne_nil _ _, fun v m hv hs => ?_⟩
  set s : State := { vars := vars, memory := m }
  have hmeets : Meets i (.inside old now) vars s := ⟨rfl, v, hv, hs⟩
  have hnow : v.tuples i.1 (X.place i) = now := (hs old now rfl).1
  obtain ⟨m', hm', hshows⟩ := hv.put hX hw hsc (hX.inRange i) hx
  have hcomputes := hidx s hmeets
  have hexec : exec noLaunch (X.context i) (.store (.element w sc sp idx) e) s = .ok () { s with memory := m' } :=
    exec_of_runs (Runs.storeElement (he s hmeets) hcomputes.evals (Value.toInt64_word hcomputes.fits) hm' (Runs.nil rfl))
  rw [hnow] at hshows
  exact ⟨rest, _, _, _, advance_simple rfl hexec, hshows, .write _, rfl, h⟩

/-- the tuple is replaced under the lock, one element after the other -/
theorem Safe.writes (hX : X.Regular) {α : Type} (array : α → Name) (sc : α → Scalar) (e : α → Expr) {sp : Space}
    {idx : Expr} {r : X.TupleOf i.1} {l : List α} {k : ℕ} (hlen : k + l.length = (X.operator i.1).op.scalars.length)
    (harr : ∀ j a, l[j]? = some a → (X.operator i.1).arrays[k + j]? = some (array a))
    (hsc : ∀ j a, l[j]? = some a → (X.operator i.1).op.scalars[k + j]? = some (sc a))
    (hnow : ∀ j < k, now.cell j = r.cell j)
    (hidx : ∀ ph s, Meets i ph vars s → Computes .plain (X.context i) s idx (X.place i))
    (he : ∀ ph s, Meets i ph vars s → ∀ j a, l[j]? = some a → Evals .plain (X.context i) s (e a) (r.cell (k + j)))
    (h : Safe i n (.inside old r) ⟨vars, rest⟩) :
    Safe i n (.inside old now) ⟨vars, l.map (fun a => .store (.element (array a) (sc a) sp idx) (e a)) ++ rest⟩ := by
  induction l generalizing k now with
  | nil =>
    obtain rfl : now = r := Tuple.ext_cell fun j hj => hnow j (by simpa [← hlen] using hj)
    exact h
  | cons a l ih =>
    have hsca : (X.operator i.1).op.scalars[k]? = some (sc a) := hsc 0 a rfl
    have hassoc (j : ℕ) : k + 1 + j = k + (j + 1) := by omega
    refine Safe.storeElement hX (harr 0 a rfl) hsca (r.fits_cell hsca) (hidx _) (fun s hs => he _ s hs 0 a rfl) ?_
    refine ih (k := k + 1) (by simp only [List.length_cons] at hlen; omega) (fun j b hb => ?_) (fun j b hb => ?_)
      (fun j hj => ?_) fun ph s hs j b hb => ?_
    · rw [hassoc]
      exact harr (j + 1) b hb
    · rw [hassoc]
      exact hsc (j + 1) b hb
    · rw [Tuple.cell_put]
      split_ifs with hjk
      · exact congrArg r.cell hjk.symm
      · exact hnow j (by omega)
    · rw [hassoc]
      exact he ph s hs (j + 1) b hb

/-- an attempt to take the lock -/
theorem Safe.takeLock (hX : X.Regular) (hm : X.Locks i.1) {prev lock : Name}
    (hlock : vars.get? lock = some (.word (X.lock i))) (hfit : Word64.fits (X.lock i : Int) = true)
    (htaken : ∀ x, Safe i n (.inside x x) ⟨vars.set prev (.int unlocked .u32), rest⟩)
    (hbusy : Safe i n .before ⟨vars.set prev (.int locked .u32), rest⟩) :
    Safe i n .before ⟨vars, .compareSwap prev X.table.space .i32 X.table.name (.ofName lock)
      (.literal unlocked Scalar.i32.bitPattern) (.literal locked Scalar.i32.bitPattern) .unknown :: rest⟩ := by
  have hlt : X.lock i < X.locks := Nat.mod_lt _ (hX.locks_pos hm)
  refine Proceeds.safe ⟨List.cons_ne_nil _ _, fun v m hv _ => ?_⟩
  set s : State := { vars := vars, memory := m }
  have hidx : Evals .plain (X.context i) s (.ofName lock) (.word (X.lock i)) := (Computes.ofName hlock hfit).evals
  have hk := Value.toInt64_word hfit
  have hcmp : Evals .plain (X.context i) s (.literal unlocked Scalar.i32.bitPattern) _ := Evals.literal _ _
  have hnew : Evals .plain (X.context i) s (.literal locked Scalar.i32.bitPattern) _ := Evals.literal _ _
  have hread : s.memory.read X.table.name (X.lock i) = .ok _ := (hv.locks (hX.locks_pos hm)).read_run hlt
  have hheld : heldAfter (X.context i) X.table.name s none (.compareSwap prev X.table.space .i32 X.table.name
      (.ofName lock) (.literal unlocked Scalar.i32.bitPattern) (.literal locked Scalar.i32.bitPattern) .unknown :: rest) =
      (swapped? (X.context i) s .i32 X.table.name (.ofName lock) (.literal unlocked Scalar.i32.bitPattern)).or none :=
    if_pos rfl
  rw [swapped?_eq hidx hk hcmp hread] at hheld
  cases hfree : v.taken (X.lock i) with
  | false =>
    rw [hfree] at hread hheld
    obtain ⟨m', hm', hshows⟩ := hv.turn hX hlt true
    rw [hfree] at hm'
    exact ⟨rest, _, _, _, advance_simple rfl (exec_of_runs (Runs.compareSwap hidx hk hcmp hnew hread rfl hm' (Runs.nil rfl))),
      hshows, .take hm hfree, hheld, htaken _⟩
  | true =>
    rw [hfree] at hread hheld
    exact ⟨rest, _, v, .before, advance_simple rfl (exec_compareSwap_found hidx hk hcmp hnew hread (by decide)), hv, .idle,
      hheld, hbusy⟩

/-- the lock is given back when the tuple has been combined with the values -/
theorem Safe.giveLock (hX : X.Regular) (hm : X.Locks i.1) {lock : Name}
    (hlock : vars.get? lock = some (.word (X.lock i))) (hfit : Word64.fits (X.lock i : Int) = true)
    (hnow : now = X.combine old (X.tuple i)) (h : Safe i n .after ⟨vars, rest⟩) :
    Safe i n (.inside old now) ⟨vars, .atomic .xchg X.table.space .i32 X.table.name (.ofName lock)
      (.literal unlocked .i32) none .unknown :: rest⟩ := by
  have hlt : X.lock i < X.locks := Nat.mod_lt _ (hX.locks_pos hm)
  refine Proceeds.safe ⟨List.cons_ne_nil _ _, fun v m hv _ => ?_⟩
  set s : State := { vars := vars, memory := m }
  have hidx : Evals .plain (X.context i) s (.ofName lock) (.word (X.lock i)) := (Computes.ofName hlock hfit).evals
  have hk := Value.toInt64_word hfit
  have hread : s.memory.read X.table.name (X.lock i) = .ok _ := (hv.locks (hX.locks_pos hm)).read_run hlt
  obtain ⟨m', hm', hshows⟩ := hv.turn hX hlt false
  have hheld : (evalInt (X.context i) s (.ofName lock)).toOption = some (X.lock i : Int) := by
    rw [evalInt, show eval (X.context i) s (.ofName lock) = .ok (.word (X.lock i)) from hidx]
    exact congrArg some hk
  exact ⟨rest, _, _, _, advance_simple rfl (exec_of_runs (Runs.atomic hidx hk (Evals.literal unlocked .i32) hread rfl hm'
    (Runs.nil rfl))), hshows, .give hnow, if_pos ⟨rfl, hheld⟩, h⟩

/-- what the variables hold before an attempt: the bucket, its lock and the values -/
structure LockReady (i : X.Thread) (ns : LockNames) (vars : Bindings Value) : Prop where
  knows : X.Knows i vars
  idx : vars.get? ns.idx = some (.word (X.place i))
  lock : vars.get? ns.lock = some (.word (X.lock i))
  ys : Holds { vars := vars } ns.ys (X.tuple i).cells

/-- under the lock the tuple is combined with the values, and then the lock is given back -/
theorem criticalSection_safe (hX : X.Regular) (hm : X.Locks i.1)
    (hnd : ((X.operator i.1).op.combiner.names ++ ns.all).Nodup) (hown : ∀ w ∈ ns.all, X.Own i w)
    (hxs : ns.xs.length = (X.operator i.1).op.scalars.length) (hys : ns.ys.length = (X.operator i.1).op.scalars.length)
    (hfit : Word64.fits (X.lock i : Int) = true) (hvars : LockReady i ns vars)
    (hend : ∀ vars', vars'.get? ns.done = some (.bool true) → Safe i n .after ⟨vars', rest⟩) :
    Safe i n (.inside x x) ⟨vars, criticalSection ns X.table (X.operator i.1).space (X.operator i.1).op
      (X.operator i.1).arrays ++ rest⟩ := by
  have hK : (X.operator i.1).arrays.length = (X.operator i.1).op.scalars.length := (hX.table i.1).length_eq
  have hall : ns.all.Nodup := hnd.of_append_right
  have hxin : ns.xs ⊆ ns.all := by
    intro w hw
    simp [LockNames.all, hw]
  have hyin : ns.ys ⊆ ns.all := by
    intro w hw
    simp [LockNames.all, hw]
  have hout {w : Name} (hw : w ∈ ns.all) : w ∉ (X.operator i.1).op.combiner.names :=
    fun h => List.disjoint_of_nodup_append hnd h hw
  have hyx {w : Name} (hw : w ∈ ns.ys) : w ∉ ns.xs :=
    fun h => List.disjoint_of_nodup_append hall.of_append_right hw h
  have hother {w : Name} (hw : w ∈ [ns.idx, ns.lock, ns.prev, ns.done]) : w ∉ ns.xs :=
    fun h => List.disjoint_of_nodup_append hall hw (List.mem_append_right _ h)
  have hotherin {w : Name} (hw : w ∈ [ns.idx, ns.lock, ns.prev, ns.done]) : w ∈ ns.all := List.mem_append_left _ hw
  have hsub : (X.operator i.1).op.combiner.names ++ ns.xs ⊆ (X.operator i.1).op.combiner.names ++ ns.all :=
    List.append_subset.2 ⟨List.subset_append_left _ _, List.Subset.trans hxin (List.subset_append_right _ _)⟩
  have hallown {w : Name} (hw : w ∈ (X.operator i.1).op.combiner.names ++ ns.all) : X.Own i w :=
    (List.mem_append.1 hw).elim .inr (hown w)
  set places := ns.xs.zip ((X.operator i.1).arrays.zip (X.operator i.1).op.scalars)
  have hplaces : places.map (fun p => p.1) = ns.xs := by
    rw [map_zip_fst (fun w : Name => w) (by rw [List.length_zip, hxs, hK, Nat.min_self]), List.map_id']
  have hlength : places.length = (X.operator i.1).op.scalars.length := by
    rw [List.length_zip, List.length_zip, hxs, hK, Nat.min_self, Nat.min_self]
  have hget {j : ℕ} {p : Name × Name × Scalar} (hp : places[j]? = some p) : ns.xs[j]? = some p.1 ∧
      (X.operator i.1).arrays[j]? = some p.2.1 ∧ (X.operator i.1).op.scalars[j]? = some p.2.2 := by
    obtain ⟨h₁, h₂⟩ := List.getElem?_zip_eq_some.1 hp
    exact ⟨h₁, List.getElem?_zip_eq_some.1 h₂⟩
  rw [criticalSection, List.append_assoc, List.append_assoc, List.append_assoc]
  -- the tuple is read
  refine Safe.binds (fun p : Name × Name × Scalar => p.1)
    (fun p => .element p.2.1 p.2.2 (X.operator i.1).space (.ofName ns.idx)) places x.cells
    (by rw [hlength, x.length_eq]) (by rw [hplaces]; exact (hall.of_append_right).of_append_right) ?_ ?_ ?_
  · intro j p w hp hw
    exact ⟨_, rfl, x.fits j _ w (hget hp).2.2 hw⟩
  · intro vars' s hb hs j p w hp hw
    rw [hplaces] at hb
    obtain ⟨v, hv, hsees⟩ := hs.view
    have hidx : s.vars.get? ns.idx = some (.word (X.place i)) := hs.get? ((hb _ (hother (by simp))).trans hvars.idx)
    have h : Evals .plain (X.context i) s (.element p.2.1 p.2.2 (X.operator i.1).space (.ofName ns.idx)) _ :=
      .element (k := X.place i) (.ofName hidx (hX.place_fits i))
        ((hv.table i.1).column j _ _ (hget hp).2.1 (hget hp).2.2) (hX.inRange i)
    rwa [(hsees x x rfl).1, Tuple.cell_eq hw] at h
  intro vars₁ hb₁ hread
  rw [hplaces] at hb₁
  have hx₁ (m : Memory) : Holds { vars := vars₁, memory := m } ns.xs x.cells := by
    intro j w z hw hz
    have hj : j < places.length := by
      rw [hlength, ← hxs]
      exact (List.getElem?_eq_some_iff.1 hw).1
    have hp : places[j]? = some places[j] := List.getElem?_eq_getElem hj
    have hw' : w = places[j].1 := Option.some.inj (hw.symm.trans (hget hp).1)
    exact hw' ▸ hread j _ z hp hz
  -- it is combined with the values
  refine Safe.apply (hX.typed i.1) (X.operator i.1).combine x (X.tuple i) hxs (by simp [hxs, hys])
    (hnd.sublist (((List.sublist_append_right _ _).trans (List.sublist_append_right _ _)).append_left _)) ?_ ?_ ?_ ?_
  · intro j e sc he hsc
    rw [List.getElem?_map, Option.map_eq_some_iff] at he
    obtain ⟨p, hp, rfl⟩ := he
    rw [List.getElem?_zip_eq_some] at hp
    rw [hp.2, Option.some.injEq] at hsc
    exact congrArg Ty.scalar hsc
  · intro vars' s hb hs j e z he hz
    rw [List.getElem?_map, Option.map_eq_some_iff] at he
    obtain ⟨p, hp, rfl⟩ := he
    rw [List.getElem?_zip_eq_some] at hp
    refine .scalarVar (hs.get? ?_)
    have hy₁ : Holds { vars := vars₁ } ns.ys (X.tuple i).cells := hb₁.holds hvars.ys fun w hw => hyx hw
    have hxy : Holds { vars := vars' } (ns.xs ++ ns.ys) (x.cells ++ (X.tuple i).cells) := by
      intro j w z hw hz
      rw [List.getElem?_append] at hw hz
      rw [x.length_eq, ← hxs] at hz
      split_ifs at hw hz
      · exact hb.holds (hx₁ {}) (fun w hw => hout (hxin hw)) j w z hw hz
      · exact hb.holds hy₁ (fun w hw => hout (hyin hw)) _ w z hw hz
    exact hxy j _ z hp.1 hz
  · intro vars' s hb hs
    refine hX.yields i s (hs.around ?_)
    exact (hvars.knows.sameBut hb₁ fun w hw => hown w (hxin hw)).sameBut hb fun w hw => hallown (hsub hw)
  intro vars₂ hb₂ hx₂
  have hsame {w : Name} (hw : w ∈ [ns.idx, ns.lock, ns.prev, ns.done]) : vars₂.get? w = vars.get? w := by
    rw [hb₂ w (by simp [hout (hotherin hw), hother hw]), hb₁ w (hother hw)]
  -- the result is written
  refine Safe.writes hX (fun p : Name × Name × Scalar => p.2.1) (fun p => p.2.2) (fun p => .scalarVar p.1 p.2.2)
    (r := X.combine x (X.tuple i)) (k := 0) (by rw [Nat.zero_add, hlength]) (fun j p hp => ?_) (fun j p hp => ?_)
    (fun j hj => absurd hj (Nat.not_lt_zero j)) (fun ph s hs => ?_) (fun ph s hs j p hp => ?_) ?_
  · rw [Nat.zero_add]
    exact (hget hp).2.1
  · rw [Nat.zero_add]
    exact (hget hp).2.2
  · exact .ofName (hs.get? ((hsame (by simp)).trans hvars.idx)) (hX.place_fits i)
  · rw [Nat.zero_add]
    exact .scalarVar (hs.get? (hx₂ j _ _ (hget hp).1 (Tuple.getElem?_cells (hget hp).2.2)))
  -- and the lock is given back
  refine Safe.fence (Safe.giveLock hX hm ((hsame (by simp)).trans hvars.lock) hfit rfl ?_)
  exact Safe.storeVar (fun _ _ => Evals.truth true) (hend _ (by rw [Bindings.get?_set, if_pos rfl]; rfl))

/-- the loop is safe wherever it starts a round: the lock is taken and the update is made, or the lock is found taken and
another attempt is made -/
theorem lockRounds_safe (hX : X.Regular) (hm : X.Locks i.1)
    (hnd : ((X.operator i.1).op.combiner.names ++ ns.all).Nodup) (hown : ∀ w ∈ ns.all, X.Own i w)
    (hxs : ns.xs.length = (X.operator i.1).op.scalars.length) (hys : ns.ys.length = (X.operator i.1).op.scalars.length)
    (hfit : Word64.fits (X.lock i : Int) = true) (hvars : LockReady i ns vars)
    (hdone : vars.get? ns.done = some (.bool false)) :
    Safe i n .before ⟨vars, [.whileLoop (.not (.typed ns.done .bool))
      (lockAttempt ns X.table (X.operator i.1).space (X.operator i.1).op (X.operator i.1).arrays) .unknown]⟩ := by
  have hall : ns.all.Nodup := hnd.of_append_right
  have hprevin : ns.prev ∈ ns.all := by simp [LockNames.all]
  have hprev {w : Name} (hw : w ∈ ns.idx :: ns.lock :: ns.done :: ns.ys) : w ≠ ns.prev := by
    have h := hall
    simp only [LockNames.all, List.cons_append, List.nil_append, List.nodup_cons, List.mem_cons, List.mem_append,
      not_or] at h hw
    rcases hw with rfl | rfl | rfl | hw
    · exact h.1.2.1
    · exact h.2.1.1
    · exact Ne.symm h.2.2.1.1
    · rintro rfl
      exact h.2.2.1.2.1 hw
  induction n generalizing vars with
  | zero => trivial
  | succ n ih =>
    have hset (z : Value) {w : Name} (hw : w ∈ ns.idx :: ns.lock :: ns.done :: ns.ys) :
        (vars.set ns.prev z).get? w = vars.get? w := by
      rw [Bindings.get?_set, if_neg (hprev hw).symm]
    have hready (z : Value) : LockReady i ns (vars.set ns.prev z) :=
      ⟨hvars.knows.set (hown _ hprevin) _, (hset z (by simp)).trans hvars.idx, (hset z (by simp)).trans hvars.lock,
        fun j w u hw hu => (hset z (by simp [List.mem_of_getElem? hw])).trans (hvars.ys j w u hw hu)⟩
    have hcond {ph : Phase (X.TupleOf i.1)} (b : Int) (s : State) (hs : Meets i ph (vars.set ns.prev (.int b .u32)) s) :
        Evals .plain (X.context i) s ((Expr.scalarVar ns.prev .u32).eq (.literal unlocked .u32))
          (.bool (decide (b = unlocked))) :=
      Evals.eqVar (hs.get? (by rw [Bindings.get?_set, if_pos rfl])) (Evals.literal unlocked .u32)
    refine Safe.whileLoop (b := true) (fun s hs => .notVar (hs.get? hdone)) ?_
    rw [if_pos rfl, lockAttempt]
    refine Safe.takeLock hX hm hvars.lock hfit (fun x => ?_) ?_
    · refine Safe.ifElse (hcond unlocked) ?_
      rw [decide_eq_true rfl, if_pos rfl]
      refine criticalSection_safe hX hm hnd hown hxs hys hfit (hready _) fun vars' hd => ?_
      refine (Safe.whileLoop (b := false) (fun s hs => .notVar (hs.get? hd)) ?_).pred
      exact Safe.pred (.inl ⟨rfl, rfl⟩)
    · refine Safe.ifElse (hcond locked) ?_
      rw [decide_eq_false (by decide), if_neg Bool.false_ne_true]
      exact ih (hready _) ((hset _ (by simp)).trans hdone)

/-- **Updating under a lock.** -/
theorem lockedUpdate_safe (hX : X.Regular) (hm : X.Locks i.1)
    (hnd : ((X.operator i.1).op.combiner.names ++ ns.all).Nodup) (hown : ∀ w ∈ ns.all, X.Own i w)
    (hxs : ns.xs.length = (X.operator i.1).op.scalars.length) (hys : ns.ys.length = (X.operator i.1).op.scalars.length) :
    Safe i n .before ⟨(X.job i.1 i.2).vars, lockedUpdate ns X.table (X.operator i.1).space (X.operator i.1).op
      (X.operator i.1).arrays (X.job i.1 i.2).addr (X.job i.1 i.2).values⟩ := by
  have hall : ns.all.Nodup := hnd.of_append_right
  have hnames := hall
  simp only [LockNames.all, List.cons_append, List.nil_append, List.nodup_cons, List.mem_cons, List.mem_append,
    not_or] at hnames
  obtain ⟨⟨hil, -, hid, hiy, -⟩, ⟨-, hld, hly, -⟩, -, ⟨hdy, -⟩, hnd'⟩ := hnames
  have hvalues := hX.length_values i.1 i.2
  have hyown : ∀ w ∈ ns.ys, X.Own i w := fun w hw => hown w (by simp [LockNames.all, hw])
  have hinown {w : Name} (hw : w ∈ [ns.idx, ns.lock, ns.prev, ns.done]) : X.Own i w := hown w (List.mem_append_left _ hw)
  have hys' : (ns.ys.zip (X.job i.1 i.2).values).map (fun p => p.1) = ns.ys := by
    rw [map_zip_fst (fun w : Name => w) (by rw [hys, hvalues]), List.map_id']
  have hpos := hX.locks_pos hm
  rw [lockedUpdate, List.append_assoc]
  refine Safe.bindPlace hX .start ?_
  have hk₁ : X.Knows i ((X.job i.1 i.2).vars.set ns.idx (.word (X.place i))) := Knows.start.set (hinown (by simp)) _
  refine Safe.binds (fun p : Name × Expr => p.1) (fun p => p.2) (ns.ys.zip (X.job i.1 i.2).values) (X.tuple i).cells
    (by rw [List.length_zip, hys, hvalues, Tuple.length_eq, Nat.min_self]) (by rw [hys']; exact hnd'.of_append_left)
    ?_ ?_ ?_
  · intro j p w hp hw
    rw [List.getElem?_zip_eq_some] at hp
    have hj : j < (X.operator i.1).op.scalars.length := by
      rw [← (X.tuple i).length_eq]
      exact (List.getElem?_eq_some_iff.1 hw).1
    have hsc := List.getElem?_eq_getElem hj
    exact ⟨_, hX.ty_values _ _ j _ _ hp.2 hsc, (X.tuple i).fits j _ w hsc hw⟩
  · intro vars' s hb hs j p w hp hw
    rw [hys'] at hb
    rw [List.getElem?_zip_eq_some] at hp
    exact hX.values i s (hs.around (hk₁.sameBut hb hyown)) j _ w hp.2 hw
  intro vars₂ hb₂ hread
  rw [hys'] at hb₂
  have hk₂ : X.Knows i vars₂ := hk₁.sameBut hb₂ hyown
  have hy₂ : Holds { vars := vars₂ } ns.ys (X.tuple i).cells := by
    intro j w z hw hz
    have hj : j < (X.job i.1 i.2).values.length := by
      rw [hvalues, ← hys]
      exact (List.getElem?_eq_some_iff.1 hw).1
    exact hread j (w, (X.job i.1 i.2).values[j]) z (List.getElem?_zip_eq_some.2 ⟨hw, List.getElem?_eq_getElem hj⟩) hz
  have hidx₂ : vars₂.get? ns.idx = some (.word (X.place i)) := by
    rw [hb₂ _ hiy, Bindings.get?_set, if_pos rfl]
  have hhash {s : State} (hs : X.Around i s) (hidx : s.vars.get? ns.idx = some (.word (X.place i))) :
      Computes .plain (X.context i) s (X.table.hash (.ofName ns.idx)) (X.lock i) :=
    (Computes.ofName hidx (hX.place_fits i)).mod (hX.count i s hm hs) hpos
  have hfit : Word64.fits (X.lock i : Int) = true :=
    (hhash (s := { vars := vars₂, memory := X.memory }) ⟨hk₂, .refl _ _⟩ hidx₂).fits
  refine Safe.bind rfl fun s hs => ⟨_, (hhash (hs.around hk₂) (hs.get? hidx₂)).evals,
    Value.fits_word (Scalar.wrap_i64 hfit), ?_⟩
  refine Safe.bind rfl fun _ _ => ⟨_, Evals.truth false, rfl, ?_⟩
  have hkept {w : Name} (hl : ns.lock ≠ w) (hd : ns.done ≠ w) (z z' : Value) :
      ((vars₂.set ns.lock z).set ns.done z').get? w = vars₂.get? w := by
    rw [Bindings.get?_set, if_neg hd, Bindings.get?_set, if_neg hl]
  refine lockRounds_safe hX hm hnd hown hxs hys hfit ⟨(hk₂.set (hinown (by simp)) _).set (hinown (by simp)) _, ?_, ?_, ?_⟩ ?_
  · exact (hkept (Ne.symm hil) (Ne.symm hid) _ _).trans hidx₂
  · rw [Bindings.get?_set, if_neg (Ne.symm hld), Bindings.get?_set, if_pos rfl]
  · intro j w z hw hz
    have hmem := List.mem_of_getElem? hw
    exact (hkept (fun h => hly (h ▸ hmem)) (fun h => hdy (h ▸ hmem)) _ _).trans (hy₂ j w z hw hz)
  · rw [Bindings.get?_set, if_pos rfl]

end Locked

end Contention

end GpuHistogram
