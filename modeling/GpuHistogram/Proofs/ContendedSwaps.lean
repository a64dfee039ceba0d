/-
Updates by comparing and swapping while other threads update, too. `Contention.Regular` says what is asked of the
operators, of the expressions that a thread is given and of the locks; from it follows what storing to an element does to
the view of memory (`Shows.put`, `Shows.turn`), and that an expression keeps its value whatever the threads have stored.

`casLoop_safe`: the word is read, combined with the value, and swapped if it is still there (`Safe.compareSwap`). Then the
swap is the whole update; otherwise nothing has happened, and the loop goes on with the word that has been found.
-/
import GpuHistogram.Proofs.Method
import GpuHistogram.Proofs.SafeSteps

namespace GpuHistogram

open Machine

namespace Contention

variable {κ : Type} {J : κ → Type}

/-- the names that a thread gives values to -/
def Own (X : Contention κ J) (i : X.Thread) (n : Name) : Prop :=
  n.Within (X.job i.1 i.2).first (X.job i.1 i.2).last ∨ n ∈ (X.operator i.1).op.combiner.names

/-- the variables of the thread are the ones that it had in the beginning, but for its own -/
def Knows (X : Contention κ J) (i : X.Thread) (vars : Bindings Value) : Prop :=
  ∀ n, ¬X.Own i n → vars.get? n = (X.job i.1 i.2).vars.get? n

/-- the states in which a thread may find itself -/
structure Around [Fintype κ] (X : Contention κ J) (i : X.Thread) (s : State) : Prop where
  knows : X.Knows i s.vars
  keeps : Memory.Keeps X.written X.memory s.memory

/-- operators with tuples of integers and truth values in arrays of their own, each with a combiner that computes a
function; updates of buckets with given values, whatever the threads have stored so far; and locks that are all free -/
structure Regular [Fintype κ] (X : Contention κ J) : Prop where
  table : ∀ p, X.memory.Table (X.operator p).arrays (X.operator p).op.scalars (X.operator p).len (X.operator p).content
  discrete : ∀ p, ∀ sc ∈ (X.operator p).op.scalars, sc.isFloat = false
  apart : ∀ p q, p ≠ q → ∀ n ∈ (X.operator q).arrays, X.memory.Apart (X.operator p).arrays n
  method : ∀ p, (∃ sc, (X.operator p).method = .compareSwap sc ∧ (X.operator p).op.swappable? = some sc) ∨
    X.Locks p ∧ 0 < X.locks
  free : 0 < X.locks → X.memory.Column X.table.name .i32 X.locks fun _ => .int unlocked .i32
  unaliased : ∀ p, X.memory.Apart (X.operator p).arrays X.table.name
  named : ∀ p, X.table.name ∉ (X.operator p).arrays
  typed : ∀ p, (X.operator p).op.combiner.Typed (X.operator p).op.scalars
  yields : ∀ i s, X.Around i s → (X.operator i.1).op.combiner.Yields .plain (X.context i) s (X.operator i.1).combine
  code : ∀ p j, (X.operator p).op.updateCode (X.operator p).method (X.operator p).space (X.operator p).arrays
    (X.job p j).addr (X.job p j).values (X.job p j).first = some ((X.job p j).code, (X.job p j).last)
  fresh : ∀ p j, ∀ n ∈ (X.operator p).op.combiner.names, ¬n.Within (X.job p j).first (X.job p j).last
  inRange : ∀ i, X.place i < (X.operator i.1).len
  addr : ∀ i s, X.Around i s → Computes .plain (X.context i) s (X.job i.1 i.2).addr (X.place i)
  length_values : ∀ p j, (X.job p j).values.length = (X.operator p).op.scalars.length
  ty_values : ∀ p j (k : ℕ) e sc, (X.job p j).values[k]? = some e → (X.operator p).op.scalars[k]? = some sc →
    e.ty = .scalar sc
  values : ∀ i s, X.Around i s → AllEval .plain (X.context i) s (X.job i.1 i.2).values (X.tuple i).cells
  count : ∀ i s, X.Locks i.1 → X.Around i s → Computes .plain (X.context i) s X.table.count X.locks

variable {X : Contention κ J} [Fintype κ] {i : X.Thread} {n : ℕ} {ph : Phase (X.TupleOf i.1)} {vars vars' : Bindings Value}
  {rest : List Stmt} {v : X.View} {m : Memory} {s : State}

/-! ## Memory -/

theorem arrays_written {p : κ} {w : Name} (hw : w ∈ (X.operator p).arrays) : w ∈ X.written :=
  List.mem_cons_of_mem _ (List.mem_flatMap.2 ⟨p, Finset.mem_toList.2 (Finset.mem_univ p), hw⟩)

namespace Regular

variable (hX : X.Regular)

include hX

theorem shows_first : X.Shows X.firstView X.memory where
  keeps := .refl _ _
  table := hX.table
  locks := hX.free

end Regular

namespace Shows

variable (hX : X.Regular) (hv : X.Shows v m)

include hX hv

/-- storing an element of one array changes the tuple at its bucket -/
theorem put [DecidableEq κ] {p : κ} {a k : ℕ} {w : Name} {sc : Scalar} {x : Value} (hw : (X.operator p).arrays[k]? = some w)
    (hsc : (X.operator p).op.scalars[k]? = some sc) (ha : a < (X.operator p).len) (hx : x.Fits sc) :
    ∃ m', Memory.write w a x m = .ok ((v.tuples p a).cell k) m' ∧
      X.Shows (v.put p a ((v.tuples p a).put x hsc hx)) m' := by
  have hmem : w ∈ (X.operator p).arrays := List.mem_of_getElem? hw
  obtain ⟨m', hm, htable⟩ := (hv.table p).put hw hsc ha hx
  have hk : Memory.Keeps [w] m m' := .write hm (List.mem_singleton_self w)
  have hsub : [w] ⊆ (X.operator p).arrays := by simpa using hmem
  refine ⟨m', hm, hv.keeps.trans (hk.mono (by simpa using arrays_written hmem)), fun q => ?_, fun hpos => ?_⟩
  · by_cases hq : q = p
    · subst hq
      simpa [View.put] using htable
    · have hkept := (hv.table q).keeps hk fun n hn =>
        ((hX.apart p q (Ne.symm hq) n hn).keeps hv.keeps).mono hsub
      simpa [View.put, hq] using hkept
  · exact (hv.locks hpos).keeps hk (((hX.unaliased p).keeps hv.keeps).mono hsub)

/-- storing to the cell of a lock -/
theorem turn {k : ℕ} (hk : k < X.locks) (b : Bool) :
    ∃ m', Memory.write X.table.name k (.int (if b then locked else unlocked) .i32) m =
        .ok (.int (if v.taken k then locked else unlocked) .i32) m' ∧ X.Shows (v.turn k b) m' := by
  obtain ⟨m', hm, hcol⟩ := (hv.locks (by omega)).write hk (.int (if b then locked else unlocked) .i32)
  have hkeeps : Memory.Keeps [X.table.name] m m' := .write hm (List.mem_singleton_self _)
  refine ⟨m', hm, hv.keeps.trans (hkeeps.mono (by simp [written])), fun p => ?_, fun _ => hcol.congr fun j _ => ?_⟩
  · refine (hv.table p).keeps hkeeps fun w hw => ?_
    intro w' hw' q hq hq'
    rw [List.mem_singleton.1 hw'] at hq'
    exact (hX.unaliased p).keeps hv.keeps w hw q hq' hq
  · by_cases hj : j = k
    · subst hj
      cases b <;> simp [View.turn] <;> rfl
    · simp [View.turn, hj]

end Shows

/-! ## What a thread knows -/

section Knows

omit [Fintype κ]

theorem Knows.start : X.Knows i (X.job i.1 i.2).vars := fun _ _ => rfl

theorem Knows.sameBut {V : List Name} (h : X.Knows i vars) (hb : SameBut V vars vars') (hV : ∀ n ∈ V, X.Own i n) :
    X.Knows i vars' := fun n hn => (hb n fun hm => hn (hV n hm)).trans (h n hn)

theorem Knows.set (h : X.Knows i vars) {w : Name} (hw : X.Own i w) (x : Value) : X.Knows i (vars.set w x) :=
  h.sameBut (.set (List.mem_singleton_self w) vars x) fun n hn => by rwa [List.mem_singleton.1 hn]

end Knows

theorem Meets.around (h : Meets i ph vars s) (hk : X.Knows i vars) : X.Around i s :=
  ⟨h.vars_eq ▸ hk, h.keeps⟩

theorem Meets.get? {w : Name} {x : Value} (h : Meets i ph vars s) (hw : vars.get? w = some x) :
    s.vars.get? w = some x := by
  rwa [h.vars_eq]

theorem Around.start (X : Contention κ J) (i : X.Thread) :
    X.Around i { vars := (X.job i.1 i.2).vars, memory := X.memory } :=
  ⟨.start, .refl _ _⟩

/-- the number of the bucket is a word -/
theorem Regular.place_fits (hX : X.Regular) (i : X.Thread) : Word64.fits (X.place i : Int) = true :=
  (hX.addr i _ (.start X i)).fits

/-- the number of the bucket is put into a variable -/
theorem Safe.bindPlace [DecidableEq κ] (hX : X.Regular) {w : Name} (hk : X.Knows i vars)
    (h : Safe i n ph ⟨vars.set w (.word (X.place i)), rest⟩) :
    Safe i n ph ⟨vars, .bind w (X.job i.1 i.2).addr :: rest⟩ :=
  .bind (hX.addr i _ (.start X i)).ty fun s hs =>
    ⟨_, (hX.addr i s (hs.around hk)).evals, Value.fits_word (Scalar.wrap_i64 (hX.place_fits i)), h⟩

/-! ## Comparing and swapping -/

section CompareSwap

variable [DecidableEq κ] {ns : CasNames} {sc : Scalar} {target : Name} {x y : X.TupleOf i.1}

/-- the word that is compared is swapped if it is the one assumed, and otherwise it is found -/
theorem Safe.compareSwap (hX : X.Regular) (hm : ¬X.Locks i.1) (hsc : (X.operator i.1).op.scalars = [sc])
    (ht : (X.operator i.1).arrays = [target]) (hint : sc.isInteger = true)
    (hfit : Word64.fits (X.place i : Int) = true) (hidx : vars.get? ns.idx = some (.word (X.place i)))
    (hassumed : vars.get? ns.assumed = some (.ofBits (x.cell 0).toBits sc.bitPattern))
    (hx : vars.get? ns.x = some ((X.combine x (X.tuple i)).cell 0))
    (hswap : Safe i n .after ⟨vars.set ns.old (.ofBits (x.cell 0).toBits sc.bitPattern), rest⟩)
    (hfound : ∀ z : X.TupleOf i.1, Value.ofBits (z.cell 0).toBits sc.bitPattern ≠ .ofBits (x.cell 0).toBits sc.bitPattern →
      Safe i n .before ⟨vars.set ns.old (.ofBits (z.cell 0).toBits sc.bitPattern), rest⟩) :
    Safe i n .before ⟨vars, .compareSwap ns.old (X.operator i.1).space sc target (.ofName ns.idx)
      (.scalarVar ns.assumed sc.bitPattern) ((Expr.scalarVar ns.x sc).sameBits sc.bitPattern) .unknown :: rest⟩ := by
  have hpos : (X.operator i.1).op.scalars[0]? = some sc := by rw [hsc]; rfl
  have htarget : (X.operator i.1).arrays[0]? = some target := by rw [ht]; rfl
  set r := X.combine x (X.tuple i)
  have hr : (r.cell 0).Fits sc := r.fits_cell hpos
  have hxfits : (x.cell 0).Fits sc := x.fits_cell hpos
  have hbits : (r.cell 0).scalar.bytes = sc.bitPattern.bytes := by
    rw [hr.scalar_eq, Scalar.bytes_bitPattern]
  have hnew : Value.ofBits (Value.ofBits (r.cell 0).toBits sc.bitPattern).toBits sc = r.cell 0 := by
    rw [Value.toBits_bitPattern hr hint, Value.ofBits_toBits hr hint]
  have hother {c : Context} {s : State} {idx cmp new : Expr} (l : Option Int) : heldAfter c X.table.name s l
      (.compareSwap ns.old (X.operator i.1).space sc target idx cmp new .unknown :: rest) = l :=
    if_neg fun h => hX.named i.1 (by rw [ht, h]; exact List.mem_singleton_self _)
  refine Proceeds.safe ⟨List.cons_ne_nil _ _, fun v m hv _ => ?_⟩
  set s : State := { vars := vars, memory := m }
  set z := v.tuples i.1 (X.place i)
  have hcomputes : Computes .plain (X.context i) s (.ofName ns.idx) (X.place i) := .ofName hidx hfit
  have hcmp : Evals .plain (X.context i) s (.scalarVar ns.assumed sc.bitPattern) _ := .scalarVar hassumed
  have hval : Evals .plain (X.context i) s ((Expr.scalarVar ns.x sc).sameBits sc.bitPattern) _ :=
    (Evals.scalarVar hx).sameBits hbits
  have hread : s.memory.read target (X.place i) = .ok (z.cell 0) :=
    ((hv.table i.1).column 0 target sc htarget hpos).read_run (hX.inRange i)
  have hassumedBits := Value.toBits_bitPattern hxfits hint
  by_cases heq : Value.ofBits (z.cell 0).toBits sc.bitPattern = .ofBits (x.cell 0).toBits sc.bitPattern
  · -- the tuple is the one assumed, and the swap is the whole update
    have hz : z = x := Tuple.eq_of_single hsc (Value.eq_of_bitPattern (z.fits_cell hpos) hxfits hint heq)
    obtain ⟨m', hm', hshows⟩ := hv.put hX htarget hpos (hX.inRange i) hr
    have hput : z.put (r.cell 0) hpos hr = X.combine z (X.tuple i) := by
      refine Tuple.eq_of_single hsc ?_
      rw [Tuple.cell_put, if_pos rfl, hz]
    have hexec : exec noLaunch (X.context i) (.compareSwap ns.old (X.operator i.1).space sc target (.ofName ns.idx)
        (.scalarVar ns.assumed sc.bitPattern) ((Expr.scalarVar ns.x sc).sameBits sc.bitPattern) .unknown) s =
        .ok () (({ s with memory := m' } : State).set ns.old (.ofBits (z.cell 0).toBits sc.bitPattern)) :=
      exec_of_runs (Runs.compareSwap hcomputes.evals (Value.toInt64_word hfit) hcmp hval hread
        (by rw [hassumedBits, heq]) (hnew.symm ▸ hm') (Runs.nil rfl))
    refine ⟨rest, _, _, .after, advance_simple rfl hexec, hshows, ?_, hother _, ?_⟩
    · change Acts i v .before (v.put i.1 (X.place i) (z.put (r.cell 0) hpos hr)) .after
      rw [hput]
      exact .swap hm
    · rw [hz]
      exact hswap
  · have hexec : exec noLaunch (X.context i) (.compareSwap ns.old (X.operator i.1).space sc target (.ofName ns.idx)
        (.scalarVar ns.assumed sc.bitPattern) ((Expr.scalarVar ns.x sc).sameBits sc.bitPattern) .unknown) s =
        .ok () (s.set ns.old (.ofBits (z.cell 0).toBits sc.bitPattern)) :=
      exec_compareSwap_found hcomputes.evals (Value.toInt64_word hfit) hcmp hval hread (by rwa [hassumedBits])
    exact ⟨rest, _, v, .before, advance_simple rfl hexec, hv, .idle, hother _, hfound z heq⟩

/-- what the variables of the loop hold before an attempt: the bucket, the value, and the word assumed to be there -/
structure CasReady (i : X.Thread) (ns : CasNames) (sc : Scalar) (x : X.TupleOf i.1) (vars : Bindings Value) : Prop where
  knows : X.Knows i vars
  idx : vars.get? ns.idx = some (.word (X.place i))
  y : vars.get? ns.y = some ((X.tuple i).cell 0)
  assumed : vars.get? ns.assumed = some (.ofBits (x.cell 0).toBits sc.bitPattern)
  done : vars.get? ns.done = some (.bool false)

/-- an attempt succeeds, or another one is made with the word that has been found -/
theorem casAttempt_safe (hX : X.Regular) (hm : ¬X.Locks i.1) (hsc : (X.operator i.1).op.scalars = [sc])
    (ht : (X.operator i.1).arrays = [target]) (hint : sc.isInteger = true)
    (hfit : Word64.fits (X.place i : Int) = true) (hnd : ((X.operator i.1).op.combiner.names ++ ns.all).Nodup)
    (hown : ∀ w ∈ ns.all, X.Own i w) (hvars : CasReady i ns sc x vars)
    (hend : ∀ vars', vars'.get? ns.done = some (.bool true) → Safe i n .after ⟨vars', rest⟩)
    (hagain : ∀ vars' z, CasReady i ns sc z vars' → Safe i n .before ⟨vars', rest⟩) :
    Safe i n .before ⟨vars, casAttempt ns sc (X.operator i.1).space (X.operator i.1).op.combiner target ++ rest⟩ := by
  have hpos : (X.operator i.1).op.scalars[0]? = some sc := by rw [hsc]; rfl
  have hcas : ns.all.Nodup := hnd.of_append_right
  have hout {w : Name} (hw : w ∈ ns.all) : w ∉ (X.operator i.1).op.combiner.names :=
    fun h => List.disjoint_of_nodup_append hnd h hw
  simp only [CasNames.all, List.nodup_cons, List.mem_cons, List.not_mem_nil, or_false, not_or] at hcas
  obtain ⟨hidxin, hyin, hain, holdin, hxin, hdin⟩ : ns.idx ∈ ns.all ∧ ns.y ∈ ns.all ∧ ns.assumed ∈ ns.all ∧
    ns.old ∈ ns.all ∧ ns.x ∈ ns.all ∧ ns.done ∈ ns.all := by simp [CasNames.all]
  have hxfits : (x.cell 0).Fits sc := x.fits_cell hpos
  have hbits (z : X.TupleOf i.1) : ∃ b, Value.ofBits (z.cell 0).toBits sc.bitPattern = .int b sc.bitPattern := by
    obtain ⟨b, hb, -⟩ := (Value.fits_ofBits (z.cell 0).toBits sc.bitPattern).of_isInteger (Scalar.isInteger_bitPattern sc)
    exact ⟨b, hb⟩
  have hx (s : State) (hs : Meets i .before vars s) :
      Evals .plain (X.context i) s ((Expr.scalarVar ns.assumed sc.bitPattern).sameBits sc) (x.cell 0) := by
    have hsize : (Value.ofBits (x.cell 0).toBits sc.bitPattern).scalar.bytes = sc.bytes := by
      rw [Value.scalar_ofBits, Scalar.bytes_bitPattern]
    have h : Evals .plain (X.context i) s ((Expr.scalarVar ns.assumed sc.bitPattern).sameBits sc) _ :=
      (Evals.scalarVar (hs.get? hvars.assumed)).sameBits hsize
    rwa [Value.toBits_bitPattern hxfits hint, Value.ofBits_toBits hxfits hint] at h
  unfold casAttempt
  refine Safe.bind rfl fun s hs => ⟨_, hx s hs, hxfits, ?_⟩
  -- the value is combined with the word assumed
  have hsub : (X.operator i.1).op.combiner.names ++ [ns.x] ⊆ (X.operator i.1).op.combiner.names ++ ns.all :=
    List.append_subset.2 ⟨List.subset_append_left _ _,
      List.cons_subset.2 ⟨List.mem_append_right _ hxin, List.nil_subset _⟩⟩
  have hall {w : Name} (hw : w ∈ (X.operator i.1).op.combiner.names ++ ns.all) : X.Own i w :=
    (List.mem_append.1 hw).elim .inr (hown w)
  have hset : X.Knows i (vars.set ns.x (x.cell 0)) := hvars.knows.set (hown _ hxin) _
  have hone : (X.operator i.1).op.scalars.length = 1 := by rw [hsc]; rfl
  refine Safe.apply (hX.typed i.1) (X.operator i.1).combine x (X.tuple i) hone.symm (by rw [hone]; rfl)
    (hnd.sublist ((List.singleton_sublist.2 hxin).append_left _)) ?_ ?_ ?_ ?_
  · intro j e sc' he hsc'
    rw [hsc] at hsc'
    rcases j with _ | _ | j <;> cases he <;> cases hsc' <;> rfl
  · intro vars' s' hb hs' j e w he hw
    rw [x.cells_of_single hsc, (X.tuple i).cells_of_single hsc] at hw
    have hget {u : Name} (hu : u ∈ ns.all) : s'.vars.get? u = (vars.set ns.x (x.cell 0)).get? u := by
      rw [hs'.vars_eq, hb u (hout hu)]
    rcases j with _ | _ | j <;> cases he <;> cases hw
    · exact .scalarVar (by rw [hget hxin, Bindings.get?_set, if_pos rfl])
    · exact .scalarVar (by rw [hget hyin, Bindings.get?_set, if_neg (by grind), hvars.y])
  · intro vars' s' hb hs'
    exact hX.yields i s' (hs'.around (hset.sameBut hb fun w hw => hall (hsub hw)))
  intro vars₁ hb₁ hr
  have hknows : X.Knows i vars₁ := hset.sameBut hb₁ fun w hw => hall (hsub hw)
  have hsame {u : Name} (hu : u ∈ ns.all) (hne : ns.x ≠ u) : vars₁.get? u = vars.get? u := by
    rw [hb₁ u (by simp [hout hu, hne.symm]), Bindings.get?_set, if_neg hne]
  have hresult : vars₁.get? ns.x = some ((X.combine x (X.tuple i)).cell 0) :=
    hr 0 _ _ rfl (by rw [Tuple.cells_of_single hsc]; rfl)
  have hassumed : vars₁.get? ns.assumed = some (.ofBits (x.cell 0).toBits sc.bitPattern) :=
    (hsame hain (by grind)).trans hvars.assumed
  have hcond {ph : Phase (X.TupleOf i.1)} (z : X.TupleOf i.1) (s : State)
      (hs : Meets i ph (vars₁.set ns.old (.ofBits (z.cell 0).toBits sc.bitPattern)) s) :
      Evals .plain (X.context i) s ((Expr.scalarVar ns.old sc.bitPattern).eq (.scalarVar ns.assumed sc.bitPattern))
        (.bool (decide (Value.ofBits (z.cell 0).toBits sc.bitPattern = .ofBits (x.cell 0).toBits sc.bitPattern))) := by
    obtain ⟨b, hb⟩ := hbits z
    obtain ⟨b', hb'⟩ := hbits x
    rw [hb] at hs
    rw [hb, hb']
    have hold : s.vars.get? ns.old = some (.int b sc.bitPattern) := hs.get? (by rw [Bindings.get?_set, if_pos rfl])
    have hass : s.vars.get? ns.assumed = some (.int b' sc.bitPattern) :=
      hs.get? (by rw [Bindings.get?_set, if_neg (by grind), hassumed, hb'])
    have h : Evals .plain (X.context i) s ((Expr.scalarVar ns.old sc.bitPattern).eq (.scalarVar ns.assumed sc.bitPattern))
      (.bool (decide (b = b'))) := Evals.eqVar hold (.scalarVar hass)
    simpa using h
  refine Safe.compareSwap hX hm hsc ht hint hfit ((hsame hidxin (by grind)).trans hvars.idx) hassumed hresult ?_ ?_
  · -- the swap has succeeded
    refine Safe.ifElse (hcond x) ?_
    rw [decide_eq_true rfl, if_pos rfl]
    exact Safe.storeVar (fun _ _ => Evals.truth true) (hend _ (by rw [Bindings.get?_set, if_pos rfl]; rfl))
  · -- another thread has been faster
    intro z hz
    refine Safe.ifElse (hcond z) ?_
    rw [decide_eq_false hz, if_neg Bool.false_ne_true]
    refine Safe.storeVar (w := .ofBits (z.cell 0).toBits sc.bitPattern)
      (fun s hs => .scalarVar (hs.get? (by rw [Bindings.get?_set, if_pos rfl]))) ?_
    have hconv : (Value.ofBits (z.cell 0).toBits sc.bitPattern).convert sc.bitPattern = .ofBits (z.cell 0).toBits sc.bitPattern :=
      (Value.fits_ofBits _ _).convert_eq
    change Safe i n .before ⟨(vars₁.set ns.old _).set ns.assumed ((Value.ofBits (z.cell 0).toBits sc.bitPattern).convert sc.bitPattern), _⟩
    rw [hconv]
    have hkept {u : Name} (hu : u ∈ ns.all) (hx : ns.x ≠ u) (ho : ns.old ≠ u) (ha : ns.assumed ≠ u) (w : Value) :
        ((vars₁.set ns.old w).set ns.assumed w).get? u = vars.get? u := by
      rw [Bindings.get?_set, if_neg ha, Bindings.get?_set, if_neg ho, hsame hu hx]
    refine hagain _ z ⟨(hknows.set (hown _ holdin) _).set (hown _ hain) _, ?_, ?_, ?_, ?_⟩
    · exact (hkept hidxin (by grind) (by grind) (by grind) _).trans hvars.idx
    · exact (hkept hyin (by grind) (by grind) (by grind) _).trans hvars.y
    · rw [Bindings.get?_set, if_pos rfl]
    · exact (hkept hdin (by grind) (by grind) (by grind) _).trans hvars.done

/-- the loop is safe wherever it starts a round -/
theorem casRounds_safe (hX : X.Regular) (hm : ¬X.Locks i.1) (hsc : (X.operator i.1).op.scalars = [sc])
    (ht : (X.operator i.1).arrays = [target]) (hint : sc.isInteger = true)
    (hnd : ((X.operator i.1).op.combiner.names ++ ns.all).Nodup) (hown : ∀ w ∈ ns.all, X.Own i w)
    (hvars : CasReady i ns sc x vars) : Safe i n .before ⟨vars, [.whileLoop (.not (.typed ns.done .bool))
      (casAttempt ns sc (X.operator i.1).space (X.operator i.1).op.combiner target) .unknown]⟩ := by
  induction n generalizing x vars with
  | zero => trivial
  | succ n ih =>
    refine Safe.whileLoop (b := true) (fun s hs => .notVar (hs.get? hvars.done)) ?_
    rw [if_pos rfl]
    refine casAttempt_safe hX hm hsc ht hint (hX.place_fits i) hnd hown hvars (fun vars' hd => ?_) fun vars' z hz => ih hz
    refine (Safe.whileLoop (b := false) (fun s hs => .notVar (hs.get? hd)) ?_).pred
    exact Safe.pred (.inl ⟨rfl, rfl⟩)

/-- **Comparing and swapping.** -/
theorem casLoop_safe (hX : X.Regular) {value : Expr} (hm : ¬X.Locks i.1) (hsc : (X.operator i.1).op.scalars = [sc])
    (ht : (X.operator i.1).arrays = [target]) (hv : (X.job i.1 i.2).values = [value]) (hint : sc.isInteger = true)
    (hnd : ((X.operator i.1).op.combiner.names ++ ns.all).Nodup) (hown : ∀ w ∈ ns.all, X.Own i w) :
    Safe i n .before ⟨(X.job i.1 i.2).vars, casLoop ns sc (X.operator i.1).space (X.operator i.1).op.combiner target
      (X.job i.1 i.2).addr value⟩ := by
  have hpos : (X.operator i.1).op.scalars[0]? = some sc := by rw [hsc]; rfl
  have hcas : ns.all.Nodup := hnd.of_append_right
  simp only [CasNames.all, List.nodup_cons, List.mem_cons, List.not_mem_nil, or_false, not_or] at hcas
  obtain ⟨hidxin, hyin, hain, hdin⟩ : ns.idx ∈ ns.all ∧ ns.y ∈ ns.all ∧ ns.assumed ∈ ns.all ∧ ns.done ∈ ns.all := by
    simp [CasNames.all]
  unfold casLoop
  refine Safe.bindPlace hX .start ?_
  have hk₁ : X.Knows i ((X.job i.1 i.2).vars.set ns.idx (.word (X.place i))) := Knows.start.set (hown _ hidxin) _
  have hval (s : State) (hs : X.Around i s) : Evals .plain (X.context i) s value ((X.tuple i).cell 0) :=
    hX.values i s hs 0 value _ (by rw [hv]; rfl) (by rw [Tuple.cells_of_single hsc]; rfl)
  refine Safe.bind (hX.ty_values _ _ 0 value sc (by rw [hv]; rfl) hpos) fun s hs =>
    ⟨_, hval s (hs.around hk₁), (X.tuple i).fits_cell hpos, ?_⟩
  have hk₂ := hk₁.set (hown _ hyin) ((X.tuple i).cell 0)
  refine Safe.bind rfl fun s hs => ?_
  -- the word that is there now is the first one assumed
  obtain ⟨v, hview, -⟩ := hs.view
  set x := v.tuples i.1 (X.place i)
  have hidx : s.vars.get? ns.idx = some (.word (X.place i)) :=
    hs.get? (by rw [Bindings.get?_set, if_neg (by grind), Bindings.get?_set, if_pos rfl])
  have hread : Evals .plain (X.context i) s (.element target sc (X.operator i.1).space (.ofName ns.idx)) (x.cell 0) :=
    .element (k := X.place i) (.ofName hidx (hX.place_fits i))
      ((hview.table i.1).column 0 target sc (by rw [ht]; rfl) hpos) (hX.inRange i)
  refine ⟨_, hread.sameBits (by rw [(x.fits_cell hpos).scalar_eq, Scalar.bytes_bitPattern]), Value.fits_ofBits _ _, ?_⟩
  have hk₃ := hk₂.set (hown _ hain) (.ofBits (x.cell 0).toBits sc.bitPattern)
  refine Safe.bind rfl fun _ _ => ⟨_, Evals.truth false, rfl, ?_⟩
  refine casRounds_safe hX hm hsc ht hint hnd hown (x := x) ⟨hk₃.set (hown _ hdin) _, ?_, ?_, ?_, ?_⟩
  · rw [Bindings.get?_set, if_neg (by grind), Bindings.get?_set, if_neg (by grind), Bindings.get?_set,
      if_neg (by grind), Bindings.get?_set, if_pos rfl]
  · rw [Bindings.get?_set, if_neg (by grind), Bindings.get?_set, if_neg (by grind), Bindings.get?_set, if_pos rfl]
  · rw [Bindings.get?_set, if_neg (by grind), Bindings.get?_set, if_pos rfl]
  · rw [Bindings.get?_set, if_pos rfl]

end CompareSwap

end Contention

end GpuHistogram
