/-
What code does, statement by statement. `Runs f L c l s Q` says that the form `f` of the statements `l` runs to its end
from the state `s`, into a state for which `Q` holds; one rule for each kind of statement gives what has to be shown.

`Runs.count`, `Runs.countKeeps`: a counting loop keeps an invariant indexed by its variable. `Runs.keeps` adds to what a
thread's code does that it leaves everything else alone.
-/
import GpuHistogram.Proofs.Uses
import GpuHistogram.Proofs.Values
import GpuHistogram.Proofs.Words

namespace GpuHistogram.Machine

variable {f : Form} {L : LaunchSpec → List Stmt → Exec Unit} {c : Context} {s t : State} {l l' : List Stmt}
  {Q R : State → Prop}

/-- the statements run to their end, into a state for which `Q` holds -/
def Runs (f : Form) (L : LaunchSpec → List Stmt → Exec Unit) (c : Context) (l : List Stmt) (s : State)
    (Q : State → Prop) : Prop :=
  ∃ t, execAll L c (f.block l) s = .ok () t ∧ Q t

/-! ## Values under changes -/

/-- an expression keeps its value when nothing that it reads changes -/
theorem Evals.keeps {e : Expr} {v : Value} {V W : List Name} (h : Evals f c s e v) (hk : Keeps V W s t)
    (hV : ∀ n ∈ e.scalars, n ∉ V) (hW : ∀ n ∈ e.arrays, s.memory.Apart W n) : Evals f c t e v := by
  unfold Evals at h ⊢
  rw [← h]
  exact eval_congr (fun n hn => hk.vars n (hV n (f.reads_expr e _ hn)))
    (fun n hn i => (hW n (f.reads_expr e _ hn)).read_eq hk.memory i) (.inr rfl)

/-- an expression keeps its value when another variable is set -/
theorem Evals.set {e : Expr} {v w : Value} {n : Name} (h : Evals f c s e v) (hn : n ∉ e.scalars) :
    Evals f c (s.set n w) e v :=
  h.keeps (Keeps.set (List.mem_singleton_self n) w (W := []))
    (fun _ hm hmem => hn (List.mem_singleton.1 hmem ▸ hm)) (fun _ _ _ hw => absurd hw List.not_mem_nil)

theorem Computes.keeps {e : Expr} {a : Int} {V W : List Name} (h : Computes f c s e a) (hk : Keeps V W s t)
    (hV : ∀ n ∈ e.scalars, n ∉ V) (hW : ∀ n ∈ e.arrays, s.memory.Apart W n) : Computes f c t e a :=
  ⟨h.ty, h.evals.keeps hk hV hW, h.fits, h.word.exact⟩

theorem Computes.set {e : Expr} {a : Int} {n : Name} {w : Value} (h : Computes f c s e a) (hn : n ∉ e.scalars) :
    Computes f c (s.set n w) e a :=
  ⟨h.ty, h.evals.set hn, h.fits, h.word.exact⟩

namespace Runs

theorem mono (h : Runs f L c l s Q) (hQ : ∀ t, Q t → R t) : Runs f L c l s R := by
  obtain ⟨t, ht, hq⟩ := h
  exact ⟨t, ht, hQ t hq⟩

theorem nil (h : Q s) : Runs f L c [] s Q :=
  ⟨s, by rw [f.block_nil, execAll_nil], h⟩

theorem append (h : Runs f L c l s fun t => Runs f L c l' t Q) : Runs f L c (l ++ l') s Q := by
  obtain ⟨t, ht, u, hu, hq⟩ := h
  exact ⟨u, by rw [f.block_append]; exact execAll_append_eq_ok.2 ⟨t, ht, hu⟩, hq⟩

theorem cons {x : Stmt} (h : Runs f L c [x] s fun t => Runs f L c l t Q) : Runs f L c (x :: l) s Q :=
  append (l := [x]) h

theorem single {x : Stmt} {t : State} (h : f.block [x] = [x]) (hx : exec L c x s = .ok () t) (hq : Q t) :
    Runs f L c [x] s Q :=
  ⟨t, by rw [h, execAll_singleton]; exact hx, hq⟩

/-- what a thread's code does, together with what it leaves alone -/
theorem keeps (h : Runs f L c l s Q) (hc : c.thread.isSome = true) :
    Runs f L c l s fun t => Q t ∧ Keeps (blockSets l) (blockStores l) s t := by
  obtain ⟨t, ht, hq⟩ := h
  exact ⟨t, ht, hq, (execAll_keeps hc ht).mono (f.uses_block _ _) (f.uses_block _ _)⟩

/-! ## Variables -/

theorem define {sc : Scalar} {n : Name} {e : Expr} {o : Origin} {v : Value} (he : Evals f c s e v)
    (hq : Q (s.set n (v.convert sc))) : Runs f L c [.define (.scalar sc) n e o] s Q := by
  refine ⟨_, ?_, hq⟩
  rw [f.block_define, execAll_singleton, exec]
  exact (bind_run (value_run he)).trans (setVar_run _ _)

/-- a new variable with the value of an expression of its type -/
theorem bind {sc : Scalar} {n : Name} {e : Expr} {v : Value} (hty : e.ty = .scalar sc) (he : Evals f c s e v)
    (hv : Value.Fits sc v) (h : Runs f L c l (s.set n v) Q) : Runs f L c (.bind n e :: l) s Q := by
  refine cons ?_
  unfold Stmt.bind
  rw [hty]
  exact define he (by rwa [hv.convert_eq])

/-- a new variable with a 64-bit value -/
theorem bindWord {n : Name} {e : Expr} {a : Int} (he : Computes f c s e a) (h : Runs f L c l (s.set n (.word a)) Q) :
    Runs f L c (.bind n e :: l) s Q :=
  bind he.ty he.evals (Value.fits_word (Scalar.wrap_i64 he.fits)) h

theorem storeVar {n : Name} {ty : Ty} {e : Expr} {v : Value} (he : Evals f c s e v)
    (h : Runs f L c l (s.set n (v.convert ty.elem)) Q) : Runs f L c (.store (.typed n ty) e :: l) s Q := by
  refine cons ⟨_, ?_, h⟩
  unfold Stmt.store
  rw [f.block_assign, execAll_singleton, exec, execAssign]
  rw [bind_run (value_run he)]
  cases f <;> exact setVar_run _ _

/-! ## Arrays -/

theorem storeElement {n : Name} {sc : Scalar} {sp : Space} {idx e : Expr} {v w old : Value} {k : ℕ} {m : Memory}
    (he : Evals f c s e v) (hidx : Evals f c s idx w) (hk : w.toInt64 = k)
    (hm : Memory.write n k v s.memory = .ok old m) (h : Runs f L c l { s with memory := m } Q) :
    Runs f L c (.store (.element n sc sp idx) e :: l) s Q := by
  refine cons ⟨_, ?_, h⟩
  have hdst : f.expr (.element n sc sp idx) = .element n sc sp (f.expr idx) := by
    cases f <;> rfl
  unfold Stmt.store
  rw [f.block_assign, hdst, execAll_singleton, exec, execAssign, bind_run (value_run he)]
  refine bind_eq_ok.2 ⟨n, s, rfl, bind_eq_ok.2 ⟨k, s, hk ▸ number_run hidx, ?_⟩⟩
  exact bind_eq_ok.2 ⟨_, _, onMemory_run hm, rfl⟩

/-- an element updated by a machine operation -/
theorem atomic {op : Atomic} {sp : Space} {sc : Scalar} {n : Name} {idx e : Expr} {o : Origin} {i v old new : Value}
    {k : ℕ} {m : Memory} (hidx : Evals f c s idx i) (hk : i.toInt64 = k) (he : Evals f c s e v)
    (hr : s.memory.read n k = .ok old) (hop : op.eval (old.convert sc) v sc = .ok new)
    (hm : Memory.write n k new s.memory = .ok old m) (h : Runs f L c l { s with memory := m } Q) :
    Runs f L c (.atomic op sp sc n idx e none o :: l) s Q := by
  refine cons ⟨_, ?_, h⟩
  rw [f.block_atomic, execAll_singleton, exec, execAtomic]
  refine bind_eq_ok.2 ⟨k, s, hk ▸ number_run hidx, bind_eq_ok.2 ⟨v, s, value_run he, ?_⟩⟩
  refine bind_eq_ok.2 ⟨old, s, observe_eq_ok.2 ⟨by rw [hr]; rfl, rfl⟩, ?_⟩
  refine bind_eq_ok.2 ⟨new, s, observe_eq_ok.2 ⟨by rw [hop]; rfl, rfl⟩, ?_⟩
  exact bind_eq_ok.2 ⟨_, _, onMemory_run hm, rfl⟩

/-- an element that has the expected bits is replaced -/
theorem compareSwap {r : Name} {sp : Space} {sc : Scalar} {n : Name} {idx cmp new : Expr} {o : Origin}
    {i x v old : Value} {k : ℕ} {m : Memory} (hidx : Evals f c s idx i) (hk : i.toInt64 = k)
    (hc : Evals f c s cmp x) (hn : Evals f c s new v) (hr : s.memory.read n k = .ok old)
    (heq : Value.ofBits old.toBits sc.bitPattern = .ofBits x.toBits sc.bitPattern)
    (hm : Memory.write n k (.ofBits v.toBits sc) s.memory = .ok old m)
    (h : Runs f L c l ({ s with memory := m }.set r (.ofBits old.toBits sc.bitPattern)) Q) :
    Runs f L c (.compareSwap r sp sc n idx cmp new o :: l) s Q := by
  refine cons ⟨_, ?_, h⟩
  rw [f.block_compareSwap, execAll_singleton, exec, execCompareSwap]
  refine bind_eq_ok.2 ⟨k, s, hk ▸ number_run hidx, bind_eq_ok.2 ⟨x, s, value_run hc, ?_⟩⟩
  refine bind_eq_ok.2 ⟨v, s, value_run hn, ?_⟩
  refine bind_eq_ok.2 ⟨old, s, observe_eq_ok.2 ⟨by rw [hr]; rfl, rfl⟩, ?_⟩
  dsimp only
  rw [if_pos heq]
  exact bind_eq_ok.2 ⟨_, _, onMemory_run hm, rfl⟩

/-! ## Several variables and several arrays

The lists of statements that generated code has for a tuple. `vals` lists what the expressions evaluate to, component by
component; evaluation may not depend on what the statements before have changed. -/

section Sequences

variable {α : Type} (name : α → Name) (e : α → Expr)

/-- new variables, one for each component -/
theorem binds (xs : List α) (vals : List Value) (hlen : xs.length = vals.length) (hnd : (xs.map name).Nodup)
    (hty : ∀ (i : ℕ) a v, xs[i]? = some a → vals[i]? = some v → ∃ sc, (e a).ty = .scalar sc ∧ Value.Fits sc v)
    (he : ∀ t, Keeps (xs.map name) [] s t → ∀ (i : ℕ) a v, xs[i]? = some a → vals[i]? = some v → Evals f c t (e a) v)
    (hq : ∀ t, Keeps (xs.map name) [] s t →
      (∀ (i : ℕ) a v, xs[i]? = some a → vals[i]? = some v → t.vars.get? (name a) = some v) → Q t) :
    Runs f L c (xs.map fun a => .bind (name a) (e a)) s Q := by
  induction xs generalizing s vals with
  | nil => exact nil (hq s (.refl _ _ _) (by simp))
  | cons a xs ih =>
    cases vals with
    | nil => simp at hlen
    | cons v vals =>
      rw [List.map_cons, List.nodup_cons] at hnd
      obtain ⟨sc, hsc, hv⟩ := hty 0 a v rfl rfl
      have hset : Keeps (name a :: xs.map name) [] s (s.set (name a) v) := .set (List.mem_cons_self ..) v
      have hsub {t : State} (ht : Keeps (xs.map name) [] (s.set (name a) v) t) : Keeps (name a :: xs.map name) [] s t :=
        hset.trans (ht.mono (List.subset_cons_self _ _) (List.Subset.refl _))
      refine bind hsc (he s (.refl _ _ _) 0 a v rfl rfl) hv ?_
      refine ih vals (by simpa using hlen) hnd.2 (fun i => hty (i + 1)) (fun t ht i => he t (hsub ht) (i + 1)) ?_
      intro t ht hvals
      refine hq t (hsub ht) fun i b w hb hw => ?_
      cases i with
      | zero =>
        cases hb
        cases hw
        rw [ht.vars _ hnd.1, State.get?_set, if_pos rfl]
      | succ i => exact hvals i b w hb hw

/-- values for variables of given types, one for each component -/
theorem storeVars (sc : α → Scalar) (xs : List α) (vals : List Value) (hlen : xs.length = vals.length)
    (hnd : (xs.map name).Nodup) (hty : ∀ (i : ℕ) a v, xs[i]? = some a → vals[i]? = some v → Value.Fits (sc a) v)
    (he : ∀ t, Keeps (xs.map name) [] s t → ∀ (i : ℕ) a v, xs[i]? = some a → vals[i]? = some v → Evals f c t (e a) v)
    (hq : ∀ t, Keeps (xs.map name) [] s t →
      (∀ (i : ℕ) a v, xs[i]? = some a → vals[i]? = some v → t.vars.get? (name a) = some v) → Q t) :
    Runs f L c (xs.map fun a => .store (.scalarVar (name a) (sc a)) (e a)) s Q := by
  induction xs generalizing s vals with
  | nil => exact nil (hq s (.refl _ _ _) (by simp))
  | cons a xs ih =>
    cases vals with
    | nil => simp at hlen
    | cons v vals =>
      rw [List.map_cons, List.nodup_cons] at hnd
      have hset : Keeps (name a :: xs.map name) [] s (s.set (name a) v) := .set (List.mem_cons_self ..) v
      have hsub {t : State} (ht : Keeps (xs.map name) [] (s.set (name a) v) t) : Keeps (name a :: xs.map name) [] s t :=
        hset.trans (ht.mono (List.subset_cons_self _ _) (List.Subset.refl _))
      refine storeVar (he s (.refl _ _ _) 0 a v rfl rfl) ?_
      change Runs f L c _ (s.set (name a) (v.convert (sc a))) Q
      rw [(hty 0 a v rfl rfl).convert_eq]
      refine ih vals (by simpa using hlen) hnd.2 (fun i => hty (i + 1)) (fun t ht i => he t (hsub ht) (i + 1)) ?_
      intro t ht hvals
      refine hq t (hsub ht) fun i b w hb hw => ?_
      cases i with
      | zero =>
        cases hb
        cases hw
        rw [ht.vars _ hnd.1, State.get?_set, if_pos rfl]
      | succ i => exact hvals i b w hb hw

/-- values for the elements at one index of several arrays -/
theorem storeElements (sc : α → Scalar) (sp : Space) (idx : Expr) {k : ℕ} (len : ℕ → ℕ)
    (xs : List α) (vals : List Value) (g : ℕ → ℕ → Value) (hlen : xs.length = vals.length)
    (hk : ∀ i < xs.length, k < len i)
    (hcol : ∀ (i : ℕ) a, xs[i]? = some a → s.memory.Column (name a) (sc a) (len i) (g i))
    (hap : (xs.map name).Pairwise fun n n' => ∀ p, s.memory.names.get? n = some p → s.memory.names.get? n' ≠ some p)
    (hidx : ∀ t, Keeps [] (xs.map name) s t → Computes f c t idx k)
    (he : ∀ t, Keeps [] (xs.map name) s t → ∀ (i : ℕ) a v, xs[i]? = some a → vals[i]? = some v → Evals f c t (e a) v)
    (hq : ∀ t, Keeps [] (xs.map name) s t → (∀ (i : ℕ) a v, xs[i]? = some a → vals[i]? = some v →
      t.memory.Column (name a) (sc a) (len i) (Function.update (g i) k (v.convert (sc a)))) → Q t) :
    Runs f L c (xs.map fun a => .store (.element (name a) (sc a) sp idx) (e a)) s Q := by
  induction xs generalizing s vals g len with
  | nil => exact nil (hq s (.refl _ _ _) (by simp))
  | cons a xs ih =>
    cases vals with
    | nil => simp at hlen
    | cons v vals =>
      rw [List.map_cons, List.pairwise_cons] at hap
      have h0 := hidx s (.refl _ _ _)
      obtain ⟨m, hm, hcol'⟩ := (hcol 0 a rfl).write (hk 0 (by simp)) v
      have hw : Memory.Keeps [name a] s.memory m := .write hm (List.mem_singleton_self _)
      have hset : Keeps [] (name a :: xs.map name) s { s with memory := m } :=
        ⟨fun _ _ => rfl, hw.mono (by simp), rfl⟩
      have hsub {t : State} (ht : Keeps [] (xs.map name) { s with memory := m } t) :
          Keeps [] (name a :: xs.map name) s t :=
        hset.trans (ht.mono (List.Subset.refl _) (List.subset_cons_self _ _))
      refine storeElement (he s (.refl _ _ _) 0 a v rfl rfl) h0.evals (Value.toInt64_word h0.fits) hm ?_
      refine ih (fun i => len (i + 1)) vals (fun i => g (i + 1)) (by simpa using hlen)
        (fun i hi => hk (i + 1) (by simpa using hi)) (fun i b hb => ?_) ?_ (fun t ht => hidx t (hsub ht))
        (fun t ht i => he t (hsub ht) (i + 1)) ?_
      · refine (hcol (i + 1) b hb).keeps hw fun w hwm p hp => ?_
        rw [List.mem_singleton.1 hwm]
        intro hpa
        exact hap.1 (name b) (List.mem_map_of_mem (List.mem_of_getElem? hb)) p hpa hp
      · simp only [hw.names]
        exact hap.2
      · intro t ht hvals
        refine hq t (hsub ht) fun i b w hb hv => ?_
        cases i with
        | zero =>
          cases hb
          cases hv
          refine hcol'.keeps ht.memory fun w hwm p hp => ?_
          simp only [hw.names] at hp ⊢
          exact hap.1 w hwm p hp
        | succ i => exact hvals i b w hb hv

end Sequences

/-! ## Conditionals and blocks -/

/-- a conditional does what its branch does, also where it is folded into the branch -/
theorem execAll_ifElse {cond : Expr} {thn els : List Stmt} {o : Origin} {v : Value} (hv : Evals f c s cond v) :
    execAll L c (f.block [.ifElse cond thn els o]) s = execAll L c (f.block (if v.truth then thn else els)) s := by
  have hif (e : Expr) (he : eval c s e = .ok v) :
      execAll L c [.ifElse e (f.block thn) (f.block els) o] s = execAll L c (f.block (if v.truth then thn else els)) s := by
    rw [execAll_singleton, exec, bind_run (holds_run he)]
    cases v.truth <;> rfl
  cases f with
  | plain => exact hif cond hv
  | folded =>
    change execAll L c (foldBlock [.ifElse cond thn els o]) s = _
    change eval c s cond.fold = _ at hv
    simp only [foldBlock, Stmt.fold, List.append_nil]
    split
    · rename_i hcond
      rw [hcond] at hv
      cases hv
      rfl
    · rename_i hcond
      rw [hcond] at hv
      cases hv
      rfl
    · exact hif _ hv

theorem ifElse {cond : Expr} {thn els : List Stmt} {o : Origin} {v : Value} (hv : Evals f c s cond v)
    (h : Runs f L c (if v.truth then thn else els) s Q) : Runs f L c [.ifElse cond thn els o] s Q := by
  obtain ⟨t, ht, hq⟩ := h
  exact ⟨t, (execAll_ifElse hv).trans ht, hq⟩

theorem ifThen {cond : Expr} {thn : List Stmt} {b : Bool} (hv : Evals f c s cond (.bool b))
    (ht : b = true → Runs f L c thn s Q) (he : b = false → Q s) : Runs f L c [.ifThen cond thn] s Q := by
  refine ifElse hv ?_
  cases b
  · exact nil (he rfl)
  · exact ht rfl

theorem block (h : Runs f L c l s Q) : Runs f L c [.block l] s Q := by
  obtain ⟨t, ht, hq⟩ := h
  refine ⟨t, ?_, hq⟩
  unfold Stmt.block
  rw [f.block_scope, execAll_singleton, exec]
  exact ht

theorem fence {sp : Space} {o : Origin} (h : Runs f L c l s Q) : Runs f L c (.fence sp o :: l) s Q := by
  refine cons (single (f.block_fence sp o) ?_ h)
  rw [exec]
  rfl

/-! ## Loops -/

/-- a loop whose body runs once -/
theorem once {cond : Expr} {o : Origin} {v w : Value} (hlim : 0 < c.rounds) (hc : Evals f c s cond v)
    (hv : v.truth = true) (h : Runs f L c l s fun t => Evals f c t cond w ∧ Q t) (hw : w.truth = false) :
    Runs f L c [.whileLoop cond l o] s Q := by
  obtain ⟨t, ht, hct, hq⟩ := h
  refine ⟨t, ?_, hq⟩
  rw [f.block_whileLoop, execAll_singleton, exec]
  obtain ⟨left, hleft⟩ := Nat.exists_eq_add_one.2 hlim
  rw [hleft, iterate_succ_eq_ok]
  refine ⟨true, s, hv ▸ holds_run hc, t, ht, ?_⟩
  have hend := holds_run hct
  rw [hw] at hend
  cases left with
  | zero => exact iterate_zero_eq_ok.2 hend
  | succ left => exact iterate_succ_eq_ok.2 ⟨false, t, hend, rfl⟩

/-- a counting loop keeps an invariant that is indexed by its variable -/
theorem count {n : Name} {init bound : Expr} {lo hi : ℕ} (I : ℕ → State → Prop) (hinit : Computes f c s init lo)
    (hle : lo ≤ hi) (hlim : hi - lo ≤ c.rounds)
    (hbound : ∀ i t, lo ≤ i → i ≤ hi → I i t → t.vars.get? n = some (.word i) → Computes f c t bound hi)
    (hbody : ∀ i t, lo ≤ i → i < hi → I i t → t.vars.get? n = some (.word i) →
      Runs f L c l t fun u => u.vars.get? n = some (.word i) ∧ I (i + 1) (u.set n (.word (i + 1 : ℕ))))
    (hs : I lo (s.set n (.word lo))) (hq : ∀ t, I hi t → Q t) : Runs f L c [.count n init bound l] s Q := by
  unfold Stmt.count Stmt.countBy
  have hfit : Word64.fits (hi : Int) = true :=
    (hbound lo _ (Nat.le_refl _) hle hs (by simp)).fits
  have hfits (i : ℕ) (hi' : i ≤ hi) : Word64.fits (i : Int) = true := by
    rw [Word64.fits_iff] at hfit ⊢
    omega
  have hloop : ∃ t, iterate (holds c (f.expr ((Expr.ofName n).lt bound)))
      (execAll L c (f.block l) >>= fun _ => value c (f.expr (.ofName n + 1)) >>= fun v => setVar n (v.convert .i64))
      c.loopLimit .unknown c.rounds (s.set n (.word lo)) = .ok () t ∧
        (t.vars.get? n = some (.word (lo + (hi - lo) : ℕ)) ∧ I (lo + (hi - lo)) t) := by
    refine iterate_ends (fun i t => t.vars.get? n = some (.word (lo + i : ℕ)) ∧ I (lo + i) t) ?_ ?_ c.rounds 0
      (s.set n (.word lo)) (Nat.zero_le _) (by omega) ⟨by simp, hs⟩
    · intro i t hle' ⟨hn, hI⟩
      have hb := hbound (lo + i) t (by omega) (by omega) hI hn
      have hlt := Evals.lt (.ofName hn (hfits _ (by omega))) hb
      rw [holds_run hlt]
      simp only [Value.truth, EStateM.Result.ok.injEq, and_true, decide_eq_decide]
      omega
    · intro i t hlt ⟨hn, hI⟩
      obtain ⟨u, hu, hun, hIu⟩ := hbody (lo + i) t (by omega) (by omega) hI hn
      have hone : Computes f c u 1 (1 : ℕ) := .one
      have hnext := (Computes.ofName hun (hfits _ (by omega))).addNat hone (hfits (lo + i + 1) (by omega))
      refine ⟨u.set n (.word (lo + i + 1 : ℕ)), ?_, by simp [Nat.add_assoc], hIu⟩
      rw [bind_run hu, bind_run (value_run hnext.evals), Value.convert_word hnext.fits]
      rfl
  obtain ⟨t, ht, -, hI⟩ := hloop
  refine ⟨t, ?_, hq t (by rwa [Nat.add_sub_cancel' hle] at hI)⟩
  rw [f.block_forLoop, execAll_singleton, exec, bind_run (value_run hinit.evals)]
  refine bind_eq_ok.2 ⟨(), _, setVar_run n _, ?_⟩
  change iterate _ _ _ _ _ (s.set n ((Value.word lo).convert .i64)) = _
  rw [Value.convert_word hinit.fits]
  exact ht

/-- a counting loop of a thread: besides its invariant, all that the body leaves alone stays -/
theorem countKeeps {n : Name} {init bound : Expr} {lo hi : ℕ} (I : ℕ → State → Prop) (hc : c.thread.isSome = true)
    (hinit : Computes f c s init lo) (hb : Computes f c s bound hi) (hle : lo ≤ hi) (hlim : hi - lo ≤ c.rounds)
    (hn : n ∉ blockSets l) (hV : ∀ m ∈ bound.scalars, m ∉ n :: blockSets l) (hW : bound.arrays = [])
    (hset : ∀ i t w, I i t → I i (t.set n w))
    (hbody : ∀ i t, lo ≤ i → i < hi → Keeps (n :: blockSets l) (blockStores l) s t →
      t.vars.get? n = some (.word i) → I i t → Runs f L c l t (I (i + 1)))
    (hs : I lo s) (hq : ∀ t, I hi t → Keeps (n :: blockSets l) (blockStores l) s t → Q t) :
    Runs f L c [.count n init bound l] s Q := by
  refine count (fun i t => I i t ∧ Keeps (n :: blockSets l) (blockStores l) s t) hinit hle hlim
    (fun i t _ _ hI _ => hb.keeps hI.2 hV (by simp [hW])) (fun i t hlo hhi hI hi => ?_)
    ⟨hset _ _ _ hs, .set (List.mem_cons_self ..) _⟩ (fun t hI => hq t hI.1 hI.2)
  refine ((hbody i t hlo hhi hI.2 hi hI.1).keeps hc).mono fun u ⟨hu, hku⟩ => ?_
  refine ⟨(hku.vars n hn).trans hi, hset _ _ _ hu, ?_⟩
  exact (hI.2.trans (hku.mono (List.subset_cons_self _ _) (List.Subset.refl _))).trans
    (.set (List.mem_cons_self ..) _)

end Runs

end GpuHistogram.Machine
