/-
Why the steps of a thread are safe, statement by statement. The states that a thread can meet in a phase differ in what
the others have done; a rule asks for the value of an expression in all of them, and goes on with what is left to run.
`Safe.binds`, `Safe.storeVars` and `Safe.apply` are the rules for the lists of statements that update code has for a
tuple.
-/
import GpuHistogram.Proofs.Contention

namespace GpuHistogram

open Machine

namespace Machine

variable {L : LaunchSpec → List Stmt → Exec Unit} {c : Context} {s t : State} {x : Stmt}

/-- what a statement does that runs to its end in one way -/
theorem exec_of_runs (h : Runs .plain L c [x] s fun u => u = t) : exec L c x s = .ok () t := by
  obtain ⟨u, hu, rfl⟩ := h
  rwa [Form.block, execAll_singleton] at hu

section CompareSwap

variable {r n : Name} {sp : Space} {sc : Scalar} {idx cmp new : Expr} {o : Origin} {i y v old : Value} {k : ℕ}

/-- an element that has other bits than the expected ones is found and stays -/
theorem exec_compareSwap_found (hidx : Evals .plain c s idx i) (hk : i.toInt64 = k) (hc : Evals .plain c s cmp y)
    (hn : Evals .plain c s new v) (hr : s.memory.read n k = .ok old)
    (hne : Value.ofBits old.toBits sc.bitPattern ≠ .ofBits y.toBits sc.bitPattern) :
    exec L c (.compareSwap r sp sc n idx cmp new o) s = .ok () (s.set r (.ofBits old.toBits sc.bitPattern)) := by
  rw [exec, execCompareSwap]
  refine bind_eq_ok.2 ⟨k, s, hk ▸ number_run hidx, bind_eq_ok.2 ⟨y, s, value_run hc, ?_⟩⟩
  refine bind_eq_ok.2 ⟨v, s, value_run hn, ?_⟩
  refine bind_eq_ok.2 ⟨old, s, observe_eq_ok.2 ⟨by rw [hr]; rfl, rfl⟩, ?_⟩
  dsimp only
  rw [if_neg hne]
  exact setVar_run _ _

theorem swapped?_eq (hidx : Evals .plain c s idx i) (hk : i.toInt64 = k) (hc : Evals .plain c s cmp y)
    (hr : s.memory.read n k = .ok old) : swapped? c s sc n idx cmp =
      if Value.ofBits old.toBits sc.bitPattern = .ofBits y.toBits sc.bitPattern then some (k : Int) else none := by
  have hi : evalInt c s idx = .ok k := by
    rw [evalInt, show eval c s idx = .ok i from hidx, ← hk]
    rfl
  unfold swapped?
  rw [hi, show eval c s cmp = .ok y from hc]
  change (s.memory.read n k).toOption.bind _ = _
  rw [hr]
  rfl

end CompareSwap

/-- the variables differ in the named ones only -/
def SameBut (V : List Name) (b b' : Bindings Value) : Prop :=
  ∀ n, n ∉ V → b'.get? n = b.get? n

namespace SameBut

variable {V V' : List Name} {b b' b'' : Bindings Value}

theorem refl (V : List Name) (b : Bindings Value) : SameBut V b b := fun _ _ => rfl

theorem trans (h : SameBut V b b') (h' : SameBut V b' b'') : SameBut V b b'' :=
  fun n hn => (h' n hn).trans (h n hn)

theorem mono (h : SameBut V b b') (hV : V ⊆ V') : SameBut V' b b' := fun n hn => h n fun hm => hn (hV hm)

theorem set {n : Name} (hn : n ∈ V) (b : Bindings Value) (v : Value) : SameBut V b (b.set n v) := fun m hm => by
  rw [Bindings.get?_set, if_neg]
  rintro rfl
  exact hm hn

theorem holds {ns : List Name} {vs : List Value} {m m' : Memory} (h : SameBut V b b')
    (hh : Holds { vars := b, memory := m } ns vs) (hns : ∀ n ∈ ns, n ∉ V) :
    Holds { vars := b', memory := m' } ns vs := fun i n v hn hv =>
  (h n (hns n (List.mem_of_getElem? hn))).trans (hh i n v hn hv)

end SameBut

end Machine

namespace Contention

variable {κ : Type} {J : κ → Type} {X : Contention κ J} [Fintype κ] {i : X.Thread} {n : ℕ}
  {ph : Phase (X.TupleOf i.1)} {vars : Bindings Value} {rest : List Stmt}

/-- the states that the thread can be in, in a phase and with its variables -/
structure Meets (i : X.Thread) (ph : Phase (X.TupleOf i.1)) (vars : Bindings Value) (s : State) : Prop where
  same : s = { vars := vars, memory := s.memory }
  view : ∃ v : X.View, X.Shows v s.memory ∧ Sees i v ph

theorem Meets.vars_eq {s : State} (h : Meets i ph vars s) : s.vars = vars := by
  rw [h.same]

theorem Meets.keeps {s : State} (h : Meets i ph vars s) : Memory.Keeps X.written X.memory s.memory := by
  obtain ⟨v, hv, -⟩ := h.view
  exact hv.keeps

/-- the statement neither takes a lock nor gives one back -/
def isLocal : Stmt → Bool
  | .compareSwap .. | .atomic .. => false
  | _ => true

theorem heldAfter_of_isLocal {c : Context} {table : Name} {s : State} {held : Option Int} {x : Stmt}
    (hx : isLocal x = true) : heldAfter c table s held (x :: rest) = held := by
  cases x <;> first | rfl | cases hx

namespace Safe

variable [DecidableEq κ]

/-- a step that leaves memory alone -/
theorem silent {x : Stmt} (hx : isLocal x = true)
    (h : ∀ s, Meets i ph vars s → ∃ code vars',
      advance (X.context i) (x :: rest) s = .ok code { s with vars := vars' } ∧ Safe i n ph ⟨vars', code⟩) :
    Safe i (n + 1) ph ⟨vars, x :: rest⟩ := by
  refine .inr ⟨List.cons_ne_nil _ _, fun v m hv hs => ?_⟩
  obtain ⟨code, vars', hadv, hnext⟩ := h { vars := vars, memory := m } ⟨rfl, v, hv, hs⟩
  exact ⟨code, _, v, ph, hadv, hv, .idle, heldAfter_of_isLocal hx, hnext⟩

/-- a statement that gives a variable a value -/
theorem set {x : Stmt} (hx : isLocal x = true) (hc : isCompound x = false) {m : Name}
    (h : ∀ s, Meets i ph vars s → ∃ w, exec noLaunch (X.context i) x s = .ok () (s.set m w) ∧
      Safe i n ph ⟨vars.set m w, rest⟩) : Safe i n ph ⟨vars, x :: rest⟩ := by
  refine (silent hx fun s hs => ?_).pred
  obtain ⟨w, hw, hnext⟩ := h s hs
  exact ⟨rest, _, advance_simple hc hw, by rw [hs.vars_eq]; exact hnext⟩

/-- a step that only takes a compound statement apart -/
theorem unfold {x : Stmt} (hx : isLocal x = true) {code : List Stmt}
    (hadv : ∀ s, Meets i ph vars s → advance (X.context i) (x :: rest) s = .ok code s) (h : Safe i n ph ⟨vars, code⟩) :
    Safe i (n + 1) ph ⟨vars, x :: rest⟩ :=
  silent hx fun s hs => ⟨code, s.vars, hadv s hs, by rw [hs.vars_eq]; exact h⟩

/-- a new variable; what its value is may depend on what others have done -/
theorem bind {sc : Scalar} {m : Name} {e : Expr} (hty : e.ty = .scalar sc)
    (h : ∀ s, Meets i ph vars s → ∃ w, Evals .plain (X.context i) s e w ∧ w.Fits sc ∧ Safe i n ph ⟨vars.set m w, rest⟩) :
    Safe i n ph ⟨vars, .bind m e :: rest⟩ :=
  set rfl rfl fun s hs => by
    obtain ⟨w, hw, hfits, hnext⟩ := h s hs
    exact ⟨w, exec_of_runs (Runs.bind hty hw hfits (Runs.nil rfl)), hnext⟩

theorem storeVar {ty : Ty} {m : Name} {e : Expr} {w : Value}
    (he : ∀ s, Meets i ph vars s → Evals .plain (X.context i) s e w)
    (h : Safe i n ph ⟨vars.set m (w.convert ty.elem), rest⟩) : Safe i n ph ⟨vars, .store (.typed m ty) e :: rest⟩ :=
  set rfl rfl fun s hs => ⟨_, exec_of_runs (Runs.storeVar (he s hs) (Runs.nil rfl)), h⟩

theorem block {body : List Stmt} (h : Safe i n ph ⟨vars, body ++ rest⟩) : Safe i n ph ⟨vars, .block body :: rest⟩ :=
  (unfold rfl (fun _ _ => rfl) h).pred

theorem fence {sp : Space} {o : Origin} (h : Safe i n ph ⟨vars, rest⟩) : Safe i n ph ⟨vars, .fence sp o :: rest⟩ :=
  (unfold rfl (fun _ _ => rfl) h).pred

theorem ifElse {cond : Expr} {thn els : List Stmt} {o : Origin} {b : Bool}
    (hc : ∀ s, Meets i ph vars s → Evals .plain (X.context i) s cond (.bool b))
    (h : Safe i n ph ⟨vars, (if b then thn else els) ++ rest⟩) : Safe i n ph ⟨vars, .ifElse cond thn els o :: rest⟩ :=
  (unfold rfl (fun s hs => advance_ifElse (holds_run (hc s hs))) h).pred

/-- the loop of a thread can go on for one more step than what it goes on with -/
theorem whileLoop {cond : Expr} {body : List Stmt} {o : Origin} {b : Bool}
    (hc : ∀ s, Meets i ph vars s → Evals .plain (X.context i) s cond (.bool b))
    (h : Safe i n ph ⟨vars, if b then body ++ .whileLoop cond body o :: rest else rest⟩) :
    Safe i (n + 1) ph ⟨vars, .whileLoop cond body o :: rest⟩ :=
  unfold rfl (fun s hs => advance_whileLoop (holds_run (hc s hs))) h

/-- statements that give variables values, one for each component of a tuple -/
theorem sets {α : Type} (stmt : α → Stmt) (name : α → Name) (xs : List α) (vals : List Value)
    (hloc : ∀ a, isLocal (stmt a) = true) (hsimple : ∀ a, isCompound (stmt a) = false) (hlen : xs.length = vals.length)
    (hnd : (xs.map name).Nodup)
    (hx : ∀ vars' s, SameBut (xs.map name) vars vars' → Meets i ph vars' s → ∀ (j : ℕ) a w, xs[j]? = some a →
      vals[j]? = some w → exec noLaunch (X.context i) (stmt a) s = .ok () (s.set (name a) w))
    (h : ∀ vars', SameBut (xs.map name) vars vars' →
      (∀ (j : ℕ) a w, xs[j]? = some a → vals[j]? = some w → vars'.get? (name a) = some w) → Safe i n ph ⟨vars', rest⟩) :
    Safe i n ph ⟨vars, xs.map stmt ++ rest⟩ := by
  induction xs generalizing vars vals with
  | nil => exact h vars (.refl _ _) (by simp)
  | cons a xs ih =>
    cases vals with
    | nil => simp at hlen
    | cons w vals =>
      rw [List.map_cons, List.nodup_cons] at hnd
      have hset : SameBut (name a :: xs.map name) vars (vars.set (name a) w) := .set (List.mem_cons_self ..) _ w
      have hsub {vars' : Bindings Value} (hb : SameBut (xs.map name) (vars.set (name a) w) vars') :
          SameBut (name a :: xs.map name) vars vars' := hset.trans (hb.mono (List.subset_cons_self _ _))
      refine set (hloc a) (hsimple a) fun s hs => ⟨w, hx vars s (.refl _ _) hs 0 a w rfl rfl, ?_⟩
      refine ih vals (by simpa using hlen) hnd.2 (fun vars' s hb hs j => hx vars' s (hsub hb) hs (j + 1))
        fun vars' hb hvals => h vars' (hsub hb) fun j b w' hb' hw' => ?_
      cases j with
      | zero =>
        cases hb'
        cases hw'
        rw [hb _ hnd.1, Bindings.get?_set, if_pos rfl]
      | succ j => exact hvals j b w' hb' hw'

section Tuples

variable {α : Type} (name : α → Name) (e : α → Expr) (xs : List α) (vals : List Value)

/-- new variables, one for each component -/
theorem binds (hlen : xs.length = vals.length) (hnd : (xs.map name).Nodup)
    (hty : ∀ (j : ℕ) a w, xs[j]? = some a → vals[j]? = some w → ∃ sc, (e a).ty = .scalar sc ∧ Value.Fits sc w)
    (he : ∀ vars' s, SameBut (xs.map name) vars vars' → Meets i ph vars' s → ∀ (j : ℕ) a w, xs[j]? = some a →
      vals[j]? = some w → Evals .plain (X.context i) s (e a) w)
    (h : ∀ vars', SameBut (xs.map name) vars vars' →
      (∀ (j : ℕ) a w, xs[j]? = some a → vals[j]? = some w → vars'.get? (name a) = some w) → Safe i n ph ⟨vars', rest⟩) :
    Safe i n ph ⟨vars, xs.map (fun a => .bind (name a) (e a)) ++ rest⟩ := by
  refine sets _ name xs vals (fun _ => rfl) (fun _ => rfl) hlen hnd (fun vars' s hb hs j a w ha hw => ?_) h
  obtain ⟨sc, hsc, hfits⟩ := hty j a w ha hw
  exact exec_of_runs (Runs.bind hsc (he vars' s hb hs j a w ha hw) hfits (Runs.nil rfl))

/-- values for variables of given types, one for each component -/
theorem storeVars (sc : α → Scalar) (hlen : xs.length = vals.length) (hnd : (xs.map name).Nodup)
    (hty : ∀ (j : ℕ) a w, xs[j]? = some a → vals[j]? = some w → Value.Fits (sc a) w)
    (he : ∀ vars' s, SameBut (xs.map name) vars vars' → Meets i ph vars' s → ∀ (j : ℕ) a w, xs[j]? = some a →
      vals[j]? = some w → Evals .plain (X.context i) s (e a) w)
    (h : ∀ vars', SameBut (xs.map name) vars vars' →
      (∀ (j : ℕ) a w, xs[j]? = some a → vals[j]? = some w → vars'.get? (name a) = some w) → Safe i n ph ⟨vars', rest⟩) :
    Safe i n ph ⟨vars, xs.map (fun a => .store (.scalarVar (name a) (sc a)) (e a)) ++ rest⟩ := by
  refine sets _ name xs vals (fun _ => rfl) (fun _ => rfl) hlen hnd (fun vars' s hb hs j a w ha hw => ?_) h
  refine exec_of_runs (Runs.storeVar (he vars' s hb hs j a w ha hw) (Runs.nil ?_))
  change s.set (name a) (w.convert (sc a)) = _
  rw [(hty j a w ha hw).convert_eq]

end Tuples

/-- **Applying a combiner.** The combined tuple ends up in the given variables. -/
theorem apply {ss : List Scalar} {F : Combiner} (hF : F.Typed ss) (combine : Tuple ss → Tuple ss → Tuple ss)
    (x y : Tuple ss) {args : List Expr} {outs : List Name} (houts : outs.length = ss.length)
    (hlen : args.length = ss.length + ss.length) (hnd : (F.names ++ outs).Nodup)
    (hty : ∀ (j : ℕ) e sc, args[j]? = some e → (ss ++ ss)[j]? = some sc → e.ty = .scalar sc)
    (hargs : ∀ vars' s, SameBut F.names vars vars' → Meets i ph vars' s →
      AllEval .plain (X.context i) s args (x.cells ++ y.cells))
    (hres : ∀ vars' s, SameBut (F.names ++ outs) vars vars' → Meets i ph vars' s →
      F.Yields .plain (X.context i) s combine)
    (h : ∀ vars', SameBut (F.names ++ outs) vars vars' → Holds { vars := vars' } outs (combine x y).cells →
      Safe i n ph ⟨vars', rest⟩) : Safe i n ph ⟨vars, F.apply args outs :: rest⟩ := by
  have hK := hF.length_params
  have hdisj := List.disjoint_of_nodup_append hnd
  have hargNames : (F.params.zip args).map (fun a => a.1.1) = F.names :=
    map_zip_fst (fun a : Name × Scalar => a.1) (by rw [hK, hlen])
  have houtNames : ((F.results.zip outs).zip F.params).map (fun a => a.1.2) = outs := by
    rw [map_zip_fst (fun a : Expr × Name => a.2) (by rw [List.length_zip, hK, hF.results, houts]; omega),
      map_zip_snd (fun a : Name => a) (by rw [hF.results, houts]), List.map_id']
  rw [Combiner.apply, hF.body]
  refine block ?_
  rw [List.append_nil, List.append_assoc]
  -- the parameters
  refine binds (fun a : (Name × Scalar) × Expr => a.1.1) (fun a => a.2.castIfNeeded a.1.2) (F.params.zip args)
    (x.cells ++ y.cells) (by rw [List.length_zip, hK, hlen, x.length_append, Nat.min_self]) (by rw [hargNames]; exact hF.nodup) ?_ ?_ ?_
  · intro j a w ha hw
    rw [List.getElem?_zip_eq_some] at ha
    have hsc := hF.param ha.1
    exact ⟨_, by rw [Expr.castIfNeeded_of_ty (hty j _ _ ha.2 hsc)]; exact hty j _ _ ha.2 hsc, x.fits_append y hsc hw⟩
  · intro vars' s hb hs j a w ha hw
    rw [hargNames] at hb
    rw [List.getElem?_zip_eq_some] at ha
    rw [Expr.castIfNeeded_of_ty (hty j _ _ ha.2 (hF.param ha.1))]
    exact hargs vars' s hb hs j _ w ha.2 hw
  intro vars₁ hb₁ hparams
  rw [hargNames] at hb₁
  have hholds (m : Memory) : Holds { vars := vars₁, memory := m } F.names (x.cells ++ y.cells) := by
    intro j m w hm hw
    rw [Combiner.names, List.getElem?_map, Option.map_eq_some_iff] at hm
    obtain ⟨p, hp, rfl⟩ := hm
    have hj : j < args.length := by
      rw [hlen, ← hK]
      exact (List.getElem?_eq_some_iff.1 hp).1
    exact hparams j (p, args[j]) w (List.getElem?_zip_eq_some.2 ⟨hp, List.getElem?_eq_getElem hj⟩) hw
  have hall {vars' : Bindings Value} (hb : SameBut outs vars₁ vars') : SameBut (F.names ++ outs) vars vars' :=
    (hb₁.mono (List.subset_append_left _ _)).trans (hb.mono (List.subset_append_right _ _))
  have hindex {j : ℕ} {w : Value} (hw : (combine x y).cells[j]? = some w) : j < ss.length := by
    rw [← (combine x y).length_eq]
    exact (List.getElem?_eq_some_iff.1 hw).1
  -- the results
  refine storeVars (fun a : (Expr × Name) × (Name × Scalar) => a.1.2) (fun a => a.1.1) ((F.results.zip outs).zip F.params)
    (combine x y).cells (fun a => a.2.2) ?_ (by rw [houtNames]; exact hnd.of_append_right) ?_ ?_ ?_
  · rw [List.length_zip, List.length_zip, hK, hF.results, houts, (combine x y).length_eq]
    omega
  · intro j a w ha hw
    rw [List.getElem?_zip_eq_some] at ha
    have hsc := hF.param ha.2
    rw [List.getElem?_append_left (hindex hw)] at hsc
    exact (combine x y).fits j _ w hsc hw
  · intro vars' s hb hs j a w ha hw
    rw [houtNames] at hb
    rw [List.getElem?_zip_eq_some, List.getElem?_zip_eq_some] at ha
    refine hres vars' s (hall hb) hs x y ?_ j _ w ha.1.1 hw
    rw [hs.same]
    exact hb.holds (hholds s.memory) hdisj
  · intro vars' hb houtsHold
    rw [houtNames] at hb
    refine h vars' (hall hb) fun j m w hm hw => ?_
    have hj := hindex hw
    have hr : F.results[j]? = some (F.results.get ⟨j, by rw [hF.results]; exact hj⟩) := List.getElem?_eq_getElem _
    have hp : F.params[j]? = some (F.params.get ⟨j, by rw [hK]; omega⟩) := List.getElem?_eq_getElem _
    exact houtsHold j ((_, m), _) w (List.getElem?_zip_eq_some.2 ⟨List.getElem?_zip_eq_some.2 ⟨hr, hm⟩, hp⟩) hw

end Safe

end Contention

end GpuHistogram
