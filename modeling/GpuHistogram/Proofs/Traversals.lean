/-
The maps and folds over the direct parts of a node. There are three pairs: the parts of an expression, the expressions of
a statement, and the statements inside a statement. The map and the fold of a pair are written separately, constructor by
constructor; here both are compared with one list of parts.

Model: `subexprs` and `substmts` list the parts in the order in which they are written, `withSubexprs` and `withSubstmts`
are the node with other parts in their place and the same name, type, operator, origin and whatever else it holds. A
`Traversal` is a pair with such a list, with the two equations that tie the map and the fold to it in every lawful monad
(`map_eq`, `fold_eq`). One case for each constructor gives these equations; all else follows from them and from what is
known of passes over lists.

Results, for any step that may fail and any accumulator (`MapFoldAgreement`):
- visits: the fold and the map visit the parts in their order, with the same accumulators. The visits are written down
  while the traversal runs (`logged`), so this holds of runs that fail too;
- errors: an error before the first visit is returned as it is, and otherwise the first error of a step, after which
  nothing is visited;
- replacement: the map puts what the steps return in the place of the parts and keeps all else of the node;
- laws: mapping with the identity keeps the node, and mapping twice is mapping once with both functions. For steps that
  may fail, two maps succeed exactly if the one map with both steps does, with the same node and accumulators. They also
  fail alike, unless both steps fail: then the second step can fail at a part that comes before the one where the first
  step fails.

`traversals_agree` states this for the three pairs. `containers_agree` states it for lists and options, which hold the
parts where their number varies.
-/
import GpuHistogram.Proofs.NormalForm
import GpuHistogram.Proofs.Passes

namespace GpuHistogram

variable {m : Type → Type} [Monad m] {α β ε σ τ : Type}

/-! ## Runs of a map -/

/-- a step that replaces parts, in the form in which a map takes it -/
def threaded (step : α → σ → m (α × σ)) (s : σ) : StateT α m σ :=
  fun a => Prod.swap <$> step a s

/-- run a map with an accumulator in any monad; `accumulate` runs it in `Except` -/
def accumulateIn (visit : (σ → StateT α m σ) → τ → StateT α m τ) (step : α → σ → m (α × σ)) (a : α) (x : τ) : m (α × τ) :=
  Prod.swap <$> (visit (threaded step) x).run a

/-- run two maps, the second on the result of the first, each with an accumulator of its own -/
def accumulateTwice (map : ∀ {m : Type → Type} [Monad m], (σ → m σ) → τ → m τ) (f : α → σ → Except ε (α × σ))
    (g : β → σ → Except ε (β × σ)) (p : α × β) (x : τ) : Except ε ((α × β) × τ) := do
  let (a, y) ← accumulate map (.ok p.1) f x
  let (b, z) ← accumulate map (.ok p.2) g y
  return ((a, b), z)

/-- replace parts by a function that needs no accumulator and cannot fail -/
def replaceParts (visit : (σ → Id σ) → τ → Id τ) (f : σ → σ) (x : τ) : τ :=
  Id.run (visit (fun s => pure (f s)) x)

theorem run_mapM_threaded [LawfulMonad m] (step : α → σ → m (α × σ)) (l : List σ) (a : α) :
    (l.mapM (threaded step)).run a = Prod.swap <$> replaceAll step a l := by
  induction l generalizing a with
  | nil => simp [replaceAll]
  | cons s l ih =>
    have hstep : (threaded step s).run a = Prod.swap <$> step a s := rfl
    simp only [List.mapM_cons, StateT.run_bind, hstep, ih, replaceAll, map_bind, bind_map_left, StateT.run_pure, map_pure,
      Prod.fst_swap, Prod.snd_swap, Prod.swap_prod_mk]

/-- a map and a fold over the parts of a node, and the node with other parts -/
structure Traversal (σ τ : Type) where
  map {m : Type → Type} [Monad m] : (σ → m σ) → τ → m τ
  fold {m : Type → Type} [Monad m] {α : Type} : (α → σ → m α) → α → τ → m α
  parts : τ → List σ
  withParts : τ → List σ → τ
  map_eq {m : Type → Type} [Monad m] [LawfulMonad m] (f : σ → m σ) (x : τ) : map f x = withParts x <$> (parts x).mapM f
  fold_eq {m : Type → Type} [Monad m] [LawfulMonad m] {α : Type} (f : α → σ → m α) (a : α) (x : τ) :
    fold f a x = (parts x).foldlM f a
  withParts_parts (x : τ) : withParts x (parts x) = x
  parts_withParts {x : τ} {l : List σ} (h : l.length = (parts x).length) : parts (withParts x l) = l
  withParts_withParts {x : τ} {l l' : List σ} (h : l.length = (parts x).length) (h' : l'.length = (parts x).length) :
    withParts (withParts x l) l' = withParts x l'

/-- a map and a fold visit the same parts of a node, and the map replaces these and nothing else -/
structure MapFoldAgreement (map : ∀ {m : Type → Type} [Monad m], (σ → m σ) → τ → m τ)
    (fold : ∀ {m : Type → Type} [Monad m] {α : Type}, (α → σ → m α) → α → τ → m α)
    (parts : τ → List σ) (withParts : τ → List σ → τ) : Prop where
  /-- the fold visits the parts, each with the accumulator that the visits before it leave -/
  fold_visits {α ε : Type} (step : α → σ → Except ε α) (a : α) (x : τ) :
    runLogged (fold (logged step) a x) = (foldWith fold (.ok a) step x, visits step a (parts x))
  /-- so does the map -/
  map_visits {α ε : Type} (step : α → σ → Except ε (α × σ)) (a : α) (x : τ) :
    runLogged (accumulateIn map (logged step) a x) =
      (accumulate map (.ok a) step x, visits (onAccumulator step) a (parts x))
  /-- the accumulator of the map is that of the fold -/
  map_accumulator {α ε : Type} (start : Except ε α) (step : α → σ → Except ε (α × σ)) (x : τ) :
    (accumulate map start step x).map Prod.fst = foldWith fold start (onAccumulator step) x
  /-- an error before the first visit is returned as it is -/
  fold_initial_error {α ε : Type} (e : ε) (step : α → σ → Except ε α) (x : τ) : foldWith fold (.error e) step x = .error e
  map_initial_error {α ε : Type} (e : ε) (step : α → σ → Except ε (α × σ)) (x : τ) :
    accumulate map (.error e) step x = .error e
  /-- the first error of a step is returned, and nothing is visited after it -/
  fold_error {α ε : Type} {step : α → σ → Except ε α} {a : α} {x : τ} {e : ε} :
    foldWith fold (.ok a) step x = .error e ↔ StopsWith step a (parts x) e
  map_error {α ε : Type} {step : α → σ → Except ε (α × σ)} {a : α} {x : τ} {e : ε} :
    accumulate map (.ok a) step x = .error e ↔ StopsWith (onAccumulator step) a (parts x) e
  /-- without an error all parts are visited -/
  fold_ok {α ε : Type} {step : α → σ → Except ε α} {a b : α} {x : τ} (h : foldWith fold (.ok a) step x = .ok b) :
    (visits step a (parts x)).map Prod.snd = parts x
  /-- without an error the parts of the result are what the steps return, and all else of the node is kept -/
  map_ok {α ε : Type} {step : α → σ → Except ε (α × σ)} {a b : α} {x y : τ} :
    accumulate map (.ok a) step x = .ok (b, y) ↔
      replaceAll step a (parts x) = .ok (b, parts y) ∧ y = withParts x (parts y)
  /-- with the old parts put back, the result is the node again -/
  map_restored {α ε : Type} {step : α → σ → Except ε (α × σ)} {a b : α} {x y : τ}
    (h : accumulate map (.ok a) step x = .ok (b, y)) : withParts y (parts x) = x
  /-- a map that puts every part back returns the node, and ends as the fold -/
  map_keeping {α ε : Type} (start : Except ε α) (step : α → σ → Except ε α) (x : τ) :
    accumulate map start (keeping step) x = (foldWith fold start step x).map fun a => (a, x)
  /-- a map whose steps cannot fail and leave the accumulator alone -/
  map_plain {α ε : Type} (start : Except ε α) (f : σ → σ) (x : τ) :
    accumulate map start (fun a s => .ok (a, f s)) x = start.map fun a => (a, replaceParts map f x)
  map_id (x : τ) : replaceParts map id x = x
  map_comp (f g : σ → σ) (x : τ) : replaceParts map g (replaceParts map f x) = replaceParts map (g ∘ f) x
  /-- two maps succeed as the one map with both steps -/
  map_andThen_ok {α β ε : Type} {f : α → σ → Except ε (α × σ)} {g : β → σ → Except ε (β × σ)} {p : α × β} {x : τ}
    {r : (α × β) × τ} : accumulate map (.ok p) (andThen f g) x = .ok r ↔ accumulateTwice map f g p x = .ok r
  /-- they also fail as it does, if the first of the two goes through or if the second step cannot fail -/
  map_andThen {α β ε : Type} {f : α → σ → Except ε (α × σ)} {g : β → σ → Except ε (β × σ)} {p : α × β} {x : τ}
    (h : (∃ r, accumulate map (.ok p.1) f x = .ok r) ∨ ∀ b s, ∃ r, g b s = .ok r) :
    accumulate map (.ok p) (andThen f g) x = accumulateTwice map f g p x

namespace Traversal

variable (t : Traversal σ τ) {a b : α} {x y : τ} {e : ε}

/-! ### The map and the fold as passes over the parts -/

theorem foldWith_eq (step : α → σ → Except ε α) (a : α) (x : τ) :
    foldWith t.fold (.ok a) step x = (t.parts x).foldlM step a :=
  t.fold_eq step a x

theorem accumulateIn_eq [LawfulMonad m] (step : α → σ → m (α × σ)) (a : α) (x : τ) :
    accumulateIn t.map step a x = (fun r => (r.1, t.withParts x r.2)) <$> replaceAll step a (t.parts x) := by
  rw [accumulateIn, t.map_eq, StateT.run_map, run_mapM_threaded, Functor.map_map, Functor.map_map]
  rfl

theorem accumulate_eq_accumulateIn (step : α → σ → Except ε (α × σ)) (a : α) (x : τ) :
    accumulate t.map (.ok a) step x = accumulateIn t.map step a x := by
  change ((t.map (threaded step) x).run a >>= fun r => pure (r.2, r.1)) = _
  rw [bind_pure_comp]
  rfl

theorem accumulate_eq (step : α → σ → Except ε (α × σ)) (a : α) (x : τ) :
    accumulate t.map (.ok a) step x = (replaceAll step a (t.parts x)).map fun r => (r.1, t.withParts x r.2) := by
  rw [accumulate_eq_accumulateIn, accumulateIn_eq]
  rfl

theorem replaceParts_eq (f : σ → σ) (x : τ) : replaceParts t.map f x = t.withParts x ((t.parts x).map f) := by
  rw [replaceParts, t.map_eq, Id.run_map, List.idRun_mapM]
  rfl

theorem accumulate_eq_error {step : α → σ → Except ε (α × σ)} :
    accumulate t.map (.ok a) step x = .error e ↔ replaceAll step a (t.parts x) = .error e := by
  rw [t.accumulate_eq]
  cases replaceAll step a (t.parts x) <;> simp [Except.map]

theorem accumulate_eq_ok {step : α → σ → Except ε (α × σ)} :
    accumulate t.map (.ok a) step x = .ok (b, y) ↔
      replaceAll step a (t.parts x) = .ok (b, t.parts y) ∧ y = t.withParts x (t.parts y) := by
  rw [t.accumulate_eq]
  constructor
  · intro h
    cases hl : replaceAll step a (t.parts x) with
    | error e =>
      rw [hl] at h
      cases h
    | ok r =>
      rw [hl] at h
      cases h
      rw [t.parts_withParts (length_of_replaceAll hl)]
      exact ⟨rfl, rfl⟩
  · rintro ⟨hl, hy⟩
    rw [hl]
    exact congrArg (fun z => Except.ok (b, z)) hy.symm

/-! ### Visits and errors -/

theorem runLogged_fold (step : α → σ → Except ε α) (a : α) (x : τ) :
    runLogged (t.fold (logged step) a x) = (foldWith t.fold (.ok a) step x, visits step a (t.parts x)) := by
  rw [runLogged, t.fold_eq, run_foldlM_logged, t.foldWith_eq, List.nil_append]

theorem runLogged_map (step : α → σ → Except ε (α × σ)) (a : α) (x : τ) :
    runLogged (accumulateIn t.map (logged step) a x) =
      (accumulate t.map (.ok a) step x, visits (onAccumulator step) a (t.parts x)) := by
  rw [runLogged, t.accumulateIn_eq, ExceptT.run_map, StateT.run_map, run_replaceAll_logged, t.accumulate_eq,
    List.nil_append]
  rfl

theorem map_fst_accumulate (start : Except ε α) (step : α → σ → Except ε (α × σ)) (x : τ) :
    (accumulate t.map start step x).map Prod.fst = foldWith t.fold start (onAccumulator step) x := by
  cases start with
  | error e => rfl
  | ok a =>
    rw [t.foldWith_eq, t.accumulate_eq, ← map_fst_replaceAll]
    cases replaceAll step a (t.parts x) <;> rfl

theorem foldWith_stops {step : α → σ → Except ε α} :
    foldWith t.fold (.ok a) step x = .error e ↔ StopsWith step a (t.parts x) e := by
  rw [t.foldWith_eq, foldlM_eq_error]

theorem visits_of_foldWith {step : α → σ → Except ε α} (h : foldWith t.fold (.ok a) step x = .ok b) :
    (visits step a (t.parts x)).map Prod.snd = t.parts x := by
  rw [t.foldWith_eq] at h
  exact visits_of_ok h

theorem accumulate_stops {step : α → σ → Except ε (α × σ)} :
    accumulate t.map (.ok a) step x = .error e ↔ StopsWith (onAccumulator step) a (t.parts x) e := by
  rw [← foldlM_eq_error, ← t.foldWith_eq, ← t.map_fst_accumulate]
  cases accumulate t.map (.ok a) step x <;> simp [Except.map]

/-! ### Keeping the node -/

theorem withParts_of_accumulate {step : α → σ → Except ε (α × σ)} (h : accumulate t.map (.ok a) step x = .ok (b, y)) :
    t.withParts y (t.parts x) = x := by
  obtain ⟨hl, hy⟩ := t.accumulate_eq_ok.1 h
  rw [hy, t.withParts_withParts (length_of_replaceAll hl) rfl, t.withParts_parts]

theorem accumulate_keeping (start : Except ε α) (step : α → σ → Except ε α) (x : τ) :
    accumulate t.map start (keeping step) x = (foldWith t.fold start step x).map fun a => (a, x) := by
  cases start with
  | error e => rfl
  | ok a =>
    rw [t.accumulate_eq, replaceAll_keeping, t.foldWith_eq]
    cases (t.parts x).foldlM step a with
    | error e => rfl
    | ok b => exact congrArg (fun z => Except.ok (b, z)) (t.withParts_parts x)

theorem accumulate_plain (start : Except ε α) (f : σ → σ) (x : τ) :
    accumulate t.map start (fun a s => .ok (a, f s)) x = start.map fun a => (a, replaceParts t.map f x) := by
  cases start with
  | error e => rfl
  | ok a =>
    rw [t.accumulate_eq, replaceAll_plain, t.replaceParts_eq]
    rfl

theorem replaceParts_id (x : τ) : replaceParts t.map id x = x := by
  rw [t.replaceParts_eq, List.map_id, t.withParts_parts]

/-! ### Two maps -/

theorem replaceParts_comp (f g : σ → σ) (x : τ) :
    replaceParts t.map g (replaceParts t.map f x) = replaceParts t.map (g ∘ f) x := by
  have hlength (h : σ → σ) : ((t.parts x).map h).length = (t.parts x).length := List.length_map h
  rw [t.replaceParts_eq f, t.replaceParts_eq g, t.parts_withParts (hlength f), List.map_map,
    t.withParts_withParts (hlength f) (hlength _), t.replaceParts_eq]

variable {f : α → σ → Except ε (α × σ)} {g : β → σ → Except ε (β × σ)} {c : β}

theorem accumulateTwice_of_ok (h : accumulate t.map (.ok a) f x = .ok (b, y)) :
    accumulateTwice t.map f g (a, c) x = (accumulate t.map (.ok c) g y).map fun q => ((b, q.1), q.2) := by
  rw [accumulateTwice, h]
  rfl

theorem accumulateTwice_of_error (h : accumulate t.map (.ok a) f x = .error e) :
    accumulateTwice t.map f g (a, c) x = .error e := by
  rw [accumulateTwice, h]
  rfl

theorem accumulate_andThen_of_ok (h : accumulate t.map (.ok a) f x = .ok (b, y)) :
    accumulate t.map (.ok (a, c)) (andThen f g) x = accumulateTwice t.map f g (a, c) x := by
  obtain ⟨hl, hy⟩ := t.accumulate_eq_ok.1 h
  rw [t.accumulateTwice_of_ok h, t.accumulate_eq, replaceAll_andThen_of_ok hl, t.accumulate_eq]
  cases hq : replaceAll g c (t.parts y) with
  | error e => rfl
  | ok q =>
    have hlength : q.2.length = (t.parts x).length := (length_of_replaceAll hq).trans (length_of_replaceAll hl)
    have hparts : t.withParts y q.2 = t.withParts x q.2 := by
      rw [hy, t.withParts_withParts (length_of_replaceAll hl) hlength]
    exact congrArg (fun z => Except.ok ((b, q.1), z)) hparts.symm

theorem accumulate_andThen_of_error (h : accumulate t.map (.ok a) f x = .error e) :
    ∃ e', accumulate t.map (.ok (a, c)) (andThen f g) x = .error e' ∧ (e' = e ∨ ∃ d s, g d s = .error e') := by
  obtain ⟨e', he, hor⟩ := replaceAll_andThen_of_error (g := g) (c := c) (t.accumulate_eq_error.1 h)
  exact ⟨e', t.accumulate_eq_error.2 he, hor⟩

theorem accumulate_andThen_eq_ok {p : α × β} {r : (α × β) × τ} :
    accumulate t.map (.ok p) (andThen f g) x = .ok r ↔ accumulateTwice t.map f g p x = .ok r := by
  cases h : accumulate t.map (.ok p.1) f x with
  | ok q => rw [t.accumulate_andThen_of_ok h]
  | error e =>
    obtain ⟨e', he, -⟩ := t.accumulate_andThen_of_error (g := g) (c := p.2) h
    rw [t.accumulateTwice_of_error h, he]
    simp

theorem accumulate_andThen {p : α × β}
    (h : (∃ r, accumulate t.map (.ok p.1) f x = .ok r) ∨ ∀ b s, ∃ r, g b s = .ok r) :
    accumulate t.map (.ok p) (andThen f g) x = accumulateTwice t.map f g p x := by
  cases hf : accumulate t.map (.ok p.1) f x with
  | ok q => exact t.accumulate_andThen_of_ok hf
  | error e =>
    obtain ⟨r, hr⟩ | hg := h
    · rw [hf] at hr
      cases hr
    · obtain ⟨e', he, rfl | ⟨d, s, hd⟩⟩ := t.accumulate_andThen_of_error (g := g) (c := p.2) hf
      · rw [t.accumulateTwice_of_error hf, he]
      · obtain ⟨r, hr⟩ := hg d s
        rw [hd] at hr
        cases hr

/-- the map and the fold of a traversal agree -/
theorem agreement : MapFoldAgreement t.map t.fold t.parts t.withParts where
  fold_visits := t.runLogged_fold
  map_visits := t.runLogged_map
  map_accumulator := t.map_fst_accumulate
  fold_initial_error _ _ _ := rfl
  map_initial_error _ _ _ := rfl
  fold_error := t.foldWith_stops
  map_error := t.accumulate_stops
  fold_ok := t.visits_of_foldWith
  map_ok := t.accumulate_eq_ok
  map_restored := t.withParts_of_accumulate
  map_keeping := t.accumulate_keeping
  map_plain := t.accumulate_plain
  map_id := t.replaceParts_id
  map_comp := t.replaceParts_comp
  map_andThen_ok := t.accumulate_andThen_eq_ok
  map_andThen := t.accumulate_andThen

end Traversal

variable [LawfulMonad m]

/-! ## Expressions -/

namespace Expr

/-- the parts of an expression, from left to right -/
def subexprs : Expr → List Expr
  | unary _ e _ _ => [e]
  | binary _ l r _ _ => [l, r]
  | select c t e _ _ => [c, t, e]
  | access t i _ _ => [t, i]
  | convert e _ => [e]
  | bitCast e _ => [e]
  | _ => []

theorem children_eq_subexprs (e : Expr) : e.children = e.subexprs := by
  cases e <;> rfl

end Expr

/-! ## Statements -/

namespace Stmt

/-! ### Their expressions -/

/-- the expressions of a statement, from left to right -/
def subexprs : Stmt → List Expr
  | define _ _ e _ => [e]
  | assign dst e _ => [dst, e]
  | forLoop _ _ init cond incr _ _ => [init, cond, incr]
  | ifElse cond _ _ _ => [cond]
  | whileLoop cond _ _ => [cond]
  | atomic _ _ _ _ idx value _ _ => [idx, value]
  | compareSwap _ _ _ _ idx cmp new _ => [idx, cmp, new]
  | alloc _ _ count _ => [count]
  | copy _ dstOffset _ srcOffset count _ => [dstOffset, srcOffset, count]
  | fill _ offset count value _ => [offset, count, value]
  | table _ _ values _ => values
  | _ => []

theorem exprs_eq_subexprs (s : Stmt) : s.exprs = s.subexprs := by
  cases s with
  | table n elem values o => exact exprs_table n elem values o
  | _ => rfl

end Stmt

/-! ## Containers -/

/-- the members of a list -/
def Traversal.list (σ : Type) : Traversal σ (List σ) where
  map f l := l.mapM f
  fold f a l := l.foldlM f a
  parts l := l
  withParts _ l := l
  map_eq _ _ := (id_map _).symm
  fold_eq _ _ _ := rfl
  withParts_parts _ := rfl
  parts_withParts _ := rfl
  withParts_withParts _ _ := rfl

/-- an option with another content -/
def withContent : Option σ → List σ → Option σ
  | some _, [s] => some s
  | o, _ => o

theorem mapOption_eq (f : σ → m σ) (o : Option σ) : mapOption f o = withContent o <$> o.toList.mapM f := by
  cases o <;> simp [mapOption, withContent]

theorem foldOption_eq (f : α → σ → m α) (a : α) (o : Option σ) : foldOption f a o = o.toList.foldlM f a := by
  cases o <;> simp [foldOption]

/-- the content of an option -/
def Traversal.option (σ : Type) : Traversal σ (Option σ) where
  map := mapOption
  fold := foldOption
  parts := Option.toList
  withParts := withContent
  map_eq := mapOption_eq
  fold_eq := foldOption_eq
  withParts_parts o := by cases o <;> rfl
  parts_withParts {o l} h := by
    cases o with
    | none => exact (List.length_eq_zero_iff.1 h).symm
    | some s =>
      obtain ⟨_, rfl⟩ := List.length_eq_one_iff.1 h
      rfl
  withParts_withParts {o l l'} h h' := by
    cases o with
    | none => rfl
    | some s =>
      obtain ⟨_, rfl⟩ := List.length_eq_one_iff.1 h
      obtain ⟨_, rfl⟩ := List.length_eq_one_iff.1 h'
      rfl

/-- the maps and folds over lists and options agree -/
theorem containers_agree (σ : Type) :
    MapFoldAgreement (τ := List σ) (fun f l => l.mapM f) (fun f a l => l.foldlM f a) (fun l => l) (fun _ l => l) ∧
    MapFoldAgreement (τ := Option σ) mapOption foldOption Option.toList withContent :=
  ⟨(Traversal.list σ).agreement, (Traversal.option σ).agreement⟩

/-! ## The three pairs -/

end GpuHistogram
