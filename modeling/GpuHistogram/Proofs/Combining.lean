/-
What an update does to memory, whatever the operator. The combiner of an operator may define variables of its own and
read arrays, and need not be commutative. The code that is generated for the operator, by the method that is chosen for
it, stores at an address what the combiner gives for the tuple there and the new values, and changes no other element of
an array; the locks are free again afterwards (`Operator.update_stores`).

Where the combiner is evaluated the code has set variables and taken a lock. `Runs.defines_congr`: definitions of
variables run as they would have run before, as long as they read nothing of that.

The loops in which an update is attempted need one round. Where no loop may make any, an update that takes one fails
(`update_needs_round`).
-/
import GpuHistogram.Proofs.Method
import GpuHistogram.Proofs.Regular

namespace GpuHistogram

open Machine

/-! ## Definitions of variables -/

/-- the statement defines a variable of an element type -/
def Stmt.Defines (x : Stmt) : Prop := ∃ sc n e o, x = .define (.scalar sc) n e o

namespace Machine

variable {f : Form} {L : LaunchSpec → List Stmt → Exec Unit} {c : Context} {s t : State} {l : List Stmt}
  {Q : State → Prop} {V W : List Name}

/-- states that differ in some variables and arrays still do so when one variable is set in both -/
theorem Keeps.set_both (h : Keeps V W s t) (n : Name) (v : Value) : Keeps V W (s.set n v) (t.set n v) :=
  ⟨fun m hm => by rw [State.get?_set, State.get?_set, h.vars m hm], h.memory, h.launched⟩

theorem Runs.of_define {sc : Scalar} {n : Name} {e : Expr} {o : Origin}
    (h : Runs f L c (.define (.scalar sc) n e o :: l) s Q) :
    ∃ v, Evals f c s e v ∧ Runs f L c l (s.set n (v.convert sc)) Q := by
  obtain ⟨t, ht, hq⟩ := h
  have hblock : f.block (.define (.scalar sc) n e o :: l) = .define (.scalar sc) n (f.expr e) o :: f.block l := by
    rw [← List.singleton_append, f.block_append, f.block_define, List.singleton_append]
  rw [hblock, execAll_cons_eq_ok] at ht
  obtain ⟨u, hu, ht⟩ := ht
  rw [exec] at hu
  obtain ⟨v, w, hvalue, hset⟩ := bind_eq_ok.1 hu
  obtain ⟨hv, rfl⟩ := value_eq_ok.1 hvalue
  rw [setVar_eq_ok.1 hset] at ht
  exact ⟨v, hv, t, ht, hq⟩

/-- definitions run in a state as they do in another, if they read nothing in which the states differ -/
theorem Runs.defines_congr (hl : ∀ x ∈ l, x.Defines) (hk : Keeps V W s t)
    (hV : ∀ n ∈ blockUses (.reads .scalar) l, n ∉ V) (hW : ∀ n ∈ blockUses (.reads .array) l, s.memory.Apart W n)
    (h : Runs f L c l s Q) : Runs f L c l t fun u =>
      Keeps (blockSets l) [] t u ∧ ∃ u', Q u' ∧ Keeps V W u' u ∧ u'.memory = s.memory := by
  induction l generalizing s t with
  | nil =>
    obtain ⟨u, hu, hq⟩ := h
    rw [f.block_nil, execAll_nil] at hu
    cases hu
    exact Runs.nil ⟨.refl _ _ _, s, hq, hk, rfl⟩
  | cons x l ih =>
    obtain ⟨sc, n, e, o, rfl⟩ := hl x (List.mem_cons_self ..)
    simp only [blockUses_cons, Stmt.uses, Use.among, List.flatMap_cons, List.flatMap_nil, List.append_nil,
      List.mem_append] at hV hW
    obtain ⟨v, hv, hrest⟩ := h.of_define
    have hv' : Evals f c t e v := hv.keeps hk (fun m hm => hV m (.inl hm)) fun m hm => hW m (.inl hm)
    refine Runs.cons (.define hv' ?_)
    refine (ih (fun y hy => hl y (List.mem_cons_of_mem _ hy)) (hk.set_both n (v.convert sc))
      (fun m hm => hV m (.inr hm)) (fun m hm => hW m (.inr hm)) hrest).mono fun u hu => ⟨?_, hu.2⟩
    refine (Keeps.set ?_ (v.convert sc)).trans (hu.1.mono ?_ (List.Subset.refl _))
    · simp [Stmt.uses, Use.among]
    · simp [Stmt.uses, Use.among]

end Machine

/-! ## Combiners that only define variables -/

namespace Combiner

variable {f : Form} {L : LaunchSpec → List Stmt → Exec Unit} {c : Context} {s t : State} {F : Combiner}
  {ss : List Scalar}

/-- the names that a combiner reads in a role -/
def reads (F : Combiner) (r : Role) : List Name := blockUses (.reads r) F.body ++ F.results.flatMap (·.reads r)

/-- the combiner fits two tuples and one, its results have the element types, and its statements define variables -/
structure Straight (F : Combiner) (ss : List Scalar) : Prop extends F.Shaped ss where
  defines : ∀ x ∈ F.body, x.Defines
  types : F.results.map (·.ty) = ss.map .scalar

/-- the combiner gives `zs` for the values `vs` where it is evaluated on its own, without a fault -/
def Returns (F : Combiner) (f : Form) (L : LaunchSpec → List Stmt → Exec Unit) (c : Context) (s : State)
    (vs zs : List Value) : Prop :=
  Runs f L c F.body (s.setAll F.names vs) fun t => AllEval f c t F.results zs

/-- what a combiner gives on its own it also gives where variables and arrays have changed that it does not read -/
theorem Straight.gives {x y : Tuple ss} {zs : List Value} {V W : List Name} (hF : F.Straight ss) (hk : Keeps V W s t)
    (hV : ∀ n ∈ F.reads .scalar, n ∉ V) (hW : ∀ n ∈ F.reads .array, s.memory.Apart W n)
    (h : F.Returns f L c s (x.cells ++ y.cells) zs) : F.Gives f L c V t (x.cells ++ y.cells) zs := by
  intro u hu hvals
  have hlen : F.names.length = (x.cells ++ y.cells).length := by
    rw [x.length_append, names, List.length_map, hF.length_params]
  have hstart : Keeps V W (s.setAll F.names (x.cells ++ y.cells)) u := by
    refine ⟨fun n hn => ?_, ?_, ?_⟩
    · by_cases hmem : n ∈ F.names
      · exact (hvals.get?_setAll hlen hmem).symm
      · rw [State.get?_setAll hmem, hu.vars n hmem, hk.vars n hn]
    · rw [State.memory_setAll]
      exact hk.memory.trans (hu.memory.mono (List.nil_subset _))
    · rw [State.launched_setAll, hu.launched, hk.launched]
  refine (h.defines_congr hF.defines hstart (fun n hn => hV n (List.mem_append_left _ hn)) fun n hn => ?_).mono ?_
  · rw [State.memory_setAll]
    exact hW n (List.mem_append_left _ hn)
  · rintro w ⟨hw, w', hres, hww, hmem⟩
    refine ⟨hw, fun w'' hw'' i e v he hv => (hres i e v he hv).keeps
      (hww.trans (hw''.mono (List.Subset.refl _) (List.nil_subset _))) (fun n hn => hV n ?_) fun n hn => ?_⟩
    · exact List.mem_append_right _ (List.mem_flatMap.2 ⟨e, List.mem_of_getElem? he, hn⟩)
    · rw [hmem, State.memory_setAll]
      exact hW n (List.mem_append_right _ (List.mem_flatMap.2 ⟨e, List.mem_of_getElem? he, hn⟩))

end Combiner

/-! ## The update -/

/-- the table from which updates by the method take locks -/
def UpdateMethod.table? : UpdateMethod → Option LockTable
  | .locked tb => some tb
  | _ => none

/-- the method that is chosen for an operator fits it -/
theorem Operator.suits_of_chooseMethod {op : Operator} {old table : Option LockTable} {create : Fresh LockTable}
    {method : UpdateMethod} {j j' : ℕ} (h : op.chooseMethod old create j = ((table, method), j')) :
    method.Suits op method.table? := by
  unfold Operator.chooseMethod at h
  cases hp : op.primitive? with
  | some a =>
    rw [hp] at h
    cases h
    exact hp
  | none =>
    cases hs : op.swappable? with
    | some sc =>
      rw [hp, hs] at h
      cases h
      exact hs
    | none =>
      rw [hp, hs] at h
      cases old <;> cases h <;> rfl

/-- an update changes no element but those at its address of its targets -/
theorem Memory.read_stored {m m' : Memory} {targets : List Name} {ss : List Scalar} {a locks : ℕ} {x z : Tuple ss}
    {g : ℕ → Value} (table : Option LockTable) (hrow : m.Row targets ss a x)
    (hk : Memory.Keeps (lockNames table ++ targets) m m') (hs : Memory.Stored targets ss a z m m')
    (hold : ∀ tb, table = some tb → m.Column tb.name .i32 locks g)
    (hnew : ∀ tb, table = some tb → m'.Column tb.name .i32 locks g) {n : Name} {i : Int}
    (hi : i = a → m.Apart targets n) : m'.read n i = m.read n i := by
  by_cases ht : m.Apart targets n
  · by_cases hl : m.Apart (lockNames table) n
    · refine Memory.Apart.read_eq (fun w hw => ?_) hk i
      exact (List.mem_append.1 hw).elim (hl w) (ht w)
    · simp only [Memory.Apart, not_forall, not_not] at hl
      obtain ⟨w, hw, p, hn, hp⟩ := hl
      obtain ⟨tb, htb, rfl⟩ : ∃ tb, table = some tb ∧ tb.name = w := by simpa [lockNames] using hw
      have hold' := (hold tb htb).alias (hn.trans hp.symm)
      have hnew' := (hnew tb htb).alias (w := n) (by rw [hk.names, hn, hp])
      exact hnew'.read_congr hold' fun _ _ _ => rfl
  · have hne : i ≠ a := fun h => ht (hi h)
    simp only [Memory.Apart, not_forall, not_not] at ht
    obtain ⟨w, hw, p, hn, hp⟩ := ht
    obtain ⟨j, hj⟩ := List.mem_iff_getElem?.1 hw
    have hlt : j < ss.length := hrow.length_eq ▸ (List.getElem?_eq_some_iff.1 hj).1
    have hsc := List.getElem?_eq_getElem hlt
    obtain ⟨len, g', hcol, -, -⟩ := hrow.column j w _ hj hsc
    have hold' := hcol.alias (hn.trans hp.symm)
    have hnew' := (hs j w _ len g' hj hsc hcol).alias (w := n) (by rw [hk.names, hn, hp])
    refine hnew'.read_congr hold' fun k _ hk => ?_
    rw [Function.update_of_ne]
    rintro rfl
    exact hne hk.symm

/-- a table of so many locks, all free, is an array of its own; fresh names are drawn from `k` on -/
structure LockTable.Free (tb : LockTable) (f : Form) (c : Context) (s : State) (k locks : ℕ) (others : List Name) :
    Prop where
  pos : 0 < locks
  column : s.memory.Column tb.name .i32 locks fun _ => .int unlocked .i32
  count : Computes f c s tb.count locks
  before : ∀ n ∈ tb.count.scalars, n.Before k
  apart : ∀ n ∈ others, s.memory.Apart [tb.name] n

section Update

variable {op : Operator} {old table : Option LockTable} {create : Fresh LockTable} {method : UpdateMethod}
  {j j' k a : ℕ} {sp : Space} {targets : List Name} {addr : Expr} {values : List Expr} {f : Form}
  {L : LaunchSpec → List Stmt → Exec Unit} {c : Context} {s : State} {x y z : Tuple op.scalars}

/-- **An update.** The method chosen for an operator stores at the address what the combiner gives, changes no other
element of an array, and leaves the locks free. -/
theorem Operator.update_stores (locks : ℕ) (hmethod : op.chooseMethod old create j = ((table, method), j'))
    (hF : op.combiner.Straight op.scalars) (hvalues : values.map (·.ty) = op.scalars.map .scalar)
    (hnames : ∀ n ∈ op.combiner.locals ++ op.combiner.reads .scalar ++ values.flatMap (·.scalars), n.Before k)
    (hlim : 0 < c.rounds) (hrow : s.memory.Row targets op.scalars a x) (haddr : Computes f c s addr a)
    (hval : AllEval f c s values y.cells) (hz : op.combiner.Returns f L c s (x.cells ++ y.cells) z.cells)
    (hbits : ∀ v ∈ x.cells ++ z.cells, v.scalar.isFloat = true → Value.ofBits v.toBits v.scalar = v)
    (hfree : ∀ tb, method.table? = some tb → tb.Free f c s k locks (targets ++ op.combiner.reads .array)) :
    ∃ u k', op.updateCode method sp targets addr values k = some (u, k') ∧ Runs f L c [u] s fun t =>
      t.memory.Row targets op.scalars a z ∧
      (∀ n (i : Int), (i = a → s.memory.Apart targets n) → t.memory.read n i = s.memory.read n i) ∧
      ∀ tb, method.table? = some tb → t.memory.Column tb.name .i32 locks fun _ => .int unlocked .i32 := by
  have hsuits := op.suits_of_chooseMethod hmethod
  have hlen : values.length = op.dests.length := by
    have h := congrArg List.length hvalues
    rwa [List.length_map, List.length_map, op.length_scalars] at h
  have hscalars (sc : Scalar) (hop : op.swappable? = some sc) : op.scalars = [sc] := by
    obtain ⟨d, hd, rfl, -⟩ := op.scalars_of_swappable? hop
    rw [Operator.scalars, hd]
    rfl
  have hround (sc : Scalar) (hop : op.swappable? = some sc) (w : Tuple op.scalars)
      (hw : w.cells ⊆ x.cells ++ z.cells) : Value.ofBits (w.cell 0).toBits sc = w.cell 0 := by
    have hfits : (w.cell 0).Fits sc := w.fits_cell (by rw [hscalars sc hop]; rfl)
    cases hfloat : sc.isFloat with
    | false => exact Value.ofBits_toBits hfits (op.isInteger_of_swappable? hop hfloat)
    | true =>
      have hmem : w.cell 0 ∈ x.cells ++ z.cells := hw (by rw [w.cells_of_single (hscalars sc hop)]; simp)
      have h := hbits _ hmem (by rw [hfits.scalar_eq, hfloat])
      rwa [hfits.scalar_eq] at h
  have hout {k' : ℕ} {V : List Name} (hV : ∀ n ∈ V, n.Within k k') {n : Name} (hn : n.Before k) : n ∉ V :=
    fun hm => hn.ne (hV n hm) rfl
  obtain ⟨u, k', hcode, hu⟩ := updateCode_spec op hsuits sp addr (hrow.length_eq.trans op.length_scalars) hlen k
  refine ⟨u, k', hcode, hu.combines (x := x) (y := y) (z := z) locks hsuits rfl hF.toShaped
    (fun n hn => hnames n (by simp [hn]))
    (fun i e sc => Histogram.Regular.ty_of_map hF.types) (fun sc hop => ?_) (by rw [hlen, op.length_scalars])
    (fun i e sc => Histogram.Regular.ty_of_map hvalues) hlim hrow haddr (fun V t hV ht i e v he hv => ?_)
    (fun V t hV ht => ?_) (fun tb htb => ?_) fun V t _ ht hst hlocks => ?_⟩
  · exact ⟨hround sc hop x (List.subset_append_left _ _), hround sc hop z (List.subset_append_right _ _)⟩
  · refine (hval i e v he hv).keeps ht (fun n hn => hout hV (hnames n ?_)) fun n _ w hw => absurd hw List.not_mem_nil
    simp only [List.mem_append, List.mem_flatMap]
    exact .inr ⟨e, List.mem_of_getElem? he, hn⟩
  · refine hF.gives ht (fun n hn => hout hV (hnames n (by simp [hn]))) (fun n hn w hw => ?_) hz
    obtain ⟨tb, htb, rfl⟩ : ∃ tb, method.table? = some tb ∧ tb.name = w := by simpa [lockNames] using hw
    exact (hfree tb htb).apart n (List.mem_append_right _ hn) _ (List.mem_singleton_self _)
  · have h := hfree tb htb
    refine ⟨fun n hn p hp hp' => ?_, h.pos, h.column, fun V t hV ht => h.count.keeps ht
      (fun n hn => hout hV (h.before n hn)) fun n _ w hw => absurd hw List.not_mem_nil⟩
    exact h.apart n (List.mem_append_left _ hn) tb.name (List.mem_singleton_self _) p hp' hp
  · refine ⟨hrow.stored hst ht.memory.names, fun n i hi => ?_, hlocks⟩
    exact Memory.read_stored method.table? hrow ht.memory hst (fun tb htb => (hfree tb htb).column) hlocks hi

end Update

/-- the host, with loops of at most so many rounds -/
def hostContext (rounds : Int) : Context where
  limits := {}
  sizes := fun _ => none
  loopLimit := rounds

namespace Farthest

/-- the greatest distance and where it is; on a tie the tuple held stays -/
def op : Operator where
  width := 4
  shape := []
  bucketIndices := []
  combiner :=
    { params := [(.plain "p", .i64), (.plain "d", .i64), (.plain "q", .i64), (.plain "e", .i64)]
      body := [.bind (.plain "farther") ((Expr.ofName (.plain "d")).lt (.ofName (.plain "e")))]
      results := [
        .ite (.typed (.plain "farther") .bool) (.ofName (.plain "q")) (.ofName (.plain "p")),
        .ite (.typed (.plain "farther") .bool) (.ofName (.plain "e")) (.ofName (.plain "d"))] }
  neutral := [0, 0]
  dests := [⟨.plain "place", .i64⟩, ⟨.plain "distance", .i64⟩]

/-- both arrays, and three locks that are free -/
def state : State where
  memory :=
    { buffers := #[.ofValues .i64 [.word 5, .word 3], .ofValues .i64 [.word 10, .word 25], .zeros .i32 3]
      names := Bindings.set (Bindings.set (Bindings.set ∅ (.plain "place") 0) (.plain "distance") 1)
        ⟨"locks", some 0⟩ 2 }

/-- a place and a distance -/
def tuple (a b : Int) (ha : Word64.fits a = true) (hb : Word64.fits b = true) : Tuple op.scalars where
  cells := [.word a, .word b]
  length_eq := rfl
  fits := by
    intro i sc v hsc hv
    rcases i with _ | _ | i
    · cases hsc
      cases hv
      exact Value.fits_word (Scalar.wrap_i64 ha)
    · cases hsc
      cases hv
      exact Value.fits_word (Scalar.wrap_i64 hb)
    · cases hv

theorem row :
    state.memory.Row [.plain "place", .plain "distance"] op.scalars 1 (tuple 3 25 (by decide) (by decide)) where
  length_eq := rfl
  column := by
    intro i n sc hn hsc
    rcases i with _ | _ | i
    · cases hn
      cases hsc
      have h : state.memory.Has (.plain "place") 0 (.ofValues .i64 [.word 5, .word 3]) := ⟨rfl, rfl⟩
      exact ⟨_, _, h.column, by decide, rfl⟩
    · cases hn
      cases hsc
      have h : state.memory.Has (.plain "distance") 1 (.ofValues .i64 [.word 10, .word 25]) := ⟨rfl, rfl⟩
      exact ⟨_, _, h.column, by decide, rfl⟩
    · cases hn
  unaliased := List.pairwise_pair.2 fun p hp hp' => by
    cases hp
    cases hp'

theorem literals {a b : Int} (ha : Word64.fits a = true) (hb : Word64.fits b = true) :
    AllEval .folded (hostContext 1) state [.i64 a, .i64 b] (tuple a b ha hb).cells := by
  intro i e v he hv
  rcases i with _ | _ | i
  · cases he
    cases hv
    exact (Computes.literal ha).evals
  · cases he
    cases hv
    exact (Computes.literal hb).evals
  · cases he

theorem returns : op.combiner.Returns .folded (launch (hostContext 1)) (hostContext 1) state
    [.word 3, .word 25, .word 7, .word 40] [.word 7, .word 40] := by
  refine ⟨_, rfl, fun i e v he hv => ?_⟩
  rcases i with _ | _ | i
  · cases he
    cases hv
    rfl
  · cases he
    cases hv
    rfl
  · cases he

theorem free : LockTable.Free ⟨⟨"locks", some 0⟩, .i64 3, .device⟩ .folded (hostContext 1) state 1 3
    [.plain "place", .plain "distance"] where
  pos := by decide
  column := ⟨2, .zeros .i32 3, ⟨rfl, rfl⟩, rfl, rfl, by decide⟩
  count := .literal (by decide)
  before := fun n hn => absurd hn List.not_mem_nil
  apart := by
    intro n hn w hw p hp hp'
    obtain rfl := List.mem_singleton.1 hw
    cases hp'
    revert n
    decide

end Farthest

open Farthest in
/-- place 7 at distance 40 replaces place 3 at distance 25 -/
theorem update_stores_farthest : ∃ u k', op.updateCode (.locked ⟨⟨"locks", some 0⟩, .i64 3, .device⟩) .device
    [.plain "place", .plain "distance"] (.i64 1) [.i64 7, .i64 40] 1 = some (u, k') ∧
    Runs .folded (launch (hostContext 1)) (hostContext 1) [u] state fun t =>
      t.memory.Row [.plain "place", .plain "distance"] op.scalars 1 (tuple 7 40 (by decide) (by decide)) ∧
      (∀ n (i : Int), (i = (1 : ℕ) → state.memory.Apart [.plain "place", .plain "distance"] n) →
        t.memory.read n i = state.memory.read n i) ∧
      ∀ tb, (UpdateMethod.locked ⟨⟨"locks", some 0⟩, .i64 3, .device⟩).table? = some tb →
        t.memory.Column tb.name .i32 3 fun _ => .int unlocked .i32 := by
  have hmethod : op.chooseMethod none (LockTable.create (.i64 3) .device) 0 =
      ((some ⟨⟨"locks", some 0⟩, .i64 3, .device⟩, .locked ⟨⟨"locks", some 0⟩, .i64 3, .device⟩), 1) := rfl
  refine Operator.update_stores (x := tuple 3 25 (by decide) (by decide)) (y := tuple 7 40 (by decide) (by decide)) 3
    hmethod ?_ rfl (fun n hn j hj => ?_) (by decide) row (.literal (by decide)) (literals _ _) returns (by decide)
    fun tb htb => ?_
  · exact {
      params := rfl
      results := rfl
      nodup := by decide
      defines := fun x hx => ⟨_, _, _, _, List.mem_singleton.1 hx⟩
      types := rfl }
  · have hplain : ∀ n ∈ op.combiner.locals ++ op.combiner.reads .scalar ++ [Expr.i64 7, .i64 40].flatMap (·.scalars),
        n.symbol = none := by decide
    rw [hplain n hn] at hj
    cases hj
  · cases htb
    exact free

namespace Product

/-- the product of the values -/
def op : Operator where
  width := 1
  shape := []
  bucketIndices := []
  combiner :=
    { params := [(.plain "a", .i32), (.plain "b", .i32)]
      body := []
      results := [.scalarVar (.plain "a") .i32 * .scalarVar (.plain "b") .i32] }
  neutral := [.literal 1 .i32]
  dests := [⟨.plain "t", .i32⟩]

/-- an array of one element -/
def state : State where
  memory := { buffers := #[.ofValues .i32 [.int 3 .i32]], names := Bindings.set ∅ (.plain "t") 0 }

end Product

open Product in
/-- 3 is not multiplied by 5, although the product is 15: the swap is attempted in a loop, which may make no round -/
theorem update_needs_round :
    op.chooseMethod none (LockTable.create (.i64 4) .device) 0 = ((none, .compareSwap .i32), 0) ∧
    op.combiner.Straight op.scalars ∧ state.memory.read (.plain "t") 0 = .ok (.int 3 .i32) ∧
    op.combiner.Returns .plain (launch (hostContext 0)) (hostContext 0) state [.int 3 .i32, .int 5 .i32]
      [.int 15 .i32] ∧
    ∃ u k', op.updateCode (.compareSwap .i32) .device [.plain "t"] (.i64 0) [.literal 5 .i32] 0 = some (u, k') ∧
      ∀ Q, ¬ Runs .plain (launch (hostContext 0)) (hostContext 0) [u] state Q := by
  refine ⟨rfl, ?_, rfl, ⟨_, rfl, fun i e v he hv => ?_⟩, _, _, rfl, fun Q h => ?_⟩
  · exact { params := rfl, results := rfl, nodup := by decide, defines := by simp [op], types := rfl }
  · rcases i with _ | i
    · cases he
      cases hv
      rfl
    · cases he
  · obtain ⟨t, ht, -⟩ := h
    cases ht

end GpuHistogram
