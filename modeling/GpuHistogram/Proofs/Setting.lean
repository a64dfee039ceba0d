/-
Programs that compute a histogram on a machine. `Histogram.Setting` is what is asked of the histogram, the machine and the
launch size, whichever placement the code is for; in a `Histogram.WideSetting` dimensions of the space and widths may be
zero, and tuples may be combined in any way. `Histogram.placed` is the program for one placement, which is the compiled
program where that placement is chosen in advance (`generate_eq_placed`). `WideSetting.runs` takes what is shown of the code
after the plan (`Works`) to runs of the program.
-/
import GpuHistogram.Proofs.Selection
import GpuHistogram.Proofs.Strategy

namespace GpuHistogram

open Machine

variable {h : Histogram} {M : Histogram.Meaning} {B : Histogram.Contents} {o : Options} {m : GpuHistogram.Machine} {k g n : ℕ}
  {R A : List Name}

namespace Histogram

/-- what the host code of a histogram runs in -/
def context (h : Histogram) (o : Options) (m : GpuHistogram.Machine) : Context :=
  m.context { body := [], sizes := h.openSizes o }

/-- the program in which the code for one placement follows the plan -/
def placed (h : Histogram) (o : Options) (code : Plan → Emit Unit) : Gen Program :=
  return { body := foldBlock (← Emit.collect (h.plan o >>= code)), sizes := h.openSizes o }

/-- where a placement is chosen in advance, the compiled program is that of the placement -/
theorem generate_eq_placed {p : Plan} {l : List Stmt} {k₁ : ℕ} {x : Placement.Costs} {w : Placement}
    (hplan : h.plan o [] k = some ((p, l), k₁)) (hx : p.costs? o (Plan.histBytes p.parts) = some x)
    (hw : Placement.choose? x = some w) : h.generate o k = h.placed o (fun p => p.placementCode w) k := by
  have hv : ∃ v, (Plan.histBytes p.parts).constant? = some v := by
    rw [Plan.costs?] at hx
    obtain ⟨v, hv, -⟩ := Option.bind_eq_some_iff.1 hx
    exact ⟨v, hv⟩
  obtain ⟨v, hv⟩ := hv
  have hbind : Emit.bindSize "hist_bytes" (Plan.histBytes p.parts) = pure (.i64 v) := by
    unfold Emit.bindSize
    rw [hv]
  have hconst : (Expr.i64 v).constant? = (Plan.histBytes p.parts).constant? := hv.symm
  have hcode : p.code o (.i64 v) = p.placementCode w := by
    unfold Plan.code
    rw [(Plan.costs?_congr hconst).trans hx]
    dsimp only
    rw [hw]
  have hrest : (Emit.bindSize "hist_bytes" (Plan.histBytes p.parts) >>= p.code o) = p.placementCode w := by
    rw [hbind, pure_bind, hcode]
  change (((h.plan o [] k).bind fun r => (Emit.bindSize "hist_bytes" (Plan.histBytes r.1.1.parts) >>= r.1.1.code o) r.1.2 r.2).bind
    fun r => some (r.1.2, r.2)).bind (fun r => some (Program.mk (foldBlock r.1) (h.openSizes o), r.2)) =
    (((h.plan o [] k).bind fun r => r.1.1.placementCode w r.1.2 r.2).bind fun r => some (r.1.2, r.2)).bind
      (fun r => some (Program.mk (foldBlock r.1) (h.openSizes o), r.2))
  rw [hplan, Option.bind_some, Option.bind_some, hrest]

/-- a histogram that means `M`, on a machine whose arrays hold `B` and that launches `n` groups of `g` threads -/
structure Setting (h : Histogram) (M : Meaning) (B : Contents) (o : Options) (m : GpuHistogram.Machine) (k : ℕ)
    (R A : List Name) (g n : ℕ) : Prop where
  regular : h.Regular k R A
  proper : M.Proper h
  evaluates : h.Evaluates M (h.context o m) m.state R
  given : h.Given M B A m.state.memory
  bound : ∀ x ∈ R, (m.state.vars.get? x).isSome = true
  groupSize : (o.groupSize.orElse fun _ => (h.context o m).sizes h.groupSizeId) = some (g : Int)
  groupCount : (o.groupCount.orElse fun _ => (h.context o m).sizes h.groupCountId) = some (n : Int)
  threads : 0 < g
  groups : 0 < n
  admitted : (g : Int) ≤ m.limits.maxGroupSize
  threadsFit : Word64.fits (g * n : ℕ) = true
  totalFits : Word64.fits (M.total : ℕ) = true
  rowsFit : ∀ op ∈ h.operators, Word64.fits (M.segments * M.size op : ℕ) = true
  rounds : 0 < (h.context o m).rounds ∧ ∀ op ∈ h.operators, ∀ d ∈ M.shape op, d ≤ (h.context o m).rounds

/-- as a setting, but the space and the histograms may be empty, and nothing is asked of the way in which tuples are combined -/
structure WideSetting (h : Histogram) (M : Meaning) (B : Contents) (o : Options) (m : GpuHistogram.Machine) (k : ℕ)
    (R A : List Name) (g n : ℕ) : Prop where
  regular : h.Regular k R A
  values : h.HasValues M (h.context o m) m.state R
  given : h.Given M B A m.state.memory
  bound : ∀ x ∈ R, (m.state.vars.get? x).isSome = true
  groupSize : (o.groupSize.orElse fun _ => (h.context o m).sizes h.groupSizeId) = some (g : Int)
  groupCount : (o.groupCount.orElse fun _ => (h.context o m).sizes h.groupCountId) = some (n : Int)
  threads : 0 < g
  groups : 0 < n
  admitted : (g : Int) ≤ m.limits.maxGroupSize
  shapes : ∀ op ∈ h.operators, ∀ d ∈ M.shape op, 0 < d
  threadsFit : Word64.fits (g * n : ℕ) = true
  spaceFits : ProductsFit M.segmentDims
  totalFits : Word64.fits (M.total : ℕ) = true
  shapesFit : ∀ op ∈ h.operators, Word64.fits (M.bucketSize op : ℕ) = true
  sizesFit : ∀ op ∈ h.operators, Word64.fits (M.size op : ℕ) = true
  rounds : 0 < (h.context o m).rounds ∧ ∀ op ∈ h.operators, ∀ d ∈ M.shape op, d ≤ (h.context o m).rounds

theorem Setting.wide (hs : h.Setting M B o m k R A g n) : h.WideSetting M B o m k R A g n :=
  have hp := hs.proper
  have hsizes : ∀ op ∈ h.operators, Word64.fits (M.size op : ℕ) = true := fun op hop =>
    Word64.fits_le (hs.rowsFit op hop) (Nat.le_mul_of_pos_left _ hp.segments)
  { regular := hs.regular
    values := hs.evaluates.toHasValues
    given := hs.given
    bound := hs.bound
    groupSize := hs.groupSize
    groupCount := hs.groupCount
    threads := hs.threads
    groups := hs.groups
    admitted := hs.admitted
    shapes := hp.shape
    threadsFit := hs.threadsFit
    spaceFits := .of_pos hp.segmentDims (Word64.fits_le hs.totalFits (Nat.le_mul_of_pos_right _ hp.elements))
    totalFits := hs.totalFits
    shapesFit := fun op hop => Word64.fits_le (hsizes op hop) (Nat.le_mul_of_pos_left _ (hp.width op hop))
    sizesFit := hsizes
    rounds := hs.rounds }

namespace WideSetting

/-- the plan is made, and stands for what the histogram means -/
theorem plan_works {f : Form} {L : LaunchSpec → List Stmt → Exec Unit} (hs : h.WideSetting M B o m k R A g n) :
    Works f L (h.context o m) (h.plan o) k m.state fun p k' t =>
      p.Stage h M o R A (p.reserved A) (h.context o m) k k' g n t ∧ t.memory = m.state.memory := by
  have hr := hs.regular
  refine (GpuHistogram.plan_works hr hs.values hs.spaceFits (fun op hop => .of_pos (hs.shapes op hop) (hs.shapesFit op hop))
    hs.sizesFit rfl hs.groupSize hs.groupCount hs.threads hs.groups hs.threadsFit).mono fun p k' t hk hf hp => ?_
  obtain ⟨hd, hm, -⟩ := hp
  have hyoung : ∀ x ∈ p.copyNames, ¬ x.Before k := fun x hx => (hd.young x hx).not_before
  have hreserved : p.reserved A = h.reserved A ++ p.copyNames := by rw [Plan.reserved, hd.hist]
  have hX : ∀ x ∈ p.reserved A, x ∈ h.reserved A ∨ ¬ x.Before k := fun x hx =>
    (List.mem_append.1 (hreserved ▸ hx)).imp_right (hyoung x)
  have hsees : Sees k (p.reserved A) A m.state t := ⟨fun x hx _ => hf x hx, fun x _ i => by rw [hm]⟩
  refine ⟨⟨hr, hs.shapes, hk, hreserved ▸ hd, ⟨fun x hx => ?_, fun x hx => ?_, fun x hx => ?_⟩, fun x hx => ?_,
    ((hs.values.means hr).widen hX).later hsees hk, hs.totalFits, hs.rounds⟩, hm⟩
  · rw [hreserved]
    exact List.mem_append_left _ (List.mem_append_left _ hx)
  · rw [hreserved]
    exact List.mem_append_left _ (List.mem_append_right _ (List.mem_append_right _ hx))
  · obtain ⟨hb, hn⟩ := hr.read x hx
    exact ⟨hb.mono hk, fun hm => (hX x hm).elim hn fun h => h hb, by rw [hf x hb]; exact hs.bound x hx⟩
  · rcases List.mem_append.1 (hreserved ▸ hx) with hx | hx
    · exact (hr.reserved_before x hx).mono hk
    · exact (hd.young x hx).before

/-- **Runs.** What the code for a placement achieves after the plan, a run of the program achieves. -/
theorem runs {code : Plan → Emit Unit} {Q : State → Prop} (hs : h.WideSetting M B o m k R A g n)
    (hcode : ∀ p k' t, p.Stage h M o R A (p.reserved A) (h.context o m) k k' g n t → t.memory = m.state.memory →
      Works .folded (launch (h.context o m)) (h.context o m) (code p) k' t fun _ _ u => Q u) :
    ∃ prog k' m', h.placed o code k = some (prog, k') ∧ m.run prog = (.ok (), m') ∧ Q m'.state := by
  obtain ⟨a, l, k', u, hE, -, hrun, -, hQ⟩ := Works.bind (f := .folded) (hs.plan_works (L := launch (h.context o m)))
    fun p k' t _ _ hp => hcode p k' t hp.1 hp.2
  have hcollect : Emit.collect (h.plan o >>= code) k = some (l, k') := by
    change ((h.plan o >>= code) [] k).bind (fun r => some (r.1.2, r.2)) = _
    rw [hE]
    rfl
  refine ⟨⟨foldBlock l, h.openSizes o⟩, k', { m with state := u }, ?_, ?_, hQ⟩
  · change (Emit.collect (h.plan o >>= code) k).bind (fun r => some (Program.mk (foldBlock r.1) (h.openSizes o), r.2)) = _
    rw [hcollect]
    rfl
  · exact run_eq_ok.2 ⟨u, hrun, rfl⟩

end WideSetting

/-! ## A histogram in its setting -/

/-- the greatest of the numbers of the elements of each bucket; the number of an element is its bucket -/
def peaks : Histogram where
  name := "peaks"
  space := [(.plain "i", .ofName (.plain "n"))]
  operators := [
    { width := 2
      shape := []
      bucketIndices := []
      combiner :=
        { params := [(.plain "a", .i64), (.plain "b", .i64)]
          body := []
          results := [.max (.ofName (.plain "a")) (.ofName (.plain "b"))] }
      neutral := [.i64 Word64.least]
      dests := [⟨.plain "greatest", .i64⟩] }]
  body := []
  contributions := [{ bucket := .ofName (.plain "i"), values := [.ofName (.plain "i")] }]
  maps := [⟨⟨.plain "copy", .i64⟩, .ofName (.plain "i")⟩]
  origin := .unknown

/-- one number for every element type -/
def constantTuple (ss : List Scalar) (a : Int) : Tuple ss where
  cells := ss.map (Value.ofInt a)
  length_eq := List.length_map ..
  fits := fun i sc v hsc hv => by
    rw [List.getElem?_map, hsc, Option.map_some, Option.some.injEq] at hv
    exact hv ▸ Value.fits_ofInt a sc

/-- the greater of two integers of one type -/
def greater : Value → Value → Value
  | .int a s, .int b _ => .int (max a b) s
  | v, _ => v

theorem fits_greater {sc : Scalar} {v w : Value} (hv : v.Fits sc) (hw : w.Fits sc) : (greater v w).Fits sc := by
  cases v with
  | bool p => exact hv
  | float p t => exact hv
  | int a s =>
    cases w with
    | bool p => exact hv
    | float p t => exact hv
    | int b t =>
      refine ⟨hv.1, hv.2.1, ?_⟩
      rcases max_choice a b with h | h <;> rw [h]
      · exact hv.2.2
      · exact hw.2.2

/-- the greater values of two tuples -/
def greaterTuple {ss : List Scalar} (x y : Tuple ss) : Tuple ss where
  cells := x.cells.zipWith greater y.cells
  length_eq := by rw [List.length_zipWith, x.length_eq, y.length_eq, Nat.min_self]
  fits := fun i sc v hsc hv => by
    obtain ⟨a, b, ha, hb, rfl⟩ := List.getElem?_zipWith_eq_some.1 hv
    exact fits_greater (x.fits i sc a hsc ha) (y.fits i sc b hsc hb)

/-- three elements, of which the last goes to no bucket -/
def peaksMeaning : Meaning where
  segmentDims := []
  elements := 3
  width _ := 2
  shape _ := []
  combine _ := greaterTuple
  neutral op := constantTuple op.scalars Word64.least
  bucket _ e := e
  value op _ e _ := constantTuple op.scalars e
  mapped _ e := .word e

def peaksContents : Contents where
  dest op _ := constantTuple op.scalars (-7)
  mapLength _ := 3
  mapValue _ _ := .word 0

def peaksMachine (loopLimit : Int) : GpuHistogram.Machine :=
  let m : GpuHistogram.Machine := { loopLimit := loopLimit }
  let m := (m.setArray (.plain "greatest") .i64 [.word (-7), .word (-7)]).setArray (.plain "copy") .i64 [.word 0, .word 0, .word 0]
  m.setScalar (.plain "n") (.word 3)

/-- the launch and the device are fixed in advance -/
def fixedLaunch (d : DeviceLimits) (g n : ℕ) : Options := { groupSize := some g, groupCount := some n, device := some d }

variable {d : DeviceLimits} {limit : Int}

theorem exists_word (x : Tuple [.i64]) : ∃ a, x.cells = [.word a] ∧ Scalar.i64.wrap a = a := by
  obtain ⟨v, hv⟩ := List.length_eq_one_iff.1 x.length_eq
  have hfit : v.Fits .i64 := x.fits 0 .i64 v rfl (by rw [hv]; rfl)
  obtain ⟨a, rfl, ha⟩ := hfit.of_isInteger rfl
  exact ⟨a, hv, ha⟩

theorem fits_of_wrap {a : Int} (h : Scalar.i64.wrap a = a) : Word64.fits a = true := h ▸ Word64.fits_wrap a

theorem greaterTuple_commutes : Commutes (α := Tuple [.i64]) greaterTuple (constantTuple [.i64] Word64.least) where
  comm x y := by
    obtain ⟨a, hx, -⟩ := exists_word x
    obtain ⟨b, hy, -⟩ := exists_word y
    ext1
    simp only [greaterTuple, hx, hy, List.zipWith_cons_cons, List.zipWith_nil_left, greater, max_comm]
  assoc x y z := by
    obtain ⟨a, hx, -⟩ := exists_word x
    obtain ⟨b, hy, -⟩ := exists_word y
    obtain ⟨d, hz, -⟩ := exists_word z
    ext1
    simp only [greaterTuple, hx, hy, hz, List.zipWith_cons_cons, List.zipWith_nil_left, greater, max_assoc]
  neutral x := by
    obtain ⟨a, hx, ha⟩ := exists_word x
    have hle : Word64.least ≤ a := by
      have := fits_of_wrap ha
      simp only [Word64.fits, Bool.and_eq_true, decide_eq_true_eq] at this
      exact this.1
    have hleast : greater (.word a) (Value.ofInt Word64.least .i64) = .word (max a Word64.least) := rfl
    ext1
    simp only [greaterTuple, constantTuple, hx, List.map_cons, List.map_nil, List.zipWith_cons_cons, List.zipWith_nil_left,
      hleast, max_eq_left hle]

theorem readsOnly_ofName {x : Name} {V A : List Name} (hx : x ∈ V) : (Expr.ofName x).ReadsOnly V A := ⟨rfl, over_ofName.2 hx⟩

theorem peaks_regular : peaks.Regular 0 [.plain "n"] [] where
  valid := rfl
  body := rfl
  combiner := by decide
  params := by decide
  results := by decide
  neutral := by decide
  values := by decide
  integers := by decide
  distinct := by decide
  before x hx := by
    have hplain : ∀ x ∈ peaks.names [.plain "n"] [], x.symbol = none := by decide
    intro j hj
    rw [hplain x hx] at hj
    cases hj
  readsBucket x hx := by
    obtain rfl := List.mem_singleton.1 hx
    exact readsOnly_ofName (by decide)
  readsValues x hx e he := by
    obtain rfl := List.mem_singleton.1 hx
    obtain rfl := List.mem_singleton.1 he
    exact readsOnly_ofName (by decide)
  readsMaps mo hmo := by
    obtain rfl := List.mem_singleton.1 hmo
    exact readsOnly_ofName (by decide)
  readsResults op hop e he := by
    obtain rfl := List.mem_singleton.1 hop
    obtain rfl := List.mem_singleton.1 he
    exact ⟨rfl, over_op2.2 ⟨over_ofName.2 (by decide), over_ofName.2 (by decide)⟩⟩
  readsNeutral op hop e he := by
    obtain rfl := List.mem_singleton.1 hop
    obtain rfl := List.mem_singleton.1 he
    exact ⟨rfl, over_literal⟩

/-- the number of an element fits -/
theorem fits_element {e : ℕ} (he : e < peaksMeaning.total) : Word64.fits (e : Int) = true :=
  Word64.fits_le (b := 3) (by decide) (le_of_lt he)

/-- the index of the space stands for the number of the element -/
theorem index_computes {f : Form} {c : Context} {s : State} {e : ℕ} (he : e < peaksMeaning.total) :
    Computes f c (s.setAll peaks.indexNames (words (peaksMeaning.indices e))) (.ofName (.plain "i")) e := by
  refine .ofName ?_ (fits_element he)
  have hmod : e % 3 = e := Nat.mod_eq_of_lt he
  change ((s.setAll [] []).set (.plain "i") (.word (e % 3 : ℕ))).vars.get? (.plain "i") = _
  rw [State.get?_set, if_pos rfl, hmod]

theorem constantTuple_word {a : Int} (ha : Word64.fits a = true) : (constantTuple [.i64] a).cells = [.word a] :=
  congrArg (fun v => [v]) (Value.ofInt_i64 ha)

/-- a single expression with the value of a single cell -/
theorem allEval_single {f : Form} {c : Context} {s : State} {e : Expr} {v : Value} (h : Evals f c s e v) :
    AllEval f c s [e] [v] := by
  intro i e' v' he hv
  rcases i with _ | i
  · cases he
    cases hv
    exact h
  · cases he

/-- the combiner computes the greater of two tuples -/
theorem greater_computes {f : Form} {c : Context} {s : State} {x y : Tuple [.i64]}
    (h : Holds s [.plain "a", .plain "b"] (x.cells ++ y.cells)) :
    AllEval f c s [.max (.ofName (.plain "a")) (.ofName (.plain "b"))] (greaterTuple x y).cells := by
  obtain ⟨a, hx, ha⟩ := exists_word x
  obtain ⟨b, hy, hb⟩ := exists_word y
  have hcells : (greaterTuple x y).cells = [.word (max a b)] := by
    simp only [greaterTuple, hx, hy, List.zipWith_cons_cons, List.zipWith_nil_left, greater]
  rw [hx, hy] at h
  rw [hcells]
  exact allEval_single (Computes.evals (.max (.ofName (h 0 _ _ rfl rfl) (fits_of_wrap ha))
    (.ofName (h 1 _ _ rfl rfl) (fits_of_wrap hb))))

theorem least_computes {f : Form} {c : Context} {s : State} :
    AllEval f c s [.i64 Word64.least] (constantTuple [.i64] Word64.least).cells := by
  rw [constantTuple_word (by decide)]
  exact allEval_single (Computes.literal (by decide)).evals

theorem peaks_evaluates {c : Context} : peaks.Evaluates peaksMeaning c (peaksMachine limit).state [.plain "n"] where
  segmentDims := .nil
  elements x hx := by
    cases hx
    exact ⟨by decide, .inr ⟨.plain "n", .unknown, rfl, by decide, by rfl⟩⟩
  width op hop := by
    obtain rfl := List.mem_singleton.1 hop
    exact ⟨by decide, .inl ⟨.unknown, rfl⟩⟩
  shape op hop := by
    obtain rfl := List.mem_singleton.1 hop
    exact .nil
  bucket x hx e he := by
    obtain rfl := List.mem_singleton.1 hx
    exact ⟨fits_element he, fun f => (index_computes he).evals⟩
  value x hx e he r hr f := by
    obtain rfl := List.mem_singleton.1 hx
    have hcells : (constantTuple [.i64] e).cells = [.word e] := constantTuple_word (fits_element he)
    exact hcells ▸ allEval_single (index_computes he).evals
  mapped mo hmo e he f := by
    obtain rfl := List.mem_singleton.1 hmo
    exact (index_computes he).evals
  combine op hop x y f := by
    obtain rfl := List.mem_singleton.1 hop
    exact greater_computes (State.holds_setAll _ _ (by decide))
  neutral op hop f := by
    obtain rfl := List.mem_singleton.1 hop
    exact least_computes
  commutes op hop := by
    obtain rfl := List.mem_singleton.1 hop
    exact greaterTuple_commutes

theorem peaks_given : peaks.Given peaksMeaning peaksContents [] (peaksMachine limit).state.memory where
  dests op hop := by
    obtain rfl := List.mem_singleton.1 hop
    refine ⟨rfl, fun i x sc hx hsc => ?_, List.pairwise_singleton _ _⟩
    rcases i with _ | i
    · cases hx
      cases hsc
      refine ⟨0, .ofValues .i64 [.word (-7), .word (-7)], ⟨by rfl, by rfl⟩, rfl, rfl, fun a ha => ?_⟩
      have ha' : a = 0 ∨ a = 1 := by
        have : a < 2 := ha
        omega
      rcases ha' with rfl | rfl <;> rfl
    · cases hx
  maps i mo hmo := by
    rcases i with _ | i
    · cases hmo
      refine ⟨1, .ofValues .i64 [.word 0, .word 0, .word 0], ⟨by rfl, by rfl⟩, rfl, rfl, fun a ha => ?_⟩
      have ha' : a = 0 ∨ a = 1 ∨ a = 2 := by
        have : a < 3 := ha
        omega
      rcases ha' with rfl | rfl | rfl <;> rfl
    · cases hmo
  mapLength i hi := Nat.le_refl 3
  unaliased := by
    refine List.pairwise_cons.2 ⟨fun x hx p hp hp' => ?_, List.pairwise_singleton _ _⟩
    obtain rfl := List.mem_singleton.1 hx
    have h0 : (peaksMachine limit).state.memory.names.get? (.plain "greatest") = some 0 := rfl
    have h1 : (peaksMachine limit).state.memory.names.get? (.plain "copy") = some 1 := rfl
    obtain rfl := Option.some.inj (h0.symm.trans hp)
    exact absurd (h1.symm.trans hp') (by decide)
  reads x hx := by cases hx

/-- the histogram is in its setting, whatever the size of the launch -/
theorem peaks_setting (hg : 0 < g) (hn : 0 < n) (hmax : g ≤ 1024) (hfits : Word64.fits (g * n : ℕ) = true) (hlimit : 0 < limit) :
    peaks.Setting peaksMeaning peaksContents (fixedLaunch d g n) (peaksMachine limit) 0 [.plain "n"] [] g n where
  regular := peaks_regular
  proper := ⟨by decide, by decide, fun _ _ => Nat.two_pos, fun _ _ _ hd => by cases hd⟩
  evaluates := peaks_evaluates
  given := peaks_given
  bound x hx := by
    obtain rfl := List.mem_singleton.1 hx
    rfl
  groupSize := rfl
  groupCount := rfl
  threads := hg
  groups := hn
  admitted := Int.ofNat_le.2 hmax
  threadsFit := hfits
  totalFits := by decide
  rowsFit op _ := by
    have hsize : peaksMeaning.segments * peaksMeaning.size op = 2 := rfl
    rw [hsize]
    decide
  rounds := by
    refine ⟨Int.lt_toNat.2 hlimit, fun _ _ d hd => by cases hd⟩

end Histogram

end GpuHistogram
