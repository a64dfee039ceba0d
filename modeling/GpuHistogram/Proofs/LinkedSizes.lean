/-
The sizes of two linked programs, of which the first is compiled for a group size, a number of groups and a device, and the
second asks for them when it runs. What the histogram says is known in both or in neither (`Link.Fixed`, `Link.Strict`);
what depends on the choices is a variable in the second program even where the first has a literal (`Link.Loose`).
Planning both ways gives the same plan up to this difference (`plan_tracks`).
-/
import GpuHistogram.Proofs.CodeWords
import GpuHistogram.Proofs.LinkedHosts
import GpuHistogram.Proofs.Selection

namespace GpuHistogram

open Machine

/-! ## Folding operators on numbers -/

namespace Expr

variable {l r l' r' x y x' y' : Expr} {v : Int} {o : Origin}

/-- a known number, not a product, has known operands -/
theorem constant?_op2 (op : Binary) (hop : op.isNumeric = true) (hmul : op ≠ .mul) (h : (op2 op l r).constant? = some v) :
    ∃ a b, l.constant? = some a ∧ r.constant? = some b ∧ op.number? a b = some v := by
  obtain ⟨ty, o, he⟩ := fold_of_constant? h
  have hf := foldsTo_foldBinary op l.fold r.fold (op2 op l r).ty .unknown (Binary.isLogical_of_isNumeric hop)
  change FoldsTo _ _ _ _ _ (op2 op l r).fold at hf
  generalize (op2 op l r).fold = e at hf he
  cases hf with
  | node => cases he
  | @words a b p q e hl hr hw =>
    obtain ⟨n, hn⟩ := Binary.number?_of_foldWords? hop hw
    obtain rfl := Binary.foldWords?_number hn hw
    cases he
    exact ⟨a, b, by rw [constant?, hl], by rw [constant?, hr], hn⟩
  | @left k hk hn => exact ⟨v, k, by rw [constant?, he], constant?_of_isLiteral hk, hn v⟩
  | @right k hk hn => exact ⟨k, v, constant?_of_isLiteral hk, by rw [constant?, he], hn v⟩
  | zero hop' _ => exact absurd hop' hmul

/-- an operand that is not known keeps the result from being known, but for products -/
theorem constant?_op2_open (op : Binary) (hop : op.isNumeric = true) (hmul : op ≠ .mul) (h : l.constant? = none ∨ r.constant? = none) :
    (op2 op l r).constant? = none := by
  rw [Option.eq_none_iff_forall_ne_some]
  intro v hv
  obtain ⟨a, b, ha, hb, -⟩ := constant?_op2 op hop hmul hv
  rcases h with h | h
  · rw [h] at ha
    cases ha
  · rw [h] at hb
    cases hb

theorem constant?_ceilDiv_open (h : l.constant? = none ∨ r.constant? = none) : (ceilDiv l r).constant? = none :=
  constant?_op2_open .div rfl nofun <| h.imp
    (fun h => constant?_op2_open .sub rfl nofun (.inl (constant?_op2_open .add rfl nofun (.inl h)))) id

/-- a known quotient of positive numbers that is rounded up is positive -/
theorem constant?_ceilDiv_pos (h : (ceilDiv l r).constant? = some v) (hl : ∀ a, l.constant? = some a → 0 < a)
    (hr : ∀ b, r.constant? = some b → 0 < b) : 0 < v := by
  obtain ⟨c, b, hc, hb, hv⟩ := constant?_op2 .div rfl nofun h
  obtain ⟨d, e, hd, he, hc⟩ := constant?_op2 .sub rfl nofun hc
  obtain ⟨a, b', ha, hb', hd⟩ := constant?_op2 .add rfl nofun hd
  cases hb.symm.trans hb'
  cases he
  cases hd
  cases hc
  have hapos := hl a ha
  have hbpos := hr b hb
  simp only [Binary.number?, if_neg hbpos.ne', Option.some.injEq] at hv
  have hceil : (a + b - 1).tdiv b = v := hv
  rw [← hceil, ← ceil_eq_tdiv hapos.le hbpos]
  exact ceil_pos hapos hbpos

/-- a zero decides a product -/
theorem constant?_zero_mul {l r : Expr} (hty : l.ty = .i64) (h : l.constant? = some 0) : (l * r).constant? = some 0 := by
  have hfold : (l * r).fold = foldBinary .mul l.fold r.fold .i64 .unknown := by
    rw [← hty]
    rfl
  rw [constant?, hfold]
  rcases foldBinary_mul_zero_left (isLiteral_of_constant? h) r.fold .unknown with he | ⟨o, he⟩ <;> rw [he]
  obtain ⟨ty, o, hl⟩ := fold_of_constant? h
  rw [hl]

theorem constant?_mul_zero (hty : l.ty = .i64) (h : r.constant? = some 0) : (l * r).constant? = some 0 := by
  have hfold : (l * r).fold = foldBinary .mul l.fold r.fold .i64 .unknown := by
    rw [← hty]
    rfl
  rw [constant?, hfold]
  rcases foldBinary_mul_zero_right l.fold (isLiteral_of_constant? h) .unknown with he | ⟨o, he⟩ <;> rw [he]
  obtain ⟨ty, o, hr⟩ := fold_of_constant? h
  rw [hr]

/-- operands of which one is no literal meet the rules for neutral elements -/
theorem foldBinary_eq_foldNeutral (hop : op.isNumeric = true) (h : (∀ v t o, x ≠ .int v t o) ∨ ∀ v t o, y ≠ .int v t o) :
    foldBinary op x y .i64 o = foldNeutral op x y .i64 o := by
  unfold foldBinary
  split
  · rcases h with h | h <;> exact absurd rfl (h _ _ _)
  · unfold foldMixed
    split <;> first | rfl | cases hop

/-- both are the same 64-bit literal, or both are no literals -/
def Twins (x x' : Expr) : Prop :=
  (∃ v o o', x = .int v .i64 o ∧ x' = .int v .i64 o') ∨ (∀ v t o, x ≠ .int v t o) ∧ ∀ v t o, x' ≠ .int v t o

theorem isLiteral_of_ne (h : ∀ v t o, x ≠ .int v t o) (k : Int) : x.isLiteral k = false := by
  cases x <;> first | rfl | exact absurd rfl (h _ _ _)

theorem Twins.isLiteral (h : x.Twins x') (k : Int) : x'.isLiteral k = x.isLiteral k := by
  rcases h with ⟨v, o, o', rfl, rfl⟩ | ⟨h, h'⟩
  · rfl
  · rw [isLiteral_of_ne h, isLiteral_of_ne h']

theorem twins_binary (op : Binary) (x y x' y' : Expr) (o : Origin) :
    (Expr.binary op x y .i64 o).Twins (.binary op x' y' .i64 o) := by
  refine .inr ⟨fun v t o h => ?_, fun v t o h => ?_⟩ <;> cases h

theorem Twins.foldNeutral (hop : op.isNumeric = true) (hx : x.Twins x') (hy : y.Twins y') :
    (foldNeutral op x y .i64 o).Twins (foldNeutral op x' y' .i64 o) := by
  have hnode := twins_binary op x y x' y' o
  unfold Expr.foldNeutral
  cases op <;> try cases hop
  all_goals simp only [hx.isLiteral, hy.isLiteral]
  all_goals first | exact hnode | skip
  all_goals split_ifs
  all_goals first | exact hx | exact hy | exact hnode | exact .inl ⟨0, o, o, rfl, rfl⟩

theorem Twins.foldBinary (hop : op.isNumeric = true) (hx : x.Twins x') (hy : y.Twins y') :
    (foldBinary op x y .i64 o).Twins (foldBinary op x' y' .i64 o) := by
  rcases hx with ⟨v, o₁, o₁', rfl, rfl⟩ | ⟨hl, hl'⟩
  · rcases hy with ⟨w, o₂, o₂', rfl, rfl⟩ | ⟨hr, hr'⟩
    · simp only [Expr.foldBinary, Ty.i64]
      cases hw : op.foldWords? v w with
      | none => exact twins_binary ..
      | some e =>
        obtain ⟨n, hn⟩ := Binary.number?_of_foldWords? hop hw
        obtain rfl := Binary.foldWords?_number hn hw
        exact .inl ⟨n, o, o, rfl, rfl⟩
    · rw [foldBinary_eq_foldNeutral hop (.inr hr), foldBinary_eq_foldNeutral hop (.inr hr')]
      exact .foldNeutral hop (.inl ⟨v, o₁, o₁', rfl, rfl⟩) (.inr ⟨hr, hr'⟩)
  · rw [foldBinary_eq_foldNeutral hop (.inl hl), foldBinary_eq_foldNeutral hop (.inl hl')]
    exact .foldNeutral hop (.inr ⟨hl, hl'⟩) hy

theorem Twins.constant? {e e' : Expr} (h : e.fold.Twins e'.fold) : e'.constant? = e.constant? := by
  rcases h with ⟨v, o, o', he, he'⟩ | ⟨he, he'⟩
  · rw [Expr.constant?, Expr.constant?, he, he']
  · have hnone {e : Expr} (he : ∀ v t o, e.fold ≠ .int v t o) : e.constant? = none := by
      rw [Option.eq_none_iff_forall_ne_some]
      intro v hv
      obtain ⟨ty, o, hv⟩ := fold_of_constant? hv
      exact he _ _ _ hv
    rw [hnone he, hnone he']

end Expr

/-! ## The names of a histogram -/

/-- every name in the expression satisfies `Q` -/
def Expr.Names (Q : Name → Prop) (e : Expr) : Prop := ∀ k, ∀ n ∈ e.reads k, Q n

/-- every name that the statements use satisfies `Q` -/
def BlockNames (Q : Name → Prop) (l : List Stmt) : Prop := ∀ u, ∀ n ∈ blockUses u l, Q n

structure Combiner.Names (Q : Name → Prop) (f : Combiner) : Prop where
  params : ∀ p ∈ f.params, Q p.1
  body : BlockNames Q f.body
  results : ∀ e ∈ f.results, e.Names Q

structure Operator.Names (Q : Name → Prop) (op : Operator) : Prop where
  width : op.width.Names Q
  shape : ∀ e ∈ op.shape, e.Names Q
  bucketIndices : ∀ n ∈ op.bucketIndices, Q n
  combiner : op.combiner.Names Q
  neutral : ∀ e ∈ op.neutral, e.Names Q
  dests : ∀ d ∈ op.dests, Q d.name

structure Contribution.Names (Q : Name → Prop) (c : Contribution) : Prop where
  bucket : c.bucket.Names Q
  values : ∀ e ∈ c.values, e.Names Q

/-- every name in the text of the histogram satisfies `Q` -/
structure Histogram.Names (Q : Name → Prop) (h : Histogram) : Prop where
  space : ∀ x ∈ h.space, Q x.1 ∧ x.2.Names Q
  operators : ∀ op ∈ h.operators, op.Names Q
  body : BlockNames Q h.body
  contributions : ∀ c ∈ h.contributions, c.Names Q
  maps : ∀ m ∈ h.maps, Q m.dest.name ∧ m.value.Names Q

/-- a space has an innermost dimension -/
theorem Histogram.elementDim?_ne_none {h : Histogram} (hv : h.validate = .ok ()) : h.elementDim? ≠ none := by
  unfold Histogram.elementDim?
  exact fun he => (Histogram.validate_ok hv).1 (List.getLast?_eq_none_iff.1 he)

namespace Machine.Link

variable {H : Hosts} {K L M : Link H} {n m : Name} {s t : State} {e e' l l' r r' x y : Expr} {v : Int} {P Q : Int → Prop}
  {label label' : String}

/-! ## Sizes -/

/-- the same number, known in both programs or in neither -/
structure Strict (L : Link H) (e e' : Expr) : Prop where
  number : L.SameNumber e e'
  twins : e.fold.Twins e'.fold
  words : e.Words

/-- the same literal, or variables that correspond -/
inductive Fixed (L : Link H) : Expr → Expr → Prop
  | literal {v : Int} (hv : Word64.fits v = true) : Fixed L (.i64 v) (.i64 v)
  | var {n m : Name} (hr : L.rel n m) (hw : L.word n) : Fixed L (.ofName n) (.ofName m)

/-- a number for which `P` holds, and the variable that stands for it, or variables that correspond -/
inductive Loose (L : Link H) (P : Int → Prop) : Expr → Expr → Prop
  | value {v : Int} {m : Name} (hv : L.value m = some v) (hp : P v) : Loose L P (.i64 v) (.ofName m)
  | var {n m : Name} (hr : L.rel n m) (hw : L.word n) : Loose L P (.ofName n) (.ofName m)

theorem zeros_of_eq (h : e'.constant? = e.constant?) : Zeros e e' := fun he => h.trans he

namespace Strict

theorem zeros (he : L.Strict e e') : Zeros e e' := zeros_of_eq he.twins.constant?

theorem literal (hv : Word64.fits v = true) : L.Strict (.i64 v) (.i64 v) :=
  ⟨.literal hv, .inl ⟨v, _, _, rfl, rfl⟩, hv⟩

theorem op2 (op : Binary) (hop : op.isNumeric = true) (hl : L.Strict l l') (hr : L.Strict r r') :
    L.Strict (.op2 op l r) (.op2 op l' r') where
  number := hl.number.op2 op hop hr.number fun _ => ⟨.inl hl.zeros, .inl hr.zeros⟩
  twins := by
    change (Expr.foldBinary op l.fold r.fold (Expr.op2 op l r).ty .unknown).Twins
      (Expr.foldBinary op l'.fold r'.fold (Expr.op2 op l' r').ty .unknown)
    rw [Binary.ty_of_isNumeric hop, Binary.ty_of_isNumeric hop, hl.number.ty, hl.number.ty']
    exact .foldBinary hop hl.twins hr.twins
  words := ⟨hl.words, hr.words⟩

theorem foldl (op : Binary) (hop : op.isNumeric = true) {es es' : List Expr} (he : L.Strict e e') (h : List.Forall₂ L.Strict es es') :
    L.Strict (es.foldl (.op2 op) e) (es'.foldl (.op2 op) e') := by
  induction h generalizing e e' with
  | nil => exact he
  | cons hx _ ih => exact ih (he.op2 op hop hx)

theorem product {es es' : List Expr} (h : List.Forall₂ L.Strict es es') : L.Strict (.product es) (.product es') := by
  cases h with
  | nil => exact .literal rfl
  | cons hx hrest => exact hx.foldl .mul rfl hrest

theorem sum {es es' : List Expr} (h : List.Forall₂ L.Strict es es') : L.Strict (.sum es) (.sum es') := by
  cases h with
  | nil => exact .literal rfl
  | cons hx hrest => exact hx.foldl .add rfl hrest

end Strict

namespace Fixed

theorem mono (h : L ≤ M) (he : L.Fixed e e') : M.Fixed e e' := by
  cases he with
  | literal hv => exact .literal hv
  | var hr hw => exact .var (rel_mono h hr) ((word_mono h hr).2 hw)

theorem strict (he : L.Fixed e e') : L.Strict e e' := by
  cases he with
  | literal hv => exact .literal hv
  | var hr hw => exact ⟨.ofName hr hw, .inr ⟨nofun, nofun⟩, trivial⟩

theorem number (he : L.Fixed e e') : L.SameNumber e e' := he.strict.number

/-- where the number is known, it is a literal in the first program -/
theorem known_literal (he : L.Fixed e e') (hv : e.constant? = some v) : e = .i64 v ∧ Word64.fits v = true := by
  cases he with
  | literal hf =>
    cases hv
    exact ⟨rfl, hf⟩
  | var _ _ => cases hv

end Fixed

namespace Loose

theorem mono (h : L ≤ M) (he : L.Loose P e e') : M.Loose P e e' := by
  cases he with
  | value hv hp => exact .value (value_mono h hv) hp
  | var hr hw => exact .var (rel_mono h hr) ((word_mono h hr).2 hw)

theorem number (he : L.Loose P e e') : L.SameNumber e e' := by
  cases he with
  | value hv _ => exact .value hv
  | var hr hw => exact .ofName hr hw

theorem words (he : L.Loose P e e') : e.Words := by
  cases he with
  | value hv _ => exact L.fits hv
  | var _ _ => trivial

theorem unknown (he : L.Loose P e e') : e'.constant? = none := by
  cases he <;> rfl

theorem known (he : L.Loose P e e') (hv : e.constant? = some v) : P v := by
  cases he with
  | value _ hp =>
    cases hv
    exact hp
  | var _ _ => cases hv

theorem known_literal (he : L.Loose P e e') (hv : e.constant? = some v) : e = .i64 v ∧ Word64.fits v = true := by
  cases he with
  | value hm _ =>
    cases hv
    exact ⟨rfl, L.fits hm⟩
  | var _ _ => cases hv

/-- a size that is not zero where it is known -/
theorem zeros (he : L.Loose (0 < ·) e e') : Zeros e e' := fun h => absurd (he.known h) (by decide)

end Loose

/-! ## Products of sizes -/

theorem Zeros.mul (hl : Zeros l l') (hr : Zeros r r') (hty : l'.ty = .i64) : Zeros (l * r) (l' * r') := by
  intro h
  rcases Expr.constant?_mul h with ⟨a, b, ha, hb, hab⟩ | ⟨-, h | h⟩
  · rcases Int.mul_eq_zero.1 hab.symm with rfl | rfl
    · exact Expr.constant?_zero_mul hty (hl ha)
    · exact Expr.constant?_mul_zero hty (hr hb)
  · exact Expr.constant?_zero_mul hty (hl h)
  · exact Expr.constant?_mul_zero hty (hr h)

/-- the same number, a zero of which is known in both programs if in the first -/
structure SameSize (L : Link H) (e e' : Expr) : Prop where
  number : L.SameNumber e e'
  zeros : Zeros e e'

theorem SameSize.mul (hl : L.SameSize l l') (hr : L.SameSize r r') : L.SameSize (l * r) (l' * r') :=
  ⟨hl.number.op2 .mul rfl hr.number fun _ => ⟨.inl hl.zeros, .inl hr.zeros⟩, hl.zeros.mul hr.zeros hl.number.ty'⟩

theorem Strict.sameSize (he : L.Strict e e') : L.SameSize e e' := ⟨he.number, he.zeros⟩

theorem Fixed.sameSize (he : L.Fixed e e') : L.SameSize e e' := he.strict.sameSize

theorem Loose.sameSize (he : L.Loose (0 < ·) e e') : L.SameSize e e' := ⟨he.number, he.zeros⟩

/-! ## Binding sizes -/

/-- the second host sets a variable that stands for a number -/
theorem Linked.setValue (h : L.Linked s t) (hm : L.value m = some v) (w : Value) : L.Linked s (t.set m w) := by
  refine ⟨⟨h.memory, h.launched⟩, ⟨fun {n m'} hr => ?_, h.vars.words, h.vars.own⟩⟩
  have hne : m ≠ m' := by
    rintro rfl
    rw [L.apart hr] at hm
    cases hm
  rw [State.get?_set, if_neg hne]
  exact h.vars.get hr

theorem eval_numeral (th : Option ThreadPlace) (hv : e.constant? = some v) : ∃ w, eval (H.first.within th) s e.fold = .ok w :=
  eval_of_isLiteral (isLiteral_of_constant? hv) _ _

/-- a number that the first program knows is computed by the second -/
theorem SameNumber.computes_known (he : L.SameNumber e e') (hv : e.constant? = some v) (hs : L.Linked s t)
    (ht : L.Holds (fun _ => True) t) : Computes .folded (H.second.within none) t e' v := by
  obtain ⟨w, hev⟩ := eval_numeral (H := H) (s := s) none hv
  obtain ⟨a, ha, ha'⟩ := he.computes .folded none s t w hs (ht.subset fun _ _ => trivial) hev
  obtain rfl := ha.of_constant? hv
  exact ha'

theorem castIfNeeded_of_ty (h : e.ty = .i64) : e.castIfNeeded .i64 = e := if_pos h

namespace Tracks

/-- a size that is known in both programs -/
theorem bindKnown (h : e.constant? = some v) (h' : e'.constant? = some v) (hv : Word64.fits v = true) :
    L.Tracks (Emit.bindSize label e) (Emit.bindSize label' e') fun M x y => M.Fixed x y := by
  simp only [Emit.bindSize, h, h']
  exact pure (.literal hv)

/-- a size that is known in neither program -/
theorem bindUnknown (h : e.constant? = none) (h' : e'.constant? = none)
    (he : L.Same (e.castIfNeeded .i64) (e'.castIfNeeded .i64)) :
    L.Tracks (Emit.bindSize label e) (Emit.bindSize label' e') fun M x y => ∃ n m, x = .ofName n ∧ y = .ofName m ∧
      M.rel n m ∧ M.word n := by
  simp only [Emit.bindSize, h, h']
  refine bind (lift (.fresh label label' True)) fun M n m hM ⟨hr, hw⟩ => ?_
  refine bind (stmt (.bind (he.mono hM) ?_ hr fun _ => Expr.ty_castIfNeeded ..)) fun N _ _ hN _ => pure ⟨n, m, rfl, rfl, ?_⟩
  · rw [Expr.ty_castIfNeeded, Expr.ty_castIfNeeded]
  · exact ⟨rel_mono hN hr, (word_mono hN hr).2 (hw.2 trivial)⟩

/-- a size that is known in the first program only: the second one computes it -/
theorem bindValue (h : e.constant? = some v) (h' : e'.constant? = none) (hv : Word64.fits v = true)
    (he : ∀ s t, L.Ready s t → eval (H.second.within none) t (e'.castIfNeeded .i64).fold = .ok (.word v)) :
    L.Tracks (Emit.bindSize label e) (Emit.bindSize label' e') fun M x y => x = .i64 v ∧ ∃ m, y = .ofName m ∧ M.value m = some v := by
  intro j k l₁ l₂ a b r₁ r₂ j' k' hb hx hy
  simp only [Emit.bindSize, h, h'] at hx hy
  cases hx
  cases hy
  obtain ⟨M, hM, hbelow, hval, honly⟩ := exists_value hb label' hv
  refine ⟨M, [], [.bind ⟨label', some k⟩ (e'.castIfNeeded .i64)], hM, hbelow, (List.append_nil _).symm, rfl, fun s t s' hI hs => ?_,
    rfl, _, rfl, hval⟩
  rw [foldBlock, execAll] at hs
  cases hs
  refine ⟨t.set ⟨label', some k⟩ (.word v), ?_, fun O hO => ⟨(hI O (hM.trans hO)).1.setValue (value_mono hO hval) _, ?_⟩⟩
  · rw [Stmt.bind, show foldBlock _ = _ from Form.folded.block_define .., execAll_singleton, exec, Expr.ty_castIfNeeded, execDefine]
    refine bind_eq_ok.2 ⟨.word v, t, value_run (he s t hI), ?_⟩
    rw [Value.convert_word hv]
    rfl
  · intro m w _ hw
    rw [State.get?_set]
    split_ifs with heq
    · rw [← heq, hval] at hw
      exact congrArg (some ∘ Value.word) (Option.some.inj hw)
    · exact hI.holds m w trivial ((honly hw).resolve_left fun h => heq h.symm)

/-- a size that is a number of the histogram, or computed from such numbers -/
theorem bindStrict (he : L.Strict e e') : L.Tracks (Emit.bindSize label e) (Emit.bindSize label' e') fun M x y => M.Fixed x y := by
  have hknown := he.twins.constant?
  cases h : e.constant? with
  | some v => exact bindKnown h (hknown.trans h) (he.words.constant? h)
  | none =>
    refine (bindUnknown h (hknown.trans h) ?_).imp fun M x y _ => ?_
    · rw [castIfNeeded_of_ty he.number.ty, castIfNeeded_of_ty he.number.ty']
      exact he.number.same
    · rintro ⟨n, m, rfl, rfl, hr, hw⟩
      exact .var hr hw

/-- a size that the histogram gives -/
theorem bindShared (he : H.SharedExpr e) (hw : e.Words) :
    L.Tracks (Emit.bindSize label e) (Emit.bindSize label' e) fun M x y => M.Fixed x y := by
  cases h : e.constant? with
  | some v => exact bindKnown h h (hw.constant? h)
  | none =>
    refine (bindUnknown h h (same_shared (he.castIfNeeded .i64))).imp fun M x y _ => ?_
    rintro ⟨n, m, rfl, rfl, hr, hw⟩
    exact .var hr hw

/-- a size that depends on the choices -/
theorem bindLoose (he : L.SameNumber e e') (hw : e.Words) (hopen : e'.constant? = none) (hp : ∀ v, e.constant? = some v → P v) :
    L.Tracks (Emit.bindSize label e) (Emit.bindSize label' e') fun M x y => M.Loose P x y := by
  cases h : e.constant? with
  | some v =>
    refine (bindValue h hopen (hw.constant? h) fun s t hI => ?_).imp fun M x y _ => ?_
    · rw [castIfNeeded_of_ty he.ty']
      exact (he.computes_known h hI.linked hI.holds).evals
    · rintro ⟨rfl, m, rfl, hm⟩
      exact .value hm (hp v h)
  | none =>
    refine (bindUnknown h hopen ?_).imp fun M x y _ => ?_
    · rw [castIfNeeded_of_ty he.ty, castIfNeeded_of_ty he.ty']
      exact he.same
    · rintro ⟨n, m, rfl, rfl, hr, hw⟩
      exact .var hr hw

end Tracks

/-! ## Plans -/

/-- one operator in both plans -/
structure SamePart (L : Link H) (p q : Part) : Prop where
  op : q.op = p.op
  contribution : q.contribution = p.contribution
  width : L.Fixed p.width q.width
  bucketSize : L.Fixed p.bucketSize q.bucketSize
  dests : p.subs.dests = p.op.dests
  dests' : q.subs.dests = p.op.dests
  neutral : p.subs.neutral = p.op.neutral
  neutral' : q.subs.neutral = p.op.neutral
  subs : List.Forall₂ L.rel p.subs.subs q.subs.subs
  segments : L.Fixed p.subs.segments q.subs.segments
  product : p.subs.size = p.width * p.bucketSize
  product' : q.subs.size = q.width * q.bucketSize
  operatorNames : p.op.Names H.Shared
  operatorWords : p.op.Words
  contributionNames : p.contribution.Names H.Shared

/-- a dimension of the space with its size -/
def SameDim (L : Link H) (x y : Name × Expr) : Prop := x.1 = y.1 ∧ H.Shared x.1 ∧ L.Fixed x.2 y.2

theorem SameDim.mono {x y : Name × Expr} (h : L ≤ M) (hxy : L.SameDim x y) : M.SameDim x y := ⟨hxy.1, hxy.2.1, hxy.2.2.mono h⟩

/-- the plans of a histogram -/
structure SamePlan (L : Link H) (h : Histogram) (p q : Plan) : Prop where
  hist : p.hist = h
  hist' : q.hist = h
  lockCount : q.lockCount = p.lockCount
  lockCount_fits : Word64.fits p.lockCount = true
  groupSize : L.Loose (0 < ·) p.groupSize q.groupSize
  groupCount : L.Loose (0 < ·) p.groupCount q.groupCount
  threads : L.Loose (0 < ·) p.threads q.threads
  segmentDims : List.Forall₂ L.SameDim p.segmentDims q.segmentDims
  segments : L.Fixed p.segments q.segments
  elements : L.Fixed p.elements q.elements
  parts : List.Forall₂ L.SamePart p.parts q.parts

theorem SamePart.mono {p q : Part} (h : L ≤ M) (hp : L.SamePart p q) : M.SamePart p q :=
  { hp with
    width := hp.width.mono h
    bucketSize := hp.bucketSize.mono h
    subs := hp.subs.imp fun _ _ => rel_mono h
    segments := hp.segments.mono h }

/-- the elements of one copy -/
theorem SamePart.size {p q : Part} (hp : L.SamePart p q) : L.Strict p.subs.size q.subs.size := by
  rw [hp.product, hp.product']
  exact hp.width.strict.op2 .mul rfl hp.bucketSize.strict

/-- the bytes of one histogram -/
theorem SamePlan.histBytes {h : Histogram} {p q : Plan} (hp : L.SamePlan h p q) :
    L.Strict (Plan.histBytes p.parts) (Plan.histBytes q.parts) := by
  refine .sum (List.rel_map (fun x y hxy => ?_) hp.parts)
  unfold Operator.histBytes
  rw [hxy.op]
  have hsize : L.Strict (x.width * x.bucketSize) (y.width * y.bucketSize) :=
    hxy.width.strict.op2 .mul rfl hxy.bucketSize.strict
  exact hsize.op2 .mul rfl (.literal (Operator.fits_tupleBytes hxy.operatorWords.dests))

theorem SamePlan.mono {h : Histogram} {p q : Plan} (hM : L ≤ M) (hp : L.SamePlan h p q) : M.SamePlan h p q :=
  { hp with
    groupSize := hp.groupSize.mono hM
    groupCount := hp.groupCount.mono hM
    threads := hp.threads.mono hM
    segmentDims := hp.segmentDims.imp fun _ _ h => h.mono hM
    segments := hp.segments.mono hM
    elements := hp.elements.mono hM
    parts := hp.parts.imp fun _ _ => .mono hM }

theorem sharedExpr_foldl (op : Binary) {es : List Expr} (he : H.SharedExpr e) (hes : ∀ x ∈ es, H.SharedExpr x) :
    H.SharedExpr (es.foldl (.op2 op) e) := by
  induction es generalizing e with
  | nil => exact he
  | cons x es ih =>
    rw [List.forall_mem_cons] at hes
    exact ih (sharedExpr_binary.2 ⟨he, hes.1⟩) hes.2

theorem sharedExpr_product {es : List Expr} (hes : ∀ x ∈ es, H.SharedExpr x) : H.SharedExpr (.product es) := by
  cases es with
  | nil => exact sharedExpr_int
  | cons x es =>
    rw [List.forall_mem_cons] at hes
    exact sharedExpr_foldl .mul hes.1 hes.2

/-- a size that is chosen: known in the first program, asked for by the second -/
theorem bindChoice {id : String} (hv : Word64.fits v = true) (hp : P v) (hid : H.second.sizes id = some v) :
    L.Tracks (Emit.bindSize label (.i64 v)) (Emit.bindSize label' (.size id .unknown)) fun M x y => M.Loose P x y := by
  refine (Tracks.bindValue rfl rfl hv fun s t _ => ?_).imp fun M x y _ => ?_
  · change evalSize (H.second.within none) id .unknown = _
    simp only [evalSize, Context.within, hid, Value.ofInt_i64 hv]
  · rintro ⟨rfl, m, rfl, hm⟩
    exact .value hm hp

/-- the arrays of copies of an operator have names that correspond -/
theorem create_draws (op : Operator) (segments segments' w w' b b' : Expr) :
    L.Draws (Subhistograms.create op segments w b : Gen _) (Subhistograms.create op segments' w' b' : Gen _) fun M s s' =>
      ∃ subs subs', s = ⟨op.dests, subs, op.neutral, segments, w * b⟩ ∧ s' = ⟨op.dests, subs', op.neutral, segments', w' * b'⟩ ∧
        List.Forall₂ M.rel subs subs' := by
  refine .liftBind (.liftMapM (forall₂_diagonal fun d hd => hd) (Q := Link.rel) (fun h => rel_mono h) ?_)
    fun M subs subs' _ hsubs => .liftPure ⟨subs, subs', rfl, rfl, hsubs⟩
  rintro M d _ - ⟨rfl, -⟩
  exact (Draws.fresh _ _ False).imp fun _ _ _ _ h => h.1

variable {h : Histogram}

/-- the threads of all groups -/
theorem bindThreads {g g' c c' : Expr} (hg : L.Loose (0 < ·) g g') (hc : L.Loose (0 < ·) c c') :
    L.Tracks (Emit.bindSize "total_threads" (g * c)) (Emit.bindSize "total_threads" (g' * c')) fun M x y => M.Loose (0 < ·) x y := by
  refine .bindLoose (hg.sameSize.mul hc.sameSize).number ⟨hg.words, hc.words⟩ ?_ fun v hv => ?_
  · cases hg <;> cases hc <;> rfl
  · rcases Expr.constant?_mul hv with ⟨a, b, ha, hb, rfl⟩ | ⟨-, ha | hb⟩
    · exact Int.mul_pos (hg.known ha) (hc.known hb)
    · exact absurd (hg.known ha) (by decide)
    · exact absurd (hc.known hb) (by decide)

theorem segmentDims_tracks (hn : h.Names H.Shared) (hw : h.Words) :
    L.Tracks (h.segmentDims.mapM fun x => return (x.1, ← Emit.bindSize "segment_dim" x.2))
      (h.segmentDims.mapM fun x => return (x.1, ← Emit.bindSize "segment_dim" x.2)) fun M xs ys => List.Forall₂ M.SameDim xs ys := by
  refine .mapM (forall₂_diagonal fun x hx => List.dropLast_subset _ hx) (Q := SameDim) (fun h hxy => hxy.mono h) ?_
  rintro M x _ - ⟨rfl, hx⟩
  exact .bind (.bindShared (hn.space x hx).2 (hw.space x hx)) fun N e e' _ he => .pure ⟨rfl, (hn.space x hx).1, he⟩

/-- a size that every operator has -/
theorem operatorSizes_tracks {f : Operator → Expr} (hf : ∀ op ∈ h.operators, H.SharedExpr (f op) ∧ (f op).Words) :
    L.Tracks (h.operators.mapM fun op => Emit.bindSize label (f op)) (h.operators.mapM fun op => Emit.bindSize label' (f op))
      fun M xs ys => List.Forall₂ M.Fixed xs ys := by
  refine .mapM (forall₂_diagonal hf) (Q := Fixed) (fun h hxy => hxy.mono h) ?_
  rintro M op _ - ⟨rfl, hshared, hwords⟩
  exact .bindShared hshared hwords

/-- one operator in the plan -/
theorem part_tracks {op : Operator} {c : Contribution} {w w' b b' d d' : Expr} (hop : op.Names H.Shared) (hwords : op.Words)
    (hc : c.Names H.Shared) (hw : L.Fixed w w') (hb : L.Fixed b b') (hd : L.Fixed d d') :
    L.Tracks (do return Part.mk op c w b (← (Subhistograms.create op d w b : Gen _)))
      (do return Part.mk op c w' b' (← (Subhistograms.create op d' w' b' : Gen _))) SamePart := by
  refine .bind (.lift (create_draws op d d' w w' b b')) fun M s s' hM ⟨subs, subs', hs, hs', hsubs⟩ => .pure ?_
  subst hs hs'
  exact
    { op := rfl
      contribution := rfl
      width := hw.mono hM
      bucketSize := hb.mono hM
      dests := rfl
      dests' := rfl
      neutral := rfl
      neutral' := rfl
      subs := hsubs
      segments := hd.mono hM
      product := rfl
      product' := rfl
      operatorNames := hop
      operatorWords := hwords
      contributionNames := hc }

/-- **Planning.** The plan for chosen sizes and the plan that asks for them are the same, up to what depends on them. -/
theorem plan_tracks {o o' : Options} {g n : Int} (hvalid : h.validate = .ok ()) (hn : h.Names H.Shared) (hw : h.Words)
    (hg : Word64.fits g = true) (hgpos : 0 < g) (hc : Word64.fits n = true) (hcpos : 0 < n)
    (hlocks : Word64.fits o.lockCount = true) (hlocks' : o'.lockCount = o.lockCount)
    (hfixed : o.groupSize = some g ∧ o.groupCount = some n) (hopen : o'.groupSize = none ∧ o'.groupCount = none)
    (hsize : H.second.sizes h.groupSizeId = some g) (hcount : H.second.sizes h.groupCountId = some n) :
    L.Tracks (h.plan o) (h.plan o') fun M p q => M.SamePlan h p q := by
  unfold Histogram.plan
  rw [hfixed.1, hfixed.2, hopen.1, hopen.2]
  refine .bind (bindChoice hg hgpos hsize) fun L₁ gs gs' _ hgs => .bind (bindChoice hc hcpos hcount) fun L₂ gc gc' h₂ hgc => ?_
  refine .bind (bindThreads (hgs.mono h₂) hgc) fun L₃ threads threads' h₃ hthreads => ?_
  refine .bind (segmentDims_tracks hn hw) fun L₄ dims dims' h₄ hdims => ?_
  refine .bind (.bindStrict (.product (List.rel_map (fun _ _ h => h.2.2.strict) hdims))) fun L₅ segments segments' h₅ hsegments => ?_
  obtain ⟨x, hx⟩ := Option.ne_none_iff_exists'.1 (Histogram.elementDim?_ne_none hvalid)
  have hmem := List.mem_of_getLast? hx
  rw [hx]
  refine .bind (.bindShared (hn.space _ hmem).2 (hw.space _ hmem)) fun L₆ elements elements' h₆ helements => ?_
  refine .bind (operatorSizes_tracks fun op hop => ⟨(hn.operators op hop).width, (hw.operators op hop).width⟩)
    fun L₇ widths widths' h₇ hwidths => ?_
  refine .bind (operatorSizes_tracks fun op hop =>
    ⟨sharedExpr_product (hn.operators op hop).shape, (Expr.words_product _).2 (hw.operators op hop).shape⟩)
    fun L₈ sizes sizes' h₈ hsizes => ?_
  have hoperators := forall₂_diagonal fun op hop => And.intro (hn.operators op hop) (hw.operators op hop)
  have hsized := forall₂_zip hoperators (forall₂_zip (forall₂_diagonal hn.contributions)
    (forall₂_zip (hwidths.imp fun _ _ h => h.mono h₈) hsizes))
  have h₅₈ := h₆.trans (h₇.trans h₈)
  refine .bind (Tracks.mapM hsized (Q := SamePart) (fun h hxy => hxy.mono h) ?_) fun L₉ parts parts' h₉ hparts => .pure ?_
  · rintro M ⟨op, c, w, b⟩ ⟨_, _, w', b'⟩ hM ⟨⟨rfl, hop, hwords⟩, ⟨rfl, hcontr⟩, hwb, hbb⟩
    exact part_tracks hop hwords hcontr (hwb.mono hM) (hbb.mono hM) (hsegments.mono (h₅₈.trans hM))
  · have h₅₉ := h₅₈.trans h₉
    have h₃₉ := h₄.trans (h₅.trans h₅₉)
    exact
      { hist := rfl
        hist' := rfl
        lockCount := hlocks'
        lockCount_fits := hlocks
        groupSize := hgs.mono (h₂.trans (h₃.trans h₃₉))
        groupCount := hgc.mono (h₃.trans h₃₉)
        threads := hthreads.mono h₃₉
        segmentDims := hdims.imp fun _ _ h => h.mono (h₅.trans h₅₉)
        segments := hsegments.mono h₅₉
        elements := helements.mono (h₇.trans (h₈.trans h₉))
        parts := hparts }

end Machine.Link

end GpuHistogram
