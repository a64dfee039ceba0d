/-
The decision that a run makes. Where a histogram does not say its sizes in advance the host code computes them, compares
the bytes of the copies and locks with the limit of the device, and launches the one kernel or the other. The kernel that
accumulates in local memory is launched with blocks that are evaluated later than the decision, from the same variables:
what they take is the number that was compared.
-/
import GpuHistogram.Proofs.Budget

namespace GpuHistogram

open Machine

variable {c : Context} {s t : State} {k k' : ℕ} {V : List Name} {P : Int → Prop} {e : Expr}

/-! ## Values of sizes -/

/-- a settled size has a value where the variables of sizes are bound -/
theorem Expr.Settled.computes (h : e.Settled V k P) (hP : ∀ v, P v → Word64.fits v = true) (hV : ∀ n ∈ V, HoldsWord s n) :
    ∃ a, ∀ f, Computes f c s e a := by
  rcases h with ⟨v, rfl, hv⟩ | ⟨n, hn, -, rfl⟩
  · exact ⟨v, fun _ => .literal (hP v hv)⟩
  · obtain ⟨a, ha, hget⟩ := hV n hn
    exact ⟨a, fun _ => .ofName hget ha⟩

/-- it keeps its value while the variables drawn before do -/
theorem Expr.Settled.keeps (h : e.Settled V k P) (hvars : ∀ n : Name, n.Before k → t.vars.get? n = s.vars.get? n) {f : Form}
    {a : Int} (ha : Computes f c s e a) : Computes f c t e a := by
  rcases h with ⟨v, rfl, -⟩ | ⟨n, -, hn, rfl⟩
  · cases f with
    | plain =>
      obtain rfl := ha.word.exact v .i64 .unknown rfl
      exact .literal ha.fits
    | folded =>
      obtain rfl := ha.word.exact v .i64 .unknown rfl
      exact .literal ha.fits
  · have hget : s.vars.get? n = some (.word a) := by
      cases f with
      | plain => exact eval_var_eq_ok.1 ha.word.value
      | folded => exact eval_var_eq_ok.1 ha.word.value
    exact .ofName ((hvars n hn).trans hget) ha.fits

/-- a known 64-bit expression has the value that is known -/
theorem Machine.Computes.of_constant? {a v : Int} (ha : Computes .folded c s e a) (hv : e.constant? = some v) : v = a := by
  obtain ⟨ty, o, he⟩ := Expr.fold_of_constant? hv
  exact ha.word.exact v ty o he

/-- a size that is bound has the value of the expression -/
theorem BindsSize.computes {label : String} {e' : Expr} {l : List Stmt} {a : Int} (h : BindsSize label e k e' l k')
    (ha : Computes .folded c s e a) (hrun : execAll (launch c) c (foldBlock l) s = .ok () t) (f : Form) :
    Computes f c t e' a := by
  rcases h with ⟨v, hv, rfl, rfl, -⟩ | ⟨-, rfl, rfl, -⟩
  · obtain rfl := ha.of_constant? hv
    exact .literal ha.fits
  · have hcast : e.castIfNeeded .i64 = e := by
      unfold Expr.castIfNeeded
      exact if_pos ha.ty
    rw [hcast, show foldBlock [Stmt.bind ⟨label, some k⟩ e] = [.define e.ty ⟨label, some k⟩ e.fold .unknown] from
      Form.block_define .folded .., execAll_singleton, exec, ha.ty] at hrun
    obtain ⟨v, w, hvalue, hx⟩ := bind_eq_ok.1 hrun
    obtain ⟨hv, rfl⟩ := value_eq_ok.1 hvalue
    obtain rfl := setVar_eq_ok.1 hx
    have hword : v = .word a := Except.ok.inj (hv.symm.trans ha.evals)
    refine .ofName ?_ ha.fits
    rw [State.get?_set, if_pos rfl, hword]
    exact congrArg some (Value.convert_word ha.fits)

/-! ## Bytes of one histogram -/

namespace Plan

variable {p : Plan} {h : Histogram} {o : Options}

/-- the bytes of the locks, if there are any -/
def locksOf (p : Plan) (threads : Int) : Int :=
  if p.operators.any Operator.needsLock then threads * 4 else 0

/-- where local memory is chosen without overflow, the bytes of the copies and locks are within the limit -/
theorem bytes_of_localFits {b t m : Expr} {H G T M : Int} (hb : Computes .folded c s b H)
    (hg : Computes .folded c s p.groupSize G) (ht : Computes .folded c s t T) (hm : Computes .folded c s m M) (h0 : H ≠ 0)
    (hex : Exact c s (Placement.localFits b p.groupSize t m p.lockBytes).fold) {v : Value}
    (hv : eval c s (Placement.localFits b p.groupSize t m p.lockBytes).fold = .ok v) (htrue : v.truth = true) :
    0 < G ∧ ∃ n, Computes .folded c s (Placement.localCopies p.groupSize t b) n ∧ H * n + p.locksOf G ≤ M := by
  obtain ⟨⟨v₁, hv₁, ht₁, hex₁⟩, v₂, hv₂, ht₂, hex₂⟩ := hex.of_foldAnd hv htrue
  obtain ⟨-, v₃, hv₃, ht₃, -⟩ := hex₁.of_foldAnd hv₁ ht₁
  obtain ⟨⟨v₄, hv₄, ht₄, hex₄⟩, -⟩ := hex₂.of_foldAnd hv₂ ht₂
  have hpos : Evals .folded c s (p.groupSize.gt 0) (.bool (0 < G)) := Evals.compare hg .zero rfl
  refine ⟨?_, ?_⟩
  · obtain rfl := Except.ok.inj (hpos.symm.trans hv₃)
    exact of_decide_eq_true ht₃
  have hsum : Exact c s (p.lockBytes + b * Placement.localCopies p.groupSize t b).fold :=
    hex₄.left_of_foldBinary rfl fun h => nomatch h
  have hlocks : Computes .folded c s p.lockBytes (p.locksOf G) := by
    have hex₅ : Exact c s p.lockBytes.fold := hsum.left_of_foldBinary rfl fun h => nomatch h
    unfold lockBytes locksOf at *
    split_ifs at hex₅ ⊢
    · exact hg.op2_of_exact (.literal (by decide)) rfl hex₅
    · exact .zero
  have hbytes : Exact c s (b * Placement.localCopies p.groupSize t b).fold :=
    hsum.right_of_foldBinary rfl hlocks.word.value fun h => nomatch h
  have hb0 : b.fold.isLiteral 0 = false := by
    refine Bool.eq_false_iff.2 fun hlit => ?_
    exact h0 (hb.word.of_isLiteral hlit)
  have hcopies : Exact c s (Placement.localCopies p.groupSize t b).fold :=
    hbytes.right_of_foldBinary rfl hb.word.value fun _ => hb0
  -- the parts of the quotient one after the other, from the inside
  have hless : Exact c s (p.groupSize * t + b - 1).fold := hcopies.left_of_foldBinary rfl fun h => nomatch h
  have hmore : Exact c s (p.groupSize * t + b).fold := hless.left_of_foldBinary rfl fun h => nomatch h
  have hproduct : Exact c s (p.groupSize * t).fold := hmore.left_of_foldBinary rfl fun h => nomatch h
  have hn : Computes .folded c s (Placement.localCopies p.groupSize t b) ((G * T + H - 1).tdiv H) :=
    (((hg.op2_of_exact ht rfl hproduct).op2_of_exact hb rfl hmore).op2_of_exact .one rfl hless).op2_of_exact hb
      (if_neg h0) hcopies
  refine ⟨_, hn, ?_⟩
  have htotal := hlocks.op2_of_exact (hb.op2_of_exact hn rfl hbytes) rfl hsum
  have hle := (Evals.compare htotal hm rfl : Evals .folded c s (.op2 .le _ _) _)
  obtain rfl := Except.ok.inj (hle.symm.trans hv₄)
  have := of_decide_eq_true ht₄
  omega

end Plan

/-! ## The blocks of a launch -/

/-- the number of elements of a block that is evaluated -/
def BlockSize.count (c : Context) (s : State) : BlockSize → Int
  | .fixed n => n
  | .computed e => (evalInt c s e).toOption.getD 0

/-- the bytes of the local memory of a group -/
def Machine.SizedBlock.bytes (b : SizedBlock) : ℕ := b.count * b.elem.bytes

/-- the bytes that are evaluated are those of the declared blocks -/
theorem bytes_of_evalBlocks {spec : LaunchSpec} {blocks : List SizedBlock} (h : evalBlocks c s spec = .ok blocks) :
    ((blocks.map SizedBlock.bytes).sum : Int) = Plan.bytesOf (BlockSize.count c s) spec.blocks := by
  unfold evalBlocks at h
  generalize spec.blocks = bs at h
  induction bs generalizing blocks with
  | nil =>
    cases h
    rfl
  | cons b bs ih =>
    rw [List.mapM_cons] at h
    obtain ⟨b', hb, h⟩ := except_bind_eq_ok.1 h
    obtain ⟨bs', hbs, h⟩ := except_bind_eq_ok.1 h
    obtain rfl := except_pure_eq_ok.1 h
    have hsize : ∃ n : Int, 0 ≤ n ∧ b.size.count c s = n ∧ b' = ⟨b.name, b.elem, n.toNat⟩ := by
      cases hsz : b.size with
      | fixed n =>
        rw [hsz] at hb
        by_cases hneg : n < 0
        · simp [hneg, throw, throwThe, MonadExceptOf.throw] at hb
        · simp only [pure_bind, if_neg hneg] at hb
          exact ⟨n, not_lt.1 hneg, rfl, (Except.ok.inj hb).symm⟩
      | computed e =>
        rw [hsz] at hb
        obtain ⟨n, hn, hb⟩ := except_bind_eq_ok.1 hb
        by_cases hneg : n < 0
        · simp [hneg, throw, throwThe, MonadExceptOf.throw] at hb
        · simp only [if_neg hneg] at hb
          refine ⟨n, not_lt.1 hneg, ?_, (Except.ok.inj hb).symm⟩
          simp only [BlockSize.count, hn]
          rfl
    obtain ⟨n, hn, hcount, rfl⟩ := hsize
    rw [List.map_cons, List.sum_cons, Nat.cast_add, ih hbs, SizedBlock.bytes, Nat.cast_mul, Int.toNat_of_nonneg hn, ← hcount]
    rfl

/-- a block has as many elements as its size says, where that is known and where it is computed -/
theorem BlockSize.count_ofExpr {a : Int} (hknown : ∀ v, e.constant? = some v → v = a)
    (hopen : e.constant? = none → Computes .plain c s e a) : (BlockSize.ofExpr e).count c s = a := by
  unfold BlockSize.ofExpr
  split
  · rename_i v hv
    exact hknown v hv
  · rename_i hv
    have ha := hopen hv
    have heval : evalInt c s e = .ok a := by
      unfold evalInt
      rw [show eval c s e = _ from ha.word.value]
      exact congrArg Except.ok (Value.toInt64_word ha.fits)
    simp only [BlockSize.count, heval]
    rfl

/-- what a block of so many copies has, where the product does not overflow -/
theorem BlockSize.count_of_exact {l w b : Expr} {n x y : Int} (hl : ∀ f, Computes f c s l n) (hw : ∀ f, Computes f c s w x)
    (hb : ∀ f, Computes f c s b y) (h : ∀ e, BlockSize.ofExpr (l * (w * b)) = .computed e → Exact c s e) :
    (BlockSize.ofExpr (l * (w * b))).count c s = n * (x * y) := by
  have hproduct {v : Int} (hv : (w * b).constant? = some v) : v = x * y := by
    obtain ⟨ty, o, he⟩ := Expr.fold_of_constant? hv
    have hex : Exact c s (w * b).fold := by
      rw [he]
      trivial
    exact ((hw .folded).op2_of_exact (hb .folded) rfl hex).of_constant? hv
  refine count_ofExpr (fun v hv => ?_) fun hv => ?_
  · rcases Expr.constant?_mul hv with ⟨a, d, ha, hd, rfl⟩ | ⟨rfl, ha | hd⟩
    · rw [(hl .folded).of_constant? ha, hproduct hd]
    · rw [← (hl .folded).of_constant? ha, zero_mul]
    · rw [← hproduct hd, mul_zero]
  · have hex : Exact c s (l * (w * b)) := h _ (by rw [BlockSize.ofExpr, hv])
    have hinner : Exact c s (w * b) := hex.2.1 _ (hl .plain).word.value (by simp) (by simp)
    exact (hl .plain).op2_of_exact ((hw .plain).op2_of_exact (hb .plain) rfl hinner) rfl hex

end GpuHistogram
