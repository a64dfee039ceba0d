/-
Numbering indices. `digits ds r` are the indices with the number `r` in a space with the sizes `ds`, the last varying
fastest, and `ordinal ds is` is the number of the indices `is`.

`defineIndices_runs`: the generated definitions give the index variables the digits of a number.
`flatIndex_computes`: the generated expression is the number of the indices it is given.
`bucketLoops_runs`: the nested loops run through all indices in the order of their numbers.
-/
import GpuHistogram.Histogram.Index
import GpuHistogram.Proofs.Generate
import GpuHistogram.Proofs.Tuples
import Mathlib.Algebra.BigOperators.Group.List.Basic

namespace GpuHistogram

/-- the indices with a number, for the sizes of the dimensions -/
def digits : List ℕ → ℕ → List ℕ
  | [], _ => []
  | d :: ds, r => r / ds.prod % d :: digits ds r

theorem length_digits (ds : List ℕ) (r : ℕ) : (digits ds r).length = ds.length := by
  induction ds with
  | nil => rfl
  | cons d ds ih => simp [digits, ih]

theorem digits_mul_add (ds : List ℕ) (q r : ℕ) : digits ds (q * ds.prod + r) = digits ds r := by
  induction ds generalizing q with
  | nil => rfl
  | cons d ds ih =>
    have hq : q * (d :: ds).prod + r = q * d * ds.prod + r := by
      rw [List.prod_cons, mul_assoc]
    rw [digits, digits, hq, ih (q * d)]
    rcases Nat.eq_zero_or_pos ds.prod with h | h
    · simp [h]
    · rw [add_comm, Nat.add_mul_div_right _ _ h, Nat.add_mul_mod_self_right]

theorem prod_pos {ds : List ℕ} (hpos : ∀ d ∈ ds, 0 < d) : 0 < ds.prod := by
  induction ds with
  | nil => simp
  | cons d ds ih =>
    rw [List.prod_cons]
    exact Nat.mul_pos (hpos d (List.mem_cons_self ..)) (ih fun e he => hpos e (List.mem_cons_of_mem d he))

theorem pos_of_prod_pos {ds : List ℕ} (h : 0 < ds.prod) : ∀ d ∈ ds, 0 < d := fun _ hd =>
  Nat.pos_of_dvd_of_pos (List.dvd_prod hd) h

/-- the number of indices -/
def ordinal : List ℕ → List ℕ → ℕ
  | _ :: ds, i :: is => i * ds.prod + ordinal ds is
  | _, _ => 0

theorem digits_lt {ds : List ℕ} (hpos : ∀ d ∈ ds, 0 < d) (r : ℕ) : List.Forall₂ (· < ·) (digits ds r) ds := by
  induction ds with
  | nil => exact .nil
  | cons d ds ih =>
    obtain ⟨hd, hds⟩ := List.forall_mem_cons.1 hpos
    exact .cons (Nat.mod_lt _ hd) (ih hds)

theorem ordinal_lt {is ds : List ℕ} (h : List.Forall₂ (· < ·) is ds) : ordinal ds is < ds.prod := by
  induction h with
  | nil => simp [ordinal]
  | @cons i d is ds hi _ ih =>
    calc ordinal (d :: ds) (i :: is) < i * ds.prod + ds.prod := Nat.add_lt_add_left ih _
      _ = (i + 1) * ds.prod := by ring
      _ ≤ d * ds.prod := Nat.mul_le_mul_right _ hi
      _ = (d :: ds).prod := List.prod_cons.symm

theorem lt_prod {is ds : List ℕ} (h : List.Forall₂ (· < ·) is ds) : ∀ i ∈ is, i < ds.prod := by
  induction h with
  | nil => simp
  | @cons j d is ds hj his ih =>
    have hpos : 0 < ds.prod := Nat.zero_lt_of_lt (ordinal_lt his)
    rw [List.prod_cons]
    refine List.forall_mem_cons.2 ⟨hj.trans_le (Nat.le_mul_of_pos_right _ hpos), fun i hi => ?_⟩
    exact (ih i hi).trans_le (Nat.le_mul_of_pos_left _ (Nat.zero_lt_of_lt hj))

/-- indices are found again from their number -/
theorem digits_ordinal {is ds : List ℕ} (h : List.Forall₂ (· < ·) is ds) : digits ds (ordinal ds is) = is := by
  induction h with
  | nil => rfl
  | @cons i d is ds hi his ih =>
    have hlt := ordinal_lt his
    have hfirst : (i * ds.prod + ordinal ds is) / ds.prod = i := by
      rw [add_comm, Nat.add_mul_div_right _ _ (by omega), Nat.div_eq_of_lt hlt, zero_add]
    rw [ordinal, digits, hfirst, Nat.mod_eq_of_lt hi, digits_mul_add, ih]

/-- a ordinal is found again from its indices -/
theorem ordinal_digits (ds : List ℕ) (r : ℕ) : ordinal ds (digits ds r) = r % ds.prod := by
  induction ds with
  | nil => simp [ordinal, Nat.mod_one]
  | cons d ds ih =>
    rw [digits, ordinal, ih, List.prod_cons, mul_comm d, Nat.mod_mul]
    ring

theorem Word64.fits_le {a b : ℕ} (h : Word64.fits (b : Int) = true) (hab : a ≤ b) : Word64.fits (a : Int) = true := by
  rw [Word64.fits_iff] at h ⊢
  omega

namespace Machine

variable {f : Form} {L : LaunchSpec → List Stmt → Exec Unit} {c : Context} {s t : State} {Q : State → Prop}
  {k : ℕ} {X : List Name}

/-- the values of indices -/
def words (is : List ℕ) : List Value := is.map fun i => .word (i : ℕ)

/-- a size keeps its value when only variables change that are younger or in `X` -/
theorem Quantity.keeps {e : Expr} {a : ℕ} {V W : List Name} (h : Quantity k X s e a) (hk : Keeps V W s t)
    (hV : ∀ n ∈ V, n.Before k → n ∈ X) : Quantity k X t e a :=
  h.keep (Nat.le_refl k) fun n hn => hk.vars n fun hm => (h.scalars n hn).2 (hV n hm (h.scalars n hn).1)

/-- sizes, one for each number -/
def Sizes (k : ℕ) (X : List Name) (s : State) (es : List Expr) (ds : List ℕ) : Prop :=
  List.Forall₂ (Quantity k X s) es ds

theorem Sizes.keeps {es : List Expr} {ds : List ℕ} {V W : List Name} (h : Sizes k X s es ds) (hk : Keeps V W s t)
    (hV : ∀ n ∈ V, n.Before k → n ∈ X) : Sizes k X t es ds :=
  h.imp fun _ _ he => he.keeps hk hV

/-- the products of the first of some numbers are words -/
def ProductsFit (ds : List ℕ) : Prop := ∀ l, l <+: ds → Word64.fits (l.prod : ℕ) = true

theorem ProductsFit.prod {ds : List ℕ} (h : ProductsFit ds) : Word64.fits (ds.prod : ℕ) = true := h ds List.prefix_rfl

theorem ProductsFit.of_pos {ds : List ℕ} (hpos : ∀ d ∈ ds, 0 < d) (hfit : Word64.fits (ds.prod : ℕ) = true) :
    ProductsFit ds := by
  rintro l ⟨l', rfl⟩
  rw [List.prod_append] at hfit
  exact Word64.fits_le hfit (Nat.le_mul_of_pos_right _ (prod_pos fun d hd => hpos d (List.mem_append_right l hd)))

/-- what holds of expressions with their values, and of products of such, holds of the product of all -/
theorem product_of {P : Expr → ℕ → Prop} (hone : P 1 1)
    (hmul : ∀ {l r a b}, P l a → P r b → Word64.fits (a * b : ℕ) = true → P (l * r) (a * b)) {es : List Expr} {ds : List ℕ}
    (h : List.Forall₂ P es ds) (hfit : ProductsFit ds) : P (.product es) ds.prod := by
  have hfoldl {es : List Expr} {ds : List ℕ} (h : List.Forall₂ P es ds) : ∀ {e : Expr} {a : ℕ}, P e a →
      (∀ l, l <+: ds → Word64.fits (a * l.prod : ℕ) = true) → P (es.foldl (· * ·) e) (a * ds.prod) := by
    induction h with
    | nil =>
      intro e a ha _
      simpa using ha
    | @cons e' d es ds he _ ih =>
      intro e a ha hfit
      rw [List.prod_cons, ← mul_assoc]
      refine ih (hmul ha he ?_) fun l hl => ?_
      · simpa using hfit [d] ⟨ds, rfl⟩
      · rw [mul_assoc, ← List.prod_cons]
        exact hfit (d :: l) (List.cons_prefix_cons.2 ⟨rfl, hl⟩)
  cases h with
  | nil => exact hone
  | @cons e d es ds he hes =>
    rw [List.prod_cons]
    refine hfoldl hes he fun l hl => ?_
    rw [← List.prod_cons]
    exact hfit (d :: l) (List.cons_prefix_cons.2 ⟨rfl, hl⟩)

/-- the product of sizes -/
theorem Quantity.product {es : List Expr} {ds : List ℕ} (h : Sizes k X s es ds) (hfit : ProductsFit ds) :
    Quantity k X s (.product es) ds.prod :=
  product_of .one mul h hfit

/-- 64-bit expressions with natural numbers as their values -/
def AllCompute (f : Form) (c : Context) (s : State) (es : List Expr) (is : List ℕ) : Prop :=
  List.Forall₂ (fun e (i : ℕ) => Computes f c s e i) es is

theorem Computes.product {es : List Expr} {ds : List ℕ} (h : AllCompute f c s es ds) (hfit : ProductsFit ds) :
    Computes f c s (.product es) ds.prod :=
  product_of (P := fun e (d : ℕ) => Computes f c s e d) .one mulNat h hfit

/-- the 64-bit expression has a value, whatever the variables `V` hold -/
def Steady (f : Form) (c : Context) (V : List Name) (s : State) (e : Expr) (a : ℕ) : Prop :=
  ∀ t, Keeps V [] s t → Computes f c t e a

theorem Steady.computes {V : List Name} {e : Expr} {a : ℕ} (h : Steady f c V s e a) : Computes f c s e a :=
  h s (.refl _ _ _)

theorem Steady.keeps {V : List Name} {e : Expr} {a : ℕ} (h : Steady f c V s e a) (hk : Keeps V [] s t) :
    Steady f c V t e a := fun u hu => h u (hk.trans hu)

theorem Sizes.steady {es : List Expr} {ds : List ℕ} {V : List Name} (h : Sizes k X s es ds) (hV : ∀ n ∈ V, n ∈ X) :
    List.Forall₂ (Steady f c V s) es ds :=
  h.imp fun _ _ he _ ht => (he.keeps ht fun n hn _ => hV n hn).computes f c

/-! ## Indices of a number -/

theorem defineIndicesRest_runs {V : List Name} {flat : Expr} {r : ℕ} (dims : List (Name × Expr)) (ds : List ℕ)
    (hds : List.Forall₂ (Steady f c V s) (dims.map (·.2)) ds) (hpos : ∀ d ∈ ds, 0 < d)
    (hfit : Word64.fits (ds.prod : ℕ) = true) (hV : dims.map (·.1) ⊆ V) (hnd : (dims.map (·.1)).Nodup)
    (hflat : Steady f c V s flat r)
    (hq : ∀ t, Keeps (dims.map (·.1)) [] s t →
      Holds t (dims.map (·.1)) (words (digits ds r)) → Q t) :
    Runs f L c (defineIndicesRest flat dims) s Q := by
  induction dims generalizing s ds with
  | nil =>
    exact Runs.nil (hq s (.refl _ _ _) fun i n v hn _ => nomatch hn)
  | cons a dims ih =>
    obtain ⟨n, size⟩ := a
    cases hds with
    | @cons _ d _ ds hd hds =>
      rw [List.map_cons, List.nodup_cons] at hnd
      rw [List.map_cons, List.cons_subset] at hV
      have hpos' : ∀ d ∈ ds, 0 < d := fun d' hd' => hpos d' (List.mem_cons_of_mem _ hd')
      have hd0 : 0 < d := hpos d (List.mem_cons_self ..)
      rw [List.prod_cons] at hfit
      have hfit' : Word64.fits (ds.prod : ℕ) = true := Word64.fits_le hfit (Nat.le_mul_of_pos_left _ hd0)
      have hproduct : Computes f c s (.product (dims.map (·.2))) ds.prod :=
        .product (hds.imp fun _ _ he => he.computes) (.of_pos hpos' hfit')
      have hvalue : Computes f c s (flat / .product (dims.map (·.2)) % size) (r / ds.prod % d : ℕ) :=
        (hflat.computes.div hproduct (prod_pos hpos')).mod hd.computes hd0
      have hset : Keeps (n :: dims.map (·.1)) [] s (s.set n (.word (r / ds.prod % d : ℕ))) :=
        .set (List.mem_cons_self ..) _
      have hsetV : Keeps V [] s (s.set n (.word (r / ds.prod % d : ℕ))) := .set hV.1 _
      have hsub {t : State} (ht : Keeps (dims.map (·.1)) [] (s.set n (.word (r / ds.prod % d : ℕ))) t) :
          Keeps (n :: dims.map (·.1)) [] s t :=
        hset.trans (ht.mono (List.subset_cons_self _ _) (List.Subset.refl _))
      refine Runs.bindWord hvalue (ih ds (hds.imp fun _ _ he => he.keeps hsetV) hpos' hfit' hV.2 hnd.2
        (hflat.keeps hsetV) fun t ht hvals => ?_)
      refine hq t (hsub ht) fun i m v hm hv => ?_
      cases i with
      | zero =>
        cases hm
        cases hv
        rw [ht.vars _ hnd.1, State.get?_set, if_pos rfl]
      | succ i => exact hvals i m v hm hv

/-- **Indices of a number.** -/
theorem defineIndices_runs {V : List Name} {flat : Expr} {r : ℕ} (dims : List (Name × Expr)) (ds : List ℕ)
    (hds : List.Forall₂ (Steady f c V s) (dims.map (·.2)) ds) (hpos : ∀ d ∈ ds, 0 < d)
    (hfit : Word64.fits (ds.prod : ℕ) = true) (hV : dims.map (·.1) ⊆ V) (hnd : (dims.map (·.1)).Nodup)
    (hr : r < ds.prod) (hflat : Steady f c V s flat r)
    (hq : ∀ t, Keeps (dims.map (·.1)) [] s t →
      Holds t (dims.map (·.1)) (words (digits ds r)) → Q t) :
    Runs f L c (defineIndices flat dims) s Q := by
  cases dims with
  | nil =>
    exact Runs.nil (hq s (.refl _ _ _) fun i n v hn _ => nomatch hn)
  | cons a dims =>
    obtain ⟨n, size⟩ := a
    cases hds with
    | @cons _ d _ ds hd hds =>
      rw [List.map_cons, List.nodup_cons] at hnd
      rw [List.map_cons, List.cons_subset] at hV
      have hpos' : ∀ d ∈ ds, 0 < d := fun d' hd' => hpos d' (List.mem_cons_of_mem _ hd')
      have hd0 : 0 < d := hpos d (List.mem_cons_self ..)
      rw [List.prod_cons] at hfit hr
      have hfit' : Word64.fits (ds.prod : ℕ) = true := Word64.fits_le hfit (Nat.le_mul_of_pos_left _ hd0)
      have hproduct : Computes f c s (.product (dims.map (·.2))) ds.prod :=
        .product (hds.imp fun _ _ he => he.computes) (.of_pos hpos' hfit')
      have hvalue : Computes f c s (flat / .product (dims.map (·.2))) (r / ds.prod : ℕ) :=
        hflat.computes.div hproduct (prod_pos hpos')
      have hset : Keeps (n :: dims.map (·.1)) [] s (s.set n (.word (r / ds.prod : ℕ))) :=
        .set (List.mem_cons_self ..) _
      have hsetV : Keeps V [] s (s.set n (.word (r / ds.prod : ℕ))) := .set hV.1 _
      have hsub {t : State} (ht : Keeps (dims.map (·.1)) [] (s.set n (.word (r / ds.prod : ℕ))) t) :
          Keeps (n :: dims.map (·.1)) [] s t :=
        hset.trans (ht.mono (List.subset_cons_self _ _) (List.Subset.refl _))
      refine Runs.bindWord hvalue (defineIndicesRest_runs dims ds (hds.imp fun _ _ he => he.keeps hsetV) hpos' hfit'
        hV.2 hnd.2 (hflat.keeps hsetV) fun t ht hvals => ?_)
      refine hq t (hsub ht) fun i m v hm hv => ?_
      cases i with
      | zero =>
        cases hm
        cases hv
        rw [ht.vars _ hnd.1, State.get?_set, if_pos rfl, Nat.mod_eq_of_lt (Nat.div_lt_of_lt_mul (by rwa [mul_comm]))]
      | succ i => exact hvals i m v hm hv

/-! ## The number of indices -/

theorem flatIndex_foldl (dims : List (Expr × Expr)) {is ds : List ℕ} (his : AllCompute f c s (dims.map (·.1)) is)
    (hds : AllCompute f c s (dims.map (·.2)) ds) (hlt : List.Forall₂ (· < ·) is ds) {acc : Expr} {a : ℕ}
    (ha : Computes f c s acc a) (hfit : Word64.fits ((a + 1) * ds.prod : ℕ) = true) :
    Computes f c s (dims.foldl (fun acc x => acc * x.2 + x.1) acc) (a * ds.prod + ordinal ds is : ℕ) := by
  induction dims generalizing is ds acc a with
  | nil =>
    cases his
    cases hds
    simpa [ordinal] using ha
  | cons x dims ih =>
    cases his with
    | @cons _ i _ is hi his =>
      cases hds with
      | @cons _ d _ ds hd hds =>
        cases hlt with
        | cons hid hlt =>
          have hp : 0 < ds.prod := Nat.zero_lt_of_lt (ordinal_lt hlt)
          rw [List.prod_cons, ← mul_assoc] at hfit
          have hnext : a * d + i + 1 ≤ (a + 1) * d := by
            rw [add_mul, one_mul]
            omega
          have hle : (a * d + i + 1) * ds.prod ≤ (a + 1) * d * ds.prod := Nat.mul_le_mul_right _ hnext
          have hself : a * d + i + 1 ≤ (a * d + i + 1) * ds.prod := Nat.le_mul_of_pos_right _ hp
          have hacc : Computes f c s (acc * x.2 + x.1) (a * d + i : ℕ) :=
            (ha.mulNat hd (Word64.fits_le hfit (by omega))).addNat hi (Word64.fits_le hfit (by omega))
          have h := ih his hds hlt hacc (Word64.fits_le hfit hle)
          have heq : (a * d + i) * ds.prod + ordinal ds is = a * (d :: ds).prod + ordinal (d :: ds) (i :: is) := by
            rw [List.prod_cons, ordinal]
            ring
          rwa [heq] at h

/-- **The number of indices.** -/
theorem flatIndex_computes (dims : List (Expr × Expr)) {is ds : List ℕ} (his : AllCompute f c s (dims.map (·.1)) is)
    (hds : AllCompute f c s (dims.map (·.2)) ds) (hlt : List.Forall₂ (· < ·) is ds)
    (hfit : Word64.fits (ds.prod : ℕ) = true) : Computes f c s (flatIndex dims) (ordinal ds is) := by
  cases dims with
  | nil =>
    cases his
    cases hds
    exact .zero
  | cons x dims =>
    cases his with
    | @cons _ i _ is hi his =>
      cases hds with
      | @cons _ d _ ds hd hds =>
        cases hlt with
        | cons hid hlt =>
          rw [List.prod_cons] at hfit
          exact flatIndex_foldl dims his hds hlt hi (Word64.fits_le hfit (Nat.mul_le_mul_right _ hid))

/-- the number of indices that variables hold -/
theorem flatIndex_names {is ds : List ℕ} (dims : List (Name × Expr)) (hds : AllCompute f c s (dims.map (·.2)) ds)
    (hlt : List.Forall₂ (· < ·) is ds) (hfit : Word64.fits (ds.prod : ℕ) = true)
    (hvals : Holds s (dims.map (·.1)) (words is)) :
    Computes f c s (flatIndex (dims.map fun x => (Expr.ofName x.1, x.2))) (ordinal ds is) := by
  have hvar {ns : List Name} {is : List ℕ} (hlen : ns.length = is.length) (hvals : Holds s ns (words is))
      (hfits : ∀ i ∈ is, Word64.fits (i : ℕ) = true) : AllCompute f c s (ns.map Expr.ofName) is := by
    induction ns generalizing is with
    | nil =>
      obtain rfl := List.length_eq_zero_iff.1 hlen.symm
      exact .nil
    | cons n ns ih =>
      cases is with
      | nil => cases hlen
      | cons i is =>
        obtain ⟨hi, his⟩ := List.forall_mem_cons.1 hfits
        exact .cons (.ofName (hvals 0 n _ rfl rfl) hi)
          (ih (Nat.succ.inj hlen) (fun j m v hm hv => hvals (j + 1) m v hm hv) his)
  have hlen : (dims.map (·.1)).length = is.length := by
    rw [hlt.length_eq, ← hds.length_eq, List.length_map, List.length_map]
  have hfits : ∀ i ∈ is, Word64.fits (i : ℕ) = true := fun i hi => Word64.fits_le hfit (lt_prod hlt i hi).le
  refine flatIndex_computes _ ?_ ?_ hlt hfit
  · have h := hvar hlen hvals hfits
    rwa [List.map_map] at h ⊢
  · rwa [List.map_map]

/-! ## Loops over all indices -/

/-- one loop inside the other -/
def loops (dims : List (Name × Expr)) (body : List Stmt) : List Stmt :=
  dims.foldr (fun x body => [.count x.1 0 x.2 body]) body

theorem mem_sets_loops {dims : List (Name × Expr)} {body : List Stmt} {n : Name} :
    n ∈ blockSets (loops dims body) ↔ n ∈ dims.map (·.1) ∨ n ∈ blockSets body := by
  induction dims with
  | nil => simp [loops]
  | cons a dims ih =>
    change n ∈ blockSets [.count a.1 0 a.2 (loops dims body)] ↔ _
    simp only [blockSets, blockUses_cons, blockUses_nil, List.append_nil, Stmt.count, Stmt.countBy, Stmt.uses, Use.among,
      List.mem_append, List.map_cons, List.mem_cons, List.not_mem_nil, or_false] at ih ⊢
    rw [ih, or_assoc]

theorem stores_loops (dims : List (Name × Expr)) (body : List Stmt) :
    blockStores (loops dims body) = blockStores body := by
  induction dims with
  | nil => rfl
  | cons a dims ih =>
    change blockStores [.count a.1 0 a.2 (loops dims body)] = _
    simpa [Stmt.count, Stmt.countBy, Stmt.uses, Use.among] using ih

/-- **Loops over all indices.** They keep an invariant that is indexed by the number of the indices. -/
theorem loops_runs {body : List Stmt} (I : ℕ → State → Prop) (hc : c.thread.isSome = true) (dims : List (Name × Expr))
    (ds : List ℕ) (hds : Sizes k X s (dims.map (·.2)) ds) (hpos : ∀ d ∈ ds, 0 < d) (hlim : ∀ d ∈ ds, d ≤ c.rounds)
    (hX : ∀ n ∈ dims.map (·.1), n ∈ X) (hnd : (dims.map (·.1)).Nodup)
    (hV : ∀ n ∈ blockSets body, n ∉ dims.map (·.1) ∧ (n.Before k → n ∈ X))
    (hset : ∀ i t n w, n ∈ dims.map (·.1) → I i t → I i (t.set n w)) (p : ℕ)
    (hbody : ∀ r t, r < ds.prod → Keeps (dims.map (·.1) ++ blockSets body) (blockStores body) s t →
      Holds t (dims.map (·.1)) (words (digits ds r)) → I (p + r) t →
      Runs f L c body t (I (p + r + 1)))
    (hs : I p s)
    (hq : ∀ t, I (p + ds.prod) t → Keeps (dims.map (·.1) ++ blockSets body) (blockStores body) s t → Q t) :
    Runs f L c (loops dims body) s Q := by
  induction dims generalizing s ds p Q with
  | nil =>
    cases hds
    have h := hbody 0 s (by simp) (.refl _ _ _) (fun i n v hn _ => nomatch hn) hs
    exact (h.keeps hc).mono fun t ht => hq t (by simpa using ht.1) ht.2
  | cons a dims ih =>
    obtain ⟨n, size⟩ := a
    cases hds with
    | @cons _ d _ ds hd hds =>
      rw [List.map_cons, List.nodup_cons] at hnd
      have hpos' : ∀ d ∈ ds, 0 < d := fun d' hd' => hpos d' (List.mem_cons_of_mem _ hd')
      have hp := prod_pos hpos'
      have hsets {m : Name} (hm : m ∈ blockSets (loops dims body)) :
          m ∈ dims.map (·.1) ++ blockSets body := List.mem_append.2 (mem_sets_loops.1 hm)
      have hnbody : n ∉ dims.map (·.1) ++ blockSets body := fun hm =>
        (List.mem_append.1 hm).elim hnd.1 fun hm => (hV n hm).1 (List.mem_cons_self ..)
      have hyoung : ∀ m ∈ n :: blockSets (loops dims body), m.Before k → m ∈ X := by
        intro m hm hb
        rcases List.mem_cons.1 hm with rfl | hm
        · exact hX m (List.mem_cons_self ..)
        · rcases List.mem_append.1 (hsets hm) with hm | hm
          · exact hX m (List.mem_cons_of_mem n hm)
          · exact (hV m hm).2 hb
      have hwide {t : State} (ht : Keeps (n :: blockSets (loops dims body)) (blockStores (loops dims body)) s t) :
          Keeps (n :: dims.map (·.1) ++ blockSets body) (blockStores body) s t := by
        rw [stores_loops] at ht
        exact ht.mono (List.cons_subset_cons n fun m hm => hsets hm) (List.Subset.refl _)
      refine Runs.countKeeps (fun i t => I (p + i * ds.prod) t) hc .zero (hd.computes f c) (Nat.zero_le d)
        (hlim d (List.mem_cons_self ..)) (fun hm => hnbody (hsets hm))
        (fun m hm hm' => (hd.scalars m hm).2 (hyoung m hm' (hd.scalars m hm).1)) hd.arrays
        (fun i t w hI => hset _ t n w (List.mem_cons_self ..) hI) ?_ (by simpa using hs) fun t ht hk =>
          hq t (by simpa using ht) (hwide hk)
      intro i t _ hi hk hn hI
      refine ih ds (Sizes.keeps hds hk hyoung) hpos' (fun d' hd' => hlim d' (List.mem_cons_of_mem _ hd'))
        (fun m hm => hX m (List.mem_cons_of_mem n hm)) hnd.2
        (fun m hm => ⟨fun h => (hV m hm).1 (List.mem_cons_of_mem n h), (hV m hm).2⟩)
        (fun j t m w hm => hset j t m w (List.mem_cons_of_mem n hm)) (p + i * ds.prod) ?_ hI ?_
      · intro r u hr hu hvals hIu
        have hnumber : p + i * ds.prod + r = p + (i * ds.prod + r) := by omega
        rw [hnumber] at hIu ⊢
        refine hbody (i * ds.prod + r) u ?_ ?_ ?_ hIu
        · rw [List.prod_cons]
          calc i * ds.prod + r < i * ds.prod + ds.prod := by omega
            _ = (i + 1) * ds.prod := by ring
            _ ≤ d * ds.prod := Nat.mul_le_mul_right _ hi
        · exact (hwide hk).trans (hu.mono (List.subset_cons_self _ _) (List.Subset.refl _))
        · intro j m v hm hv
          cases j with
          | zero =>
            cases hm
            cases hv
            have hi' : (i * ds.prod + r) / ds.prod % d = i := by
              rw [add_comm, Nat.add_mul_div_right _ _ hp, Nat.div_eq_of_lt hr, zero_add, Nat.mod_eq_of_lt hi]
            rw [hu.vars _ hnbody, hn, hi']
          | succ j =>
            refine hvals j m v hm ?_
            rw [← digits_mul_add ds i r]
            exact hv
      · intro u hIu _
        have hnumber : p + i * ds.prod + ds.prod = p + (i + 1) * ds.prod := by ring
        rwa [hnumber] at hIu

end Machine

end GpuHistogram
