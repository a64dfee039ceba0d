/-
Making the arrays of copies. With one copy per segment the arrays are the destinations themselves; otherwise they are new,
and the copies of every segment are combined into what the destination holds (`Copies.spread`). In both cases
`Part.Ready` says what the kernels need of the arrays.
-/
import GpuHistogram.Histogram.Merge
import GpuHistogram.Proofs.Accumulate
import GpuHistogram.Proofs.Buffers

namespace GpuHistogram

open Machine

variable {f : Form} {L : LaunchSpec → List Stmt → Exec Unit} {c : Context} {s t : State} {k k' : ℕ} {X A : List Name}

/-! ## Letting the arrays be the destinations -/

theorem rebinds_run (hc : c.thread = none) (l : List (Name × Destination)) (hnd : (l.map (·.1)).Nodup)
    (hbound : ∀ a ∈ l, ∃ p b, s.memory.Has a.2.name p b) (hne : ∀ a ∈ l, a.2.name ∉ l.map (·.1)) :
    Runs f L c (l.map fun a => .rebind a.1 a.2.name .unknown) s fun t =>
      t.vars = s.vars ∧ t.launched = s.launched ∧ t.memory.buffers = s.memory.buffers ∧
      (∀ n ∉ l.map (·.1), t.memory.names.get? n = s.memory.names.get? n) ∧
      ∀ a ∈ l, t.memory.names.get? a.1 = s.memory.names.get? a.2.name := by
  induction l generalizing s with
  | nil => exact Runs.nil ⟨rfl, rfl, rfl, fun _ _ => rfl, fun _ ha => absurd ha List.not_mem_nil⟩
  | cons a l ih =>
    rw [List.map_cons, List.nodup_cons] at hnd
    obtain ⟨p, b, hb⟩ := hbound a (List.mem_cons_self ..)
    have hkeep {n : Name} (hn : n ≠ a.1) : (s.memory.names.set a.1 p).get? n = s.memory.names.get? n := by
      rw [Bindings.get?_set, if_neg hn.symm]
    have hname {x : Name × Destination} (hx : x ∈ l) : x.2.name ≠ a.1 ∧ x.2.name ∉ l.map (·.1) := by
      have h := hne x (List.mem_cons_of_mem a hx)
      simpa only [List.map_cons, List.mem_cons, not_or] using h
    refine Runs.rebind hc hb ((ih hnd.2 (fun x hx => ?_) fun x hx => (hname hx).2).mono ?_)
    · obtain ⟨q, b', hb'⟩ := hbound x (List.mem_cons_of_mem a hx)
      exact ⟨q, b', by rw [← hb'.name]; exact hkeep (hname hx).1, hb'.buffer⟩
    · rintro t ⟨hv, hl, hbuf, hrest, hsubs⟩
      refine ⟨hv, hl, hbuf, fun n hn => ?_, fun x hx => ?_⟩
      · simp only [List.map_cons, List.mem_cons, not_or] at hn
        rw [hrest n hn.2]
        exact hkeep hn.1
      · rcases List.mem_cons.1 hx with rfl | hx
        · rw [hrest x.1 hnd.1, hb.name]
          simp
        · rw [hsubs x hx]
          exact hkeep (hname hx).1

/-! ## New arrays -/

/-- the content of an array of copies: the first copy of every segment is that of the destination -/
def spreadColumn (count size : ℕ) (v : Value) (g : ℕ → Value) (a : ℕ) : Value :=
  if a / size % count = 0 then g (a / size / count * size + a % size) else v

theorem allocation_runs {x : Subhistograms} {count ne : Expr} {seg sub : Name} {d : Destination} {C S Z : ℕ}
    {g : ℕ → Value} {v : Value} (hc : c.thread = none) (hcount : Quantity k X s count C)
    (hsegments : Quantity k X s x.segments S) (hsize : Quantity k X s x.size Z) (hC : 0 < C)
    (hseg : ¬ seg.Before k) (hlarge : S * C * Z < unallocatable) (hlim : S ≤ c.rounds)
    (hrows : Word64.fits (S * C : ℕ) = true)
    (hne : ∀ t, t.vars = s.vars → Memory.Extends [sub] s.memory t.memory → Evals f c t ne v)
    (hd : s.memory.Column d.name d.elem (S * Z) g) (hg : ∀ i < S * Z, (g i).Fits d.elem) (hv : v.Fits d.elem)
    (hsub : d.name ≠ sub) :
    Runs f L c (x.allocation count seg sub d ne) s fun t => Memory.Extends [sub] s.memory t.memory ∧ Frame k s t ∧
      t.launched = s.launched ∧ t.memory.Column sub d.elem (S * C * Z) (spreadColumn C Z v g) := by
  have hfit : Word64.fits (S * C * Z : ℕ) = true := by
    rw [Word64.fits_iff]
    unfold unallocatable at hlarge
    omega
  have htotal : Quantity k X s (x.segments * count * x.size) (S * C * Z) :=
    (hsegments.mul hcount hrows).mul hsize hfit
  have hquantity {e : Expr} {a : ℕ} {t : State} (he : Quantity k X s e a) (ht : Frame k s t) : Quantity k X t e a :=
    he.keep (Nat.le_refl k) fun n hn => ht n (he.scalars n hn).1
  unfold Subhistograms.allocation
  refine Runs.alloc hc (htotal.computes f c) hlarge ?_
  obtain ⟨m, hm, hcol, hk⟩ := (Memory.Column.insert s.memory sub d.elem (S * C * Z)).fill v
  have hframe (m : Memory) : Frame k s { s with memory := m } := fun _ _ => rfl
  refine Runs.fill hc Computes.zero ((hquantity htotal (hframe _)).computes f c)
    (hne _ rfl (.insert (.refl _ _))) hm ?_
  let content (i a : ℕ) : Value :=
    if a / Z % C = 0 ∧ a / Z / C < i then g (a / Z / C * Z + a % Z) else v
  refine Runs.count (fun i t => Frame k s t ∧ t.launched = s.launched ∧
      Memory.Keeps [sub] (s.memory.insert sub (.zeros d.elem (S * C * Z))) t.memory ∧
      t.memory.Column sub d.elem (S * C * Z) (content i)) (Computes.zero (f := f) (c := c)) (Nat.zero_le S)
    (by simpa using hlim) (fun i t _ _ hI _ => (hquantity hsegments hI.1).computes f c) ?_ ?_ ?_
  · rintro i t - hi ⟨hf, hl, hkt, hcolt⟩ hit
    have hdt : t.memory.Column d.name d.elem (S * Z) g :=
      (Memory.Extends.insert hkt).column hd fun hm => hsub (List.mem_singleton.1 hm)
    have hwordi : Computes f c t (.ofName seg) i := .ofName hit (Word64.fits_le hsegments.fits hi.le)
    have hsrc : (i + 1) * Z ≤ S * Z := Nat.mul_le_mul_right _ hi
    have hdst : (i * C + 1) * Z ≤ S * C * Z := Nat.mul_le_mul_right _ (by nlinarith)
    rw [add_mul, one_mul] at hsrc hdst
    have hSZ : S * Z ≤ S * C * Z := Nat.mul_le_mul_right _ (Nat.le_mul_of_pos_right _ hC)
    have hiC : i * C ≤ S * C := Nat.mul_le_mul_right _ hi.le
    obtain ⟨m', hm', hcol', hk'⟩ := hcolt.copy hdt (i := i * C * Z) (j := i * Z) (k := Z) hdst hsrc
    refine Runs.copy hc
      ((hwordi.mulNat ((hquantity hcount hf).computes f c) (Word64.fits_le hrows hiC)).mulNat
        ((hquantity hsize hf).computes f c) (Word64.fits_le hfit (by omega)))
      (hwordi.mulNat ((hquantity hsize hf).computes f c) (Word64.fits_le hfit (by omega)))
      ((hquantity hsize hf).computes f c) hm' (Runs.nil ⟨hit, ?_, hl, hkt.trans hk', ?_⟩)
    · intro n hn
      rw [State.get?_set, if_neg fun he : seg = n => hseg (he ▸ hn)]
      exact hf n hn
    · refine hcol'.congr fun a ha => ?_
      have hZ : 0 < Z := Nat.pos_of_mul_pos_left (Nat.zero_lt_of_lt ha)
      have hrange : i * C * Z ≤ a ∧ a < i * C * Z + Z ↔ a / Z = i * C := by
        rw [Nat.div_eq_iff hZ]
        omega
      have hcopy : a / Z = i * C ↔ a / Z % C = 0 ∧ a / Z / C = i := by
        constructor
        · intro h
          rw [h]
          exact ⟨Nat.mul_mod_left i C, Nat.mul_div_left i hC⟩
        · rintro ⟨h1, rfl⟩
          have h := Nat.div_add_mod (a / Z) C
          rw [h1, add_zero, mul_comm] at h
          exact h.symm
      by_cases hr : a / Z = i * C
      · obtain ⟨h1, h2⟩ := hcopy.1 hr
        have hmod : a % Z = a - i * C * Z := by
          have h := Nat.div_add_mod a Z
          rw [hr, mul_comm] at h
          omega
        have hlt := Nat.mod_lt a hZ
        rw [if_pos (hrange.2 hr)]
        simp only [content, h1, h2, Nat.lt_succ_self, and_self, if_true, hmod]
        exact (hg _ (by omega)).convert_eq
      · rw [if_neg fun h => hr (hrange.1 h)]
        have hne : a / Z % C = 0 → a / Z / C ≠ i := fun h1 h2 => hr (hcopy.2 ⟨h1, h2⟩)
        have hiff : (a / Z % C = 0 ∧ a / Z / C < i + 1) ↔ (a / Z % C = 0 ∧ a / Z / C < i) :=
          and_congr_right fun h1 => by have := hne h1; omega
        simp only [content, hiff]
  · refine ⟨fun n hn => ?_, rfl, hk, hcol.congr fun a _ => ?_⟩
    · rw [State.get?_set, if_neg fun he : seg = n => hseg (he ▸ hn)]
    · simp only [content, Nat.not_lt_zero, and_false, if_false, hv.convert_eq]
  · rintro t ⟨hf, hl, hkt, hcolt⟩
    refine ⟨.insert hkt, hf, hl, hcolt.congr fun a ha => ?_⟩
    have hlt : a / Z / C < S := Nat.div_lt_of_lt_mul (by
      rw [mul_comm C S]
      exact Nat.div_lt_of_lt_mul (by rwa [mul_comm]))
    simp only [content, spreadColumn, hlt, and_true]

theorem allocations_runs {x : Subhistograms} {count : Expr} {seg : Name} {C S Z : ℕ} (hc : c.thread = none) (hC : 0 < C)
    (hseg : ¬ seg.Before k) (l : List ((Name × Destination) × Expr))
    (hmade : l ≠ [] → S * C * Z < unallocatable ∧ S ≤ c.rounds ∧ Word64.fits (S * C : ℕ) = true) {g : ℕ → ℕ → Value} {v : ℕ → Value} (hcount : Quantity k X s count C)
    (hsegments : Quantity k X s x.segments S) (hsize : Quantity k X s x.size Z) (hnd : (l.map (·.1.1)).Nodup)
    (hA : ∀ n ∈ A, (∃ p b, s.memory.Has n p b) ∧ n ∉ l.map (·.1.1))
    (hne : ∀ (i : ℕ) a, l[i]? = some a → ∀ t, Sees k X A s t → Evals f c t a.2 (v i))
    (hd : ∀ (i : ℕ) a, l[i]? = some a → s.memory.Column a.1.2.name a.1.2.elem (S * Z) (g i) ∧
      (∀ j < S * Z, (g i j).Fits a.1.2.elem) ∧ (v i).Fits a.1.2.elem ∧ a.1.2.name ∉ l.map (·.1.1)) :
    Runs f L c (l.flatMap fun a => x.allocation count seg a.1.1 a.1.2 a.2) s fun t =>
      Memory.Extends (l.map (·.1.1)) s.memory t.memory ∧ Frame k s t ∧ t.launched = s.launched ∧
      ∀ (i : ℕ) a, l[i]? = some a →
        t.memory.Column a.1.1 a.1.2.elem (S * C * Z) (spreadColumn C Z (v i) (g i)) := by
  induction l generalizing s g v with
  | nil => exact Runs.nil ⟨.refl _, .refl k s, rfl, fun i a ha => nomatch ha⟩
  | cons a l ih =>
    rw [List.map_cons, List.nodup_cons] at hnd
    simp only [List.map_cons, List.mem_cons, not_or] at hA hd
    obtain ⟨hcol, hfits, hv, hname⟩ := hd 0 a rfl
    have hsees {t : State} (hf : Frame k s t) (he : Memory.Extends [a.1.1] s.memory t.memory) : Sees k X A s t :=
      ⟨fun n hn _ => hf n hn, fun n hn i => by
        obtain ⟨p, b, hb⟩ := (hA n hn).1
        exact hb.read_eq (he.has hb fun hm => (hA n hn).2.1 (List.mem_singleton.1 hm)) i⟩
    obtain ⟨hlarge, hlim, hrows⟩ := hmade (List.cons_ne_nil _ _)
    rw [List.flatMap_cons]
    refine Runs.append ((allocation_runs hc hcount hsegments hsize hC hseg hlarge hlim hrows
      (fun t ht he => hne 0 a rfl t (hsees (fun n _ => by rw [ht]) he)) hcol hfits hv hname.1).mono ?_)
    rintro t ⟨he, hf, hl, hcolt⟩
    have hother {n : Name} (hn : n ≠ a.1.1) : n ∉ [a.1.1] := fun hm => hn (List.mem_singleton.1 hm)
    have hquantity {e : Expr} {m : ℕ} (h : Quantity k X s e m) : Quantity k X t e m :=
      h.keep (Nat.le_refl k) fun n hn => hf n (h.scalars n hn).1
    refine (ih (fun _ => ⟨hlarge, hlim, hrows⟩) (s := t) (g := fun i => g (i + 1)) (v := fun i => v (i + 1)) (hquantity hcount) (hquantity hsegments)
      (hquantity hsize) hnd.2 (fun n hn => ?_) (fun i b hb u hu => ?_) fun i b hb => ?_).mono ?_
    · obtain ⟨p, b, hb⟩ := (hA n hn).1
      exact ⟨⟨p, b, he.has hb (hother (hA n hn).2.1)⟩, (hA n hn).2.2⟩
    · exact hne (i + 1) b hb u ((hsees hf he).trans hu (Nat.le_refl k))
    · obtain ⟨h1, h2, h3, h4⟩ := hd (i + 1) b hb
      exact ⟨he.column h1 (hother h4.1), h2, h3, h4.2⟩
    · rintro u ⟨heu, hfu, hlu, hcols⟩
      have hdisj : ∀ n ∈ [a.1.1], n ∉ l.map (·.1.1) := fun n hn => List.mem_singleton.1 hn ▸ hnd.1
      refine ⟨he.append heu hdisj, hf.trans hfu (Nat.le_refl k), hlu.trans hl, fun i b hb => ?_⟩
      cases i with
      | zero =>
        cases hb
        exact heu.column hcolt hnd.1
      | succ i => exact hcols i b hb

/-! ## The arrays of one operator -/

namespace Part

/-- the arrays that the results of a part go to -/
def destNames (q : Part) : List Name := q.op.dests.map (·.name)

/-- the arrays of a part -/
def arrays (q : Part) : List Name := q.subs.subs ++ q.destNames

/-- the arrays of copies hold tuples; with one copy per segment they are the destinations, otherwise they share no buffer
with these -/
structure Ready (q : Part) (segments size count : ℕ) (T : ℕ → Tuple q.op.scalars) (m : Memory) : Prop where
  copies : m.Table q.subs.subs q.op.scalars (segments * count * size) T
  dests : ∃ D, m.Table q.destNames q.op.scalars (segments * size) D
  same : count = 1 → ∀ (i : ℕ) n d, q.subs.subs[i]? = some n → q.destNames[i]? = some d → m.names.get? n = m.names.get? d
  apart : count ≠ 1 → ∀ n ∈ q.destNames, m.Apart q.subs.subs n

/-- the arrays of copies are those of an operator, for so many segments of histograms of a size -/
structure Sized (q : Part) (k : ℕ) (X : List Name) (s : State) (S Z : ℕ) : Prop where
  dests : q.subs.dests = q.op.dests
  subs : q.subs.subs.length = q.op.dests.length
  neutral : q.subs.neutral = q.op.neutral
  segments : Quantity k X s q.subs.segments S
  size : Quantity k X s q.subs.size Z

theorem Stands.sized {q : Part} {h : Histogram} {M : Histogram.Meaning} (hq : q.Stands h M k X s) :
    q.Sized k X s M.segments (M.size q.op) :=
  ⟨hq.dests, hq.subs, hq.neutral, hq.segments, hq.size⟩

variable {q : Part}

/-- **The arrays of one operator.** They are made, and every segment is merged into what its destination holds. -/
theorem allocate_runs {count : Expr} {seg : Name} {C S Z : ℕ} {neutral : Tuple q.op.scalars} {D : ℕ → Tuple q.op.scalars}
    (hq : q.Sized k X s S Z) (hc : c.thread = none) (hcount : Quantity k X s count C) (hC : 0 < C)
    (hseg : ¬ seg.Before k)
    (hmade : C ≠ 1 → q.op.dests ≠ [] → S * C * Z < unallocatable ∧ S ≤ c.rounds ∧ Word64.fits (S * C : ℕ) = true)
    (hneLen : q.op.neutral.length = q.op.dests.length)
    (hneutral : ∀ t, Sees k X A s t → AllEval f c t q.op.neutral neutral.cells)
    (hsubs : q.subs.subs.Nodup) (hdisj : ∀ n ∈ q.subs.subs, n ∉ q.destNames ∧ n ∉ A)
    (hA : ∀ n ∈ A, ∃ p b, s.memory.Has n p b)
    (hD : s.memory.Table q.destNames q.op.scalars (S * Z) D) :
    Runs f L c [q.subs.allocate count seg] s fun t => Frame k s t ∧ t.launched = s.launched ∧
      Memory.Frames q.destNames q.arrays s.memory t.memory ∧ q.Ready S Z C (Copies.spread C Z neutral D) t.memory := by
  have hdest {n : Name} (hn : n ∈ q.destNames) : n ∉ q.subs.subs := fun hm => (hdisj n hm).1 hn
  have hlen : q.subs.subs.length = q.subs.dests.length := by rw [hq.subs, hq.dests]
  have hsubNames : (q.subs.subs.zip q.subs.dests).map (·.1) = q.subs.subs := by
    rw [map_zip_fst (fun n : Name => n) hlen.le, List.map_id']
  have hget {i : ℕ} {n : Name} (hn : q.subs.subs[i]? = some n) : ∃ d, q.op.dests[i]? = some d := by
    have hi := (List.getElem?_eq_some_iff.1 hn).1
    rw [hq.subs] at hi
    exact ⟨_, List.getElem?_eq_getElem hi⟩
  have hdestGet {i : ℕ} {d : Destination} (hd : q.op.dests[i]? = some d) :
      q.destNames[i]? = some d.name ∧ q.op.scalars[i]? = some d.elem := by
    rw [destNames, Operator.scalars, List.getElem?_map, List.getElem?_map, hd]
    exact ⟨rfl, rfl⟩
  unfold Subhistograms.allocate
  refine Runs.ifElse (Evals.eq (hcount.computes f c) Computes.one) ?_
  by_cases hone : C = 1
  · subst hone
    rw [if_pos (by simp [Value.truth])]
    unfold Subhistograms.aliases
    refine (rebinds_run hc _ (by rwa [hsubNames]) (fun a ha => ?_) fun a ha => ?_).mono ?_
    · obtain ⟨i, hi⟩ := List.mem_iff_getElem?.1 (List.of_mem_zip ha).2
      rw [hq.dests] at hi
      obtain ⟨p, b, hb, -⟩ := hD.column i _ _ (hdestGet hi).1 (hdestGet hi).2
      exact ⟨p, b, hb⟩
    · rw [hsubNames]
      refine hdest (List.mem_map_of_mem (f := fun d : Destination => d.name) ?_)
      rw [← hq.dests]
      exact (List.of_mem_zip ha).2
    · rintro t ⟨hv, hl, hbuf, hrest, halias⟩
      rw [hsubNames] at hrest
      have hsame (i : ℕ) (n d : Name) (hn : q.subs.subs[i]? = some n) (hd : q.destNames[i]? = some d) :
          t.memory.names.get? n = s.memory.names.get? d ∧ t.memory.names.get? d = s.memory.names.get? d := by
        obtain ⟨x, hx⟩ := hget hn
        obtain rfl : x.name = d := Option.some.inj ((hdestGet hx).1.symm.trans hd)
        exact ⟨halias (n, x) (List.mem_of_getElem? (List.getElem?_zip_eq_some.2 ⟨hn, by rwa [hq.dests]⟩)),
          hrest _ (hdest (List.mem_of_getElem? hd))⟩
      have hhas {n d : Name} {p : ℕ} {b : Buffer} (hb : s.memory.Has d p b)
          (hn : t.memory.names.get? n = s.memory.names.get? d) : t.memory.Has n p b :=
        ⟨hn.trans hb.name, by rw [hbuf]; exact hb.buffer⟩
      refine ⟨fun n _ => by rw [hv], hl, fun n p b hn hap hb => ?_, ⟨⟨by rw [hq.subs, q.op.length_scalars], ?_, ?_⟩, ?_, ?_,
        fun h => absurd rfl h⟩⟩
      · simp only [arrays, List.mem_append, not_or] at hn
        refine ⟨hhas hb (hrest n hn.1), fun w hw p' hp hp' => ?_⟩
        rw [hrest n hn.1] at hp
        rcases List.mem_append.1 hw with hw | hw
        · obtain ⟨i, hi⟩ := List.mem_iff_getElem?.1 hw
          obtain ⟨x, hx⟩ := hget hi
          rw [(hsame i w _ hi (hdestGet hx).1).1] at hp'
          exact hap _ (List.mem_of_getElem? (hdestGet hx).1) p' hp hp'
        · rw [hrest w (hdest hw)] at hp'
          exact hap w hw p' hp hp'
      · intro i n sc hn hsc
        obtain ⟨x, hx⟩ := hget hn
        obtain ⟨p, b, hb, he, hs, hg⟩ := hD.column i _ sc (hdestGet hx).1 hsc
        refine ⟨p, b, hhas hb (hsame i n _ hn (hdestGet hx).1).1, he, by rw [hs, mul_one], fun a ha => ?_⟩
        rw [mul_one] at ha
        simp only [hg a ha, Copies.spread, Nat.mod_one, if_true, Nat.div_one, Nat.div_add_mod']
      · refine List.pairwise_iff_getElem.2 fun i j hi hj hij p hp hp' => ?_
        have hgi := List.getElem?_eq_getElem hi
        have hgj := List.getElem?_eq_getElem hj
        obtain ⟨x, hx⟩ := hget hgi
        obtain ⟨y, hy⟩ := hget hgj
        rw [(hsame i _ _ hgi (hdestGet hx).1).1] at hp
        rw [(hsame j _ _ hgj (hdestGet hy).1).1] at hp'
        have hi' := (List.getElem?_eq_some_iff.1 (hdestGet hx).1)
        have hj' := (List.getElem?_eq_some_iff.1 (hdestGet hy).1)
        obtain ⟨hi', hxi⟩ := hi'
        obtain ⟨hj', hyj⟩ := hj'
        exact List.pairwise_iff_getElem.1 hD.unaliased i j hi' hj' hij p (hxi ▸ hp) (hyj ▸ hp')
      · refine ⟨D, hD.length_eq, fun i n sc hn hsc => ?_, ?_⟩
        · obtain ⟨p, b, hb, hrest'⟩ := hD.column i n sc hn hsc
          exact ⟨p, b, hhas hb (hrest n (hdest (List.mem_of_getElem? hn))), hrest'⟩
        · refine List.Pairwise.imp_of_mem (fun {n n'} hn hn' hnn p hp hp' => ?_) hD.unaliased
          rw [hrest n (hdest hn)] at hp
          rw [hrest n' (hdest hn')] at hp'
          exact hnn p hp hp'
      · intro _ i n d hn hd
        rw [(hsame i n d hn hd).1, (hsame i n d hn hd).2]
  · rw [if_neg (by simpa [Value.truth] using hone)]
    have hzip {i : ℕ} {a : (Name × Destination) × Expr} (ha : ((q.subs.subs.zip q.subs.dests).zip q.subs.neutral)[i]? = some a) :
        q.subs.subs[i]? = some a.1.1 ∧ q.op.dests[i]? = some a.1.2 ∧ q.op.neutral[i]? = some a.2 := by
      rw [List.getElem?_zip_eq_some, List.getElem?_zip_eq_some, hq.dests, hq.neutral] at ha
      exact ⟨ha.1.1, ha.1.2, ha.2⟩
    have hnames : ((q.subs.subs.zip q.subs.dests).zip q.subs.neutral).map (·.1.1) = q.subs.subs := by
      rw [map_zip_fst (fun a : Name × Destination => a.1) (by
        rw [List.length_zip, hlen, hq.dests, hq.neutral, hneLen, Nat.min_self]), hsubNames]
    refine (allocations_runs (A := A) hc hC hseg ((q.subs.subs.zip q.subs.dests).zip q.subs.neutral)
      (fun hl => hmade hone fun hd => hl (by simp [hq.dests, hd]))
      (g := fun i a => (D a).cell i) (v := fun i => neutral.cell i) hcount hq.segments hq.size
      (by rwa [hnames]) (fun n hn => ⟨hA n hn, ?_⟩) (fun i a ha t ht => ?_) fun i a ha => ?_).mono ?_
    · rw [hnames]
      exact fun hm => (hdisj n hm).2 hn
    · exact hneutral t ht i a.2 _ (hzip ha).2.2 (Tuple.getElem?_cells (hdestGet (hzip ha).2.1).2)
    · obtain ⟨hn, hd⟩ := hdestGet (hzip ha).2.1
      refine ⟨hD.column i _ _ hn hd, fun j _ => (D j).fits_cell hd, neutral.fits_cell hd, ?_⟩
      rw [hnames]
      exact hdest (List.mem_of_getElem? hn)
    · rintro t ⟨he, hf, hl, hcols⟩
      rw [hnames] at he
      have hDt : t.memory.Table q.destNames q.op.scalars (S * Z) D := by
        refine ⟨hD.length_eq, fun i n sc hn hsc => he.column (hD.column i n sc hn hsc) (hdest (List.mem_of_getElem? hn)), ?_⟩
        refine List.Pairwise.imp_of_mem (fun {n n'} hn hn' hnn p hp hp' => ?_) hD.unaliased
        rw [he.names n (hdest hn)] at hp
        rw [he.names n' (hdest hn')] at hp'
        exact hnn p hp hp'
      refine ⟨hf, hl, he.frames, ⟨⟨by rw [hq.subs, q.op.length_scalars], fun i n sc hn hsc => ?_, he.unaliased⟩, ⟨D, hDt⟩,
        fun h => absurd h hone, fun _ n hn => ?_⟩⟩
      · obtain ⟨d, hd⟩ := hget hn
        have hi : i < q.op.neutral.length := by
          rw [hneLen]
          exact (List.getElem?_eq_some_iff.1 hd).1
        have hz : ((q.subs.subs.zip q.subs.dests).zip q.subs.neutral)[i]? = some ((n, d), q.op.neutral[i]) := by
          rw [List.getElem?_zip_eq_some, List.getElem?_zip_eq_some, hq.dests, hq.neutral]
          exact ⟨⟨hn, hd⟩, List.getElem?_eq_getElem hi⟩
        have hcol := hcols i _ hz
        rw [(hdestGet hd).2, Option.some.injEq] at hsc
        subst hsc
        refine hcol.congr fun a _ => ?_
        unfold spreadColumn Copies.spread
        split_ifs <;> rfl
      · obtain ⟨i, hi⟩ := List.mem_iff_getElem?.1 hn
        obtain ⟨hlt, -⟩ := List.getElem?_eq_some_iff.1 hi
        have hlt' : i < q.op.dests.length := by simpa [destNames] using hlt
        have hd := hdestGet (List.getElem?_eq_getElem hlt')
        obtain rfl : q.op.dests[i].name = n := Option.some.inj (hd.1.symm.trans hi)
        obtain ⟨p, b, hb, -⟩ := hD.column i _ _ hd.1 hd.2
        exact he.apart hb (hdest hn)

end Part

/-! ## What other steps leave alone -/

theorem Memory.Table.frames {m m' : Memory} {ns W W' : List Name} {ss : List Scalar} {len : ℕ} {T : ℕ → Tuple ss}
    (h : m.Table ns ss len T) (hf : Memory.Frames W W' m m') (hns : ∀ n ∈ ns, n ∉ W' ∧ m.Apart W n) :
    m'.Table ns ss len T := by
  have hname {n : Name} (hn : n ∈ ns) : m'.names.get? n = m.names.get? n := by
    obtain ⟨i, hi⟩ := List.mem_iff_getElem?.1 hn
    have hlt : i < ss.length := by
      rw [← h.length_eq]
      exact (List.getElem?_eq_some_iff.1 hi).1
    exact (h.column i n _ hi (List.getElem?_eq_getElem hlt)).name_eq hf (hns n hn).1 (hns n hn).2
  refine ⟨h.length_eq, fun i n sc hn hsc => ?_, ?_⟩
  · exact (h.column i n sc hn hsc).frames hf (hns n (List.mem_of_getElem? hn)).1 (hns n (List.mem_of_getElem? hn)).2
  · refine List.Pairwise.imp_of_mem (fun {n n'} hn hn' hnn p hp hp' => ?_) h.unaliased
    rw [hname hn] at hp
    rw [hname hn'] at hp'
    exact hnn p hp hp'

/-- the arrays of a table are there -/
theorem Memory.Table.has {m : Memory} {ns : List Name} {ss : List Scalar} {len : ℕ} {T : ℕ → Tuple ss}
    (h : m.Table ns ss len T) {n : Name} (hn : n ∈ ns) : ∃ p b, m.Has n p b := by
  obtain ⟨i, hi⟩ := List.mem_iff_getElem?.1 hn
  have hlt : i < ss.length := by
    rw [← h.length_eq]
    exact (List.getElem?_eq_some_iff.1 hi).1
  obtain ⟨p, b, hb, -⟩ := h.column i n _ hi (List.getElem?_eq_getElem hlt)
  exact ⟨p, b, hb⟩

/-- a table under other names for the same buffers -/
theorem Memory.Table.rename {m : Memory} {ns ns' : List Name} {ss : List Scalar} {len : ℕ} {T : ℕ → Tuple ss}
    (h : m.Table ns ss len T) (hlen : ns'.length = ns.length)
    (hns : ∀ (i : ℕ) n n', ns[i]? = some n → ns'[i]? = some n' → m.names.get? n' = m.names.get? n) :
    m.Table ns' ss len T := by
  have hget {i : ℕ} {n' : Name} (hn : ns'[i]? = some n') : ∃ n, ns[i]? = some n :=
    ⟨_, List.getElem?_eq_getElem (hlen ▸ (List.getElem?_eq_some_iff.1 hn).1)⟩
  refine ⟨hlen.trans h.length_eq, fun i n' sc hn' hsc => ?_, List.pairwise_iff_getElem.2 fun i j hi hj hij p hp hp' => ?_⟩
  · obtain ⟨n, hn⟩ := hget hn'
    obtain ⟨p, b, hb, hrest⟩ := h.column i n sc hn hsc
    exact ⟨p, b, ⟨(hns i n n' hn hn').trans hb.name, hb.buffer⟩, hrest⟩
  · have hi' := List.getElem?_eq_getElem hi
    have hj' := List.getElem?_eq_getElem hj
    rw [hns i _ _ (List.getElem?_eq_getElem (hlen ▸ hi)) hi'] at hp
    rw [hns j _ _ (List.getElem?_eq_getElem (hlen ▸ hj)) hj'] at hp'
    exact List.pairwise_iff_getElem.1 h.unaliased i j _ _ hij p hp hp'

/-- the arrays that are read are there, and no step on the buffers of `W` under the names `W'` touches them -/
def Readable (A W W' : List Name) (m : Memory) : Prop := ∀ n ∈ A, (∃ p b, m.Has n p b) ∧ n ∉ W' ∧ m.Apart W n

theorem Readable.frames {m m' : Memory} {W W' : List Name} (h : Readable A W W' m) (hf : Memory.Frames W W' m m') :
    Readable A W' W' m' := fun n hn => by
  obtain ⟨⟨p, b, hb⟩, hW, hap⟩ := h n hn
  obtain ⟨hb', hap'⟩ := hf n p b hW hap hb
  exact ⟨⟨p, b, hb'⟩, hW, hap'⟩

theorem Readable.mono {m : Memory} {W W' V V' : List Name} (h : Readable A W W' m) (hV : V ⊆ W) (hV' : V' ⊆ W') :
    Readable A V V' m := fun n hn => ⟨(h n hn).1, fun hm => (h n hn).2.1 (hV' hm), (h n hn).2.2.mono hV⟩

theorem Readable.sees {W W' : List Name} (h : Readable A W W' s.memory) (hv : Frame k s t)
    (hf : Memory.Frames W W' s.memory t.memory) : Sees k X A s t :=
  ⟨fun n hn _ => hv n hn, fun n hn i => by
    obtain ⟨⟨p, b, hb⟩, hW, hap⟩ := h n hn
    exact hb.read_eq (hf n p b hW hap hb).1 i⟩

namespace Part

variable {q : Part} {segments size count : ℕ} {T T' : ℕ → Tuple q.op.scalars} {m m' : Memory} {W W' : List Name}

theorem Ready.has (h : q.Ready segments size count T m) {n : Name} (hn : n ∈ q.arrays) : ∃ p b, m.Has n p b := by
  obtain ⟨D, hD⟩ := h.dests
  exact (List.mem_append.1 hn).elim h.copies.has hD.has

theorem Ready.name_eq (h : q.Ready segments size count T m) (hf : Memory.Frames W W' m m')
    (hq : ∀ n ∈ q.arrays, n ∉ W' ∧ m.Apart W n) {n : Name} (hn : n ∈ q.arrays) :
    m'.names.get? n = m.names.get? n := by
  obtain ⟨p, b, hb⟩ := h.has hn
  rw [(hf n p b (hq n hn).1 (hq n hn).2 hb).1.name, hb.name]

/-- arrays that a step leaves alone stay ready -/
theorem Ready.frames (h : q.Ready segments size count T m) (hf : Memory.Frames W W' m m')
    (hq : ∀ n ∈ q.arrays, n ∉ W' ∧ m.Apart W n) : q.Ready segments size count T m' := by
  have hsub {n : Name} (hn : n ∈ q.subs.subs) : n ∈ q.arrays := List.mem_append_left _ hn
  have hdest {n : Name} (hn : n ∈ q.destNames) : n ∈ q.arrays := List.mem_append_right _ hn
  have hname {n : Name} (hn : n ∈ q.arrays) := h.name_eq hf hq hn
  obtain ⟨D, hD⟩ := h.dests
  refine ⟨h.copies.frames hf fun n hn => hq n (hsub hn), ⟨D, hD.frames hf fun n hn => hq n (hdest hn)⟩,
    fun hone i n d hn hd => ?_, fun hone n hn => ?_⟩
  · rw [hname (hsub (List.mem_of_getElem? hn)), hname (hdest (List.mem_of_getElem? hd))]
    exact h.same hone i n d hn hd
  · exact (h.apart hone n hn).of_names (hname (hdest hn)) fun w hw => hname (hsub hw)

/-- arrays whose copies are changed by threads stay ready -/
theorem Ready.keeps (h : q.Ready segments size count T m) (hk : Memory.Keeps W m m')
    (hT : m'.Table q.subs.subs q.op.scalars (segments * count * size) T')
    (hW : count ≠ 1 → ∀ n ∈ q.destNames, m.Apart W n) : q.Ready segments size count T' m' := by
  refine ⟨hT, ?_, fun hone i n d hn hd => by rw [hk.names]; exact h.same hone i n d hn hd,
    fun hone n hn => (h.apart hone n hn).keeps hk⟩
  obtain ⟨D, hD⟩ := h.dests
  by_cases hone : count = 1
  · refine ⟨T', ?_⟩
    subst hone
    rw [mul_one] at hT
    refine hT.rename (by rw [hD.length_eq, hT.length_eq]) fun i n d hn hd => ?_
    rw [hk.names]
    exact (h.same rfl i n d hn hd).symm
  · exact ⟨D, hD.keeps hk fun n hn => hW hone n hn⟩

end Part

/-! ## The arrays of all operators -/

/-- the arrays of some operators have names of their own -/
def Part.Distinct (q q' : Part) : Prop := ∀ n ∈ q'.arrays, n ∉ q.arrays

/-- the arrays of two operators share no buffer -/
def Part.Separate (m : Memory) (q q' : Part) : Prop := ∀ n ∈ q'.arrays, m.Apart q.arrays n

/-- **The arrays of all operators.** -/
theorem allocate_works {h : Histogram} {M : Histogram.Meaning} {R : List Name} {k₀ : ℕ} (count : Part → ℕ)
    {D : (q : Part) → ℕ → Tuple q.op.scalars} (hr : h.Regular k₀ R A) (hc : c.thread = none)
    (l : List (Part × Expr))
    (hq : ∀ a ∈ l, a.1.Stands h M k X s ∧ Quantity k X s a.2 (count a.1) ∧ 0 < count a.1 ∧
      (count a.1 ≠ 1 → M.segments * count a.1 * M.size a.1.op < unallocatable ∧ M.segments ≤ c.rounds ∧
        Word64.fits (M.segments * count a.1 : ℕ) = true) ∧
      a.1.subs.subs.Nodup ∧ ∀ n ∈ a.1.subs.subs, ¬ n.Before k₀)
    (hM : h.Means M k X A s) (hD : ∀ a ∈ l, s.memory.Table a.1.destNames a.1.op.scalars (M.segments * M.size a.1.op) (D a.1))
    (hdistinct : l.Pairwise fun a b => a.1.Distinct b.1)
    (hsep : l.Pairwise fun a b => ∀ n ∈ b.1.destNames, s.memory.Apart a.1.destNames n)
    (hA : Readable A (l.flatMap fun a => a.1.destNames) (l.flatMap fun a => a.1.arrays) s.memory) :
    Works f L c (Plan.allocate l) k s fun _ _ t => t.launched = s.launched ∧
      (∀ a ∈ l, a.1.Ready M.segments (M.size a.1.op) (count a.1)
        (Copies.spread (count a.1) (M.size a.1.op) (M.neutral a.1.op) (D a.1)) t.memory) ∧
      Memory.Frames (l.flatMap fun a => a.1.destNames) (l.flatMap fun a => a.1.arrays) s.memory t.memory ∧
      l.Pairwise fun a b => Part.Separate t.memory a.1 b.1 := by
  induction l generalizing k s with
  | nil => exact Works.pure ⟨rfl, (fun _ ha => absurd ha List.not_mem_nil), .refl _ _, List.Pairwise.nil⟩
  | cons a l ih =>
    obtain ⟨part, count'⟩ := a
    rw [List.pairwise_cons] at hdistinct hsep
    obtain ⟨hst, hcount, hpos, hmade, hnd, hyoung⟩ := hq _ (List.mem_cons_self ..)
    rw [Plan.allocate]
    simp only [List.flatMap_cons] at hA ⊢
    have hDpart := hD _ (List.mem_cons_self ..)
    have hfresh : (⟨"seg", some k⟩ : Name).Within k (k + 1) := Name.within_mk "seg" (Nat.le_refl k) (Nat.lt_succ_self k)
    have hAhead : Readable A part.destNames part.arrays s.memory :=
      hA.mono (List.subset_append_left _ _) (List.subset_append_left _ _)
    refine Works.emit (x := part.subs.allocate count' ⟨"seg", some k⟩) rfl (Nat.le_succ k) ?_
    have hop := hst.op_mem
    have hneLen : part.op.neutral.length = part.op.dests.length := by
      simpa [Operator.scalars] using congrArg List.length (hr.neutral _ hop)
    have hdisj (n : Name) (hn : n ∈ part.subs.subs) : n ∉ part.destNames ∧ n ∉ A := by
      have hbefore {x : Name} (hx : x ∈ h.destNames ++ h.mapNames ++ A) : x.Before k₀ :=
        hr.before x (List.mem_append_left _ (List.mem_append_right _ hx))
      refine ⟨fun hm => hyoung n hn (hbefore ?_), fun hm => hyoung n hn (hbefore (List.mem_append_right _ hm))⟩
      exact List.mem_append_left _ (List.mem_append_left _ (List.mem_flatMap.2 ⟨part.op, hop, hm⟩))
    refine (part.allocate_runs hst.sized hc hcount hpos hfresh.not_before (fun h _ => hmade h) hneLen
      (fun t ht => hM.neutral _ hop f c t ht) hnd hdisj (fun n hn => (hA n hn).1) hDpart).mono ?_
    rintro t ⟨hf, hl, hframes, hready⟩
    refine ⟨hf, ?_⟩
    -- what the later operators need is left alone
    have hlater {b : Part × Expr} (hb : b ∈ l) {n : Name} (hn : n ∈ b.1.destNames) :
        n ∉ part.arrays ∧ s.memory.Apart part.destNames n :=
      ⟨hdistinct.1 b hb n (List.mem_append_right _ hn), hsep.1 b hb n hn⟩
    have hDt (b : Part × Expr) (hb : b ∈ l) :
        t.memory.Table b.1.destNames b.1.op.scalars (M.segments * M.size b.1.op) (D b.1) :=
      (hD b (List.mem_cons_of_mem _ hb)).frames hframes fun n hn => hlater hb hn
    have hapart {b : Part × Expr} (hb : b ∈ l) {n : Name} (hn : n ∈ b.1.destNames) :
        t.memory.names.get? n = s.memory.names.get? n ∧ t.memory.Apart part.arrays n := by
      obtain ⟨p, b', hb'⟩ := (hD b (List.mem_cons_of_mem _ hb)).has hn
      obtain ⟨h1, h2⟩ := hframes n p b' (hlater hb hn).1 (hlater hb hn).2 hb'
      exact ⟨by rw [h1.name, hb'.name], h2⟩
    have hAt : Readable A (l.flatMap fun a => a.1.destNames) (l.flatMap fun a => a.1.arrays) t.memory := fun n hn => by
      obtain ⟨⟨p, b, hb⟩, hW, hap⟩ := hA n hn
      rw [List.mem_append, not_or] at hW
      have hb' := (hframes n p b hW.1 (hap.mono (List.subset_append_left _ _)) hb).1
      refine ⟨⟨p, b, hb'⟩, hW.2, ((hap.mono (List.subset_append_right _ _)).of_names (by rw [hb'.name, hb.name]) ?_)⟩
      intro w hw
      obtain ⟨b, hb, hw⟩ := List.mem_flatMap.1 hw
      exact (hapart hb hw).1
    refine (ih (k := k + 1) (s := t) (fun b hb => ?_) ?_ hDt hdistinct.2 ?_ hAt).mono ?_
    · obtain ⟨h1, h2, h3⟩ := hq b (List.mem_cons_of_mem _ hb)
      exact ⟨h1.keep (Nat.le_succ k) fun n hn _ => hf n hn, h2.frame (Nat.le_succ k) hf, h3⟩
    · exact hM.later (hAhead.sees hf hframes) (Nat.le_succ k)
    · refine List.Pairwise.imp_of_mem (fun {a b} ha hb hab n hn => ?_) hsep.2
      exact (hab n hn).of_names (hapart hb hn).1 fun w hw => (hapart ha hw).1
    · rintro _ k' u - - ⟨hlu, hreadyu, hframesu, hsepu⟩
      have hhead {n : Name} (hn : n ∈ part.arrays) : n ∉ (l.flatMap fun a => a.1.arrays) ∧
          t.memory.Apart (l.flatMap fun a => a.1.destNames) n := by
        refine ⟨fun hm => ?_, fun w hw p hp hp' => ?_⟩
        · obtain ⟨b, hb, hm⟩ := List.mem_flatMap.1 hm
          exact hdistinct.1 b hb n hm hn
        · obtain ⟨b, hb, hw⟩ := List.mem_flatMap.1 hw
          exact (hapart hb hw).2 n hn p hp' hp
      refine ⟨hlu.trans hl, fun b hb => ?_, ?_, List.pairwise_cons.2 ⟨fun b hb n hn w hw p hp hp' => ?_, hsepu⟩⟩
      · rcases List.mem_cons.1 hb with rfl | hb
        · exact hready.frames hframesu fun n hn => hhead hn
        · exact hreadyu b hb
      · intro n p b hn hap hb
        rw [List.mem_append, not_or] at hn
        obtain ⟨h1, h2⟩ := hframes n p b hn.1 (hap.mono (List.subset_append_left _ _)) hb
        have h3 : t.memory.Apart (l.flatMap fun a => a.1.destNames) n :=
          (hap.mono (List.subset_append_right _ _)).of_names (by rw [h1.name, hb.name]) fun w hw => by
            obtain ⟨b, hb, hw⟩ := List.mem_flatMap.1 hw
            exact (hapart hb hw).1
        obtain ⟨h4, h5⟩ := hframesu n p b hn.2 h3 h1
        refine ⟨h4, fun w hw => ?_⟩
        rcases List.mem_append.1 hw with hw | hw
        · exact h2.of_names (by rw [h4.name, h1.name]) (fun w hw => hready.name_eq hframesu (fun n hn => hhead hn) hw) w hw
        · exact h5 w hw
      · have hw' := hready.has hw
        obtain ⟨p', b', hb'⟩ := hw'
        have h := (hframesu w p' b' (hhead hw).1 (hhead hw).2 hb').2
        exact h n (List.mem_flatMap.2 ⟨b, hb, hn⟩) p hp' hp

end GpuHistogram
