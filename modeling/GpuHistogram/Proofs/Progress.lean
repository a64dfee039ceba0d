/-
Generators that get through. A generator draws fresh names and has no result where an operand is missing. `Gives` says that
it has one whatever the names are; `Emits S` says so of a generator that writes statements, and that these satisfy `S`. For
a property `S` that code has if its parts do (`Additive`), both follow the structure of the generator.

`plan_emits` is about the plan of a histogram whose counts fit together: lists that are read at the same positions have the
same length (`Plan.Aligned`), and its sizes have the property that sizes have when they are bound.
-/
import GpuHistogram.Proofs.Method
import GpuHistogram.Proofs.Planning

namespace GpuHistogram

variable {α β : Type}

/-- the generator gets through, whatever the fresh names are, and what it returns satisfies `P` -/
def Gives (g : Gen α) (P : α → Prop) : Prop := ∀ k, ∃ a k', g k = some (a, k') ∧ P a

namespace Gives

variable {g : Gen α} {G : α → Gen β} {P P' : α → Prop} {Q : β → Prop}

theorem mono (h : Gives g P) (hP : ∀ a, P a → P' a) : Gives g P' := fun k =>
  let ⟨a, k', hg, ha⟩ := h k
  ⟨a, k', hg, hP a ha⟩

theorem pure {a : α} (h : P a) : Gives (Pure.pure a) P := fun k => ⟨a, k, rfl, h⟩

theorem bind (h : Gives g P) (hG : ∀ a, P a → Gives (G a) Q) : Gives (g >>= G) Q := fun k => by
  obtain ⟨a, k₁, hg, ha⟩ := h k
  obtain ⟨b, k₂, hG, hb⟩ := hG a ha k₁
  refine ⟨b, k₂, ?_, hb⟩
  change (g k).bind (fun r => G r.1 r.2) = _
  rw [hg]
  exact hG

/-- drawing names -/
theorem lift {x : Fresh α} (h : ∀ k, P (x k).1) : Gives (x : Gen α) P := fun k => ⟨(x k).1, (x k).2, rfl, h k⟩

/-- one fresh name, or several -/
theorem names (x : Fresh α) : Gives (x : Gen α) fun _ => True := lift fun _ => trivial

end Gives

/-- a property that statements have if its parts have it -/
class Additive (S : List Stmt → Prop) : Prop where
  nil : S []
  append {l l' : List Stmt} : S l → S l' → S (l ++ l')

/-- the generator gets through, what it writes satisfies `S`, and what it returns satisfies `P` -/
def Emits (S : List Stmt → Prop) (E : Emit α) (P : α → Prop) : Prop :=
  ∀ l k, ∃ a l' k', E l k = some ((a, l ++ l'), k') ∧ S l' ∧ P a

namespace Emits

variable {S : List Stmt → Prop} {E : Emit α} {F : α → Emit β} {P P' : α → Prop} {Q : β → Prop}

theorem mono (h : Emits S E P) (hP : ∀ a, P a → P' a) : Emits S E P' := fun l k =>
  let ⟨a, l', k', hE, hl, ha⟩ := h l k
  ⟨a, l', k', hE, hl, hP a ha⟩

theorem stmts {l : List Stmt} {P : Unit → Prop} (hl : S l) (h : P ()) : Emits S (Emit.stmts l) P := fun _ k =>
  ⟨(), l, k, rfl, hl, h⟩

theorem stmt {x : Stmt} {P : Unit → Prop} (hx : S [x]) (h : P ()) : Emits S (Emit.stmt x) P := stmts hx h

/-- the statements of a generator, as a list of their own -/
theorem collect {E : Emit Unit} {P : Unit → Prop} (h : Emits S E P) : Gives (Emit.collect E) S := fun k => by
  obtain ⟨⟨⟩, l, k', hE, hl, -⟩ := h [] k
  refine ⟨l, k', ?_, hl⟩
  change (E [] k).bind (fun r => some (r.1.2, r.2)) = _
  rw [hE]
  rfl

variable [Additive S]

theorem pure {a : α} (h : P a) : Emits S (Pure.pure a) P := fun l k =>
  ⟨a, [], k, by rw [List.append_nil]; rfl, Additive.nil, h⟩

theorem bind (h : Emits S E P) (hF : ∀ a, P a → Emits S (F a) Q) : Emits S (E >>= F) Q := fun l k => by
  obtain ⟨a, l₁, k₁, hE, hl₁, ha⟩ := h l k
  obtain ⟨b, l₂, k₂, hF, hl₂, hb⟩ := hF a ha (l ++ l₁) k₁
  refine ⟨b, l₁ ++ l₂, k₂, ?_, Additive.append hl₁ hl₂, hb⟩
  change (E l k).bind (fun r => F r.1.1 r.1.2 r.2) = _
  rw [hE]
  change F a (l ++ l₁) k₁ = _
  rw [hF, List.append_assoc]

/-- generating without writing -/
theorem gen {g : Gen α} (h : Gives g P) : Emits S (g : Emit α) P := fun l k => by
  obtain ⟨a, k', hg, ha⟩ := h k
  refine ⟨a, [], k', ?_, Additive.nil, ha⟩
  change (g k).bind (fun r => some ((r.1, l), r.2)) = _
  rw [hg, List.append_nil]
  rfl

/-- the members of a list one after the other, with what is made of each -/
theorem mapM_zip {G : α → Emit β} {Q : α → β → Prop} {l : List α} (h : ∀ a ∈ l, Emits S (G a) (Q a)) :
    Emits S (l.mapM G) fun bs => bs.length = l.length ∧ ∀ x ∈ l.zip bs, Q x.1 x.2 := by
  induction l with
  | nil =>
    rw [List.mapM_nil]
    exact pure ⟨rfl, fun x hx => absurd hx List.not_mem_nil⟩
  | cons a l ih =>
    obtain ⟨ha, hl⟩ := List.forall_mem_cons.1 h
    rw [List.mapM_cons]
    exact bind ha fun b hb => bind (ih hl) fun bs ⟨hlen, hbs⟩ =>
      pure ⟨by rw [List.length_cons, List.length_cons, hlen], List.forall_mem_cons.2 ⟨hb, hbs⟩⟩

/-- the members of a list one after the other -/
theorem mapM {G : α → Emit β} {l : List α} (h : ∀ a ∈ l, Emits S (G a) Q) :
    Emits S (l.mapM G) fun bs => bs.length = l.length ∧ ∀ b ∈ bs, Q b :=
  (mapM_zip h).mono fun bs ⟨hlen, hbs⟩ => ⟨hlen, fun b hb => by
    rw [← List.map_snd_zip hlen.le] at hb
    obtain ⟨x, hx, rfl⟩ := List.mem_map.1 hb
    exact hbs x hx⟩

/-- a size is a literal or a new variable, which is defined by the expression -/
theorem bindSize {Q : Expr → Prop} (label : String) {e : Expr} (hlit : ∀ v, e.constant? = some v → Q (.i64 v))
    (hvar : ∀ n, Q (.ofName n)) (hdef : ∀ n, S [.bind n (e.castIfNeeded .i64)]) : Emits S (Emit.bindSize label e) Q := by
  unfold Emit.bindSize
  split
  · next v hv => exact pure (hlit v hv)
  · exact bind (gen (.names _)) fun n _ => bind (stmt (P := fun _ => True) (hdef n) trivial) fun _ _ => pure (hvar n)

end Emits

/-- one method is chosen for each operator, and it suits the operator; the table of locks is the one that is made -/
theorem chooseMethods_spec (count : Expr) (space : Space) (ops : List Operator) :
    Gives (chooseMethods ops (LockTable.create count space) : Gen _) fun x =>
      x.2.length = ops.length ∧ (∀ t, x.1 = some t → t.count = count ∧ t.space = space) ∧
      ∀ y ∈ ops.zip x.2, y.2.Suits y.1 x.1 := fun k => by
  obtain ⟨table, methods, k', hrun, -, hlen, hext, hsuits⟩ := chooseMethodsFrom_spec count space ops none k
  refine ⟨(table, methods), k', congrArg some hrun, hlen, fun t ht => ?_, hsuits⟩
  rcases hext with hn | ⟨-, n, -, hn⟩ <;> cases hn.symm.trans ht
  exact ⟨rfl, rfl⟩

/-! ## Plans -/

/-- the lists of a part that are read at the positions of its destinations, and those of its buckets, are of one length -/
structure Part.Aligned (q : Part) : Prop where
  dests : q.subs.dests = q.op.dests
  subs : q.subs.subs.length = q.op.dests.length
  neutral : q.subs.neutral.length = q.op.dests.length
  params : q.op.combiner.params.length = 2 * q.op.dests.length
  results : q.op.combiner.results.length = q.op.dests.length
  values : q.contribution.values.length = q.op.dests.length
  bucketIndices : q.op.bucketIndices.length = q.op.shape.length

/-- a plan has a part for every operator, made of it and of its contribution -/
structure Plan.Aligned (h : Histogram) (p : Plan) : Prop where
  operators : p.operators = h.operators
  contributions : p.parts.map (·.contribution) = h.contributions
  parts : ∀ q ∈ p.parts, q.Aligned

/-- the sizes of a part satisfy `Q`; what it takes from its operator and the sizes is what it should be -/
structure Part.Measured (Q : Expr → Prop) (segments : Expr) (q : Part) : Prop where
  width : Q q.width
  bucketSize : Q q.bucketSize
  neutral : q.subs.neutral = q.op.neutral
  segments : q.subs.segments = segments
  size : q.subs.size = q.width * q.bucketSize

/-- the sizes of a plan satisfy `Q` -/
structure Plan.Measured (Q : Expr → Prop) (h : Histogram) (o : Options) (p : Plan) : Prop where
  hist : p.hist = h
  lockCount : p.lockCount = o.lockCount
  groupSize : Q p.groupSize
  groupCount : Q p.groupCount
  threads : Q p.threads
  segmentDims : ∀ x ∈ p.segmentDims, Q x.2
  segments : Q p.segments
  elements : Q p.elements
  parts : ∀ q ∈ p.parts, q.Measured Q p.segments

/-- what the parts of a plan are made of, for sizes that satisfy `Q` -/
theorem makeParts_emits {S : List Stmt → Prop} [Additive S] {Q : Expr → Prop} {h : Histogram} (hv : h.validate = .ok ())
    (segments : Expr) {widths buckets : List Expr} (hwidths : widths.length = h.operators.length ∧ ∀ e ∈ widths, Q e)
    (hbuckets : buckets.length = h.operators.length ∧ ∀ e ∈ buckets, Q e) :
    Emits S ((h.operators.zip (h.contributions.zip (widths.zip buckets))).mapM (makePart segments)) fun parts =>
      parts.map (·.op) = h.operators ∧ parts.map (·.contribution) = h.contributions ∧
      ∀ q ∈ parts, q.Aligned ∧ q.Measured Q segments := by
  obtain ⟨-, hlen, hinputs⟩ := Histogram.validate_ok hv
  intro l k
  obtain ⟨parts, k', hrun, -, hmap, hparts, -, -⟩ :=
    makeParts_spec segments (h.operators.zip (h.contributions.zip (widths.zip buckets))) k
  -- a part stands for an operator, its contribution and two sizes
  have hsizes : h.contributions.length ≤ (widths.zip buckets).length := by
    rw [List.length_zip, hwidths.1, hbuckets.1, hlen, Nat.min_self]
  have hpairs : parts.map (fun q => (q.op, q.contribution)) = h.inputs := by
    have hfst := congrArg (List.map fun x : PartInput => (x.1, x.2.1)) hmap
    rw [List.map_map] at hfst
    rw [Histogram.inputs, ← List.map_fst_zip hsizes, List.zip_map_right]
    exact hfst
  refine ⟨parts, [], k', by rw [List.append_nil]; exact hrun l, Additive.nil, ?_, ?_, fun q hq => ?_⟩
  · have hfst := congrArg (List.map Prod.fst) hpairs
    rwa [List.map_map, Histogram.inputs, List.map_fst_zip hlen.ge] at hfst
  · have hsnd := congrArg (List.map Prod.snd) hpairs
    rwa [List.map_map, Histogram.inputs, List.map_snd_zip hlen.le] at hsnd
  · have hz : (q.op, q.contribution, q.width, q.bucketSize) ∈
        h.operators.zip (h.contributions.zip (widths.zip buckets)) := hmap ▸ List.mem_map.2 ⟨q, hq, rfl⟩
    have hz' := List.of_mem_zip (List.of_mem_zip (List.of_mem_zip hz).2).2
    have hinput : (q.op, q.contribution) ∈ h.inputs := hpairs ▸ List.mem_map.2 ⟨q, hq, rfl⟩
    obtain ⟨hneutral, hparams, hresults, hvalues, hshape⟩ := hinputs _ hinput
    obtain ⟨hdests, hneu, hseg, hsize, hsubs⟩ := hparts q hq
    exact ⟨⟨hdests, hsubs, hneu ▸ hneutral, hparams, hresults, hvalues, hshape⟩,
      ⟨hwidths.2 _ hz'.1, hbuckets.2 _ hz'.2, hneu, hseg, hsize⟩⟩

/-- **Planning** gets through on a histogram whose counts fit together, and puts together what belongs together. Its sizes
satisfy `Q` if that holds of what `bindSize` returns for an expression that satisfies `R`. -/
theorem plan_emits {S : List Stmt → Prop} [Additive S] {Q R : Expr → Prop} {h : Histogram} (hv : h.validate = .ok ())
    (o : Options) (hbind : ∀ label e, R e → Emits S (Emit.bindSize label e) Q) (hzero : Q 0)
    (hmul : ∀ a b, Q a → Q b → R (a * b)) (hproduct : ∀ l, (∀ e ∈ l, Q e) → R (.product l))
    (hfixed : ∀ n, n = o.groupSize ∨ n = o.groupCount → ∀ id, R (Histogram.fixedOrOpen n id))
    (hspace : ∀ x ∈ h.space, R x.2) (hops : ∀ op ∈ h.operators, R op.width ∧ R op.bucketSize) :
    Emits S (h.plan o) fun p => p.Aligned h ∧ p.Measured Q h o := by
  unfold Histogram.plan
  refine .bind (hbind _ _ (hfixed _ (.inl rfl) _)) fun groupSize hgroupSize =>
    .bind (hbind _ _ (hfixed _ (.inr rfl) _)) fun groupCount hgroupCount =>
    .bind (hbind _ _ (hmul _ _ hgroupSize hgroupCount)) fun threads hthreads => ?_
  refine .bind (.mapM (Q := fun x : Name × Expr => Q x.2) fun x hx =>
    .bind (hbind _ _ (hspace x (List.dropLast_subset _ hx))) fun e he => .pure he) fun dims ⟨_, hdims⟩ =>
      .bind (hbind _ _ (hproduct _ (List.forall_mem_map.2 hdims))) fun segments hsegments => ?_
  have hrest (elements : Expr) (helements : Q elements) : Emits S (do
      let widths ← h.operators.mapM fun op => Emit.bindSize "width" op.width
      let bucketSizes ← h.operators.mapM fun op => Emit.bindSize "vector_size" op.bucketSize
      let sized := h.operators.zip (h.contributions.zip (widths.zip bucketSizes))
      let parts ← sized.mapM (makePart segments)
      return {
        hist := h
        lockCount := o.lockCount
        groupSize := groupSize
        groupCount := groupCount
        threads := threads
        segmentDims := dims
        segments := segments
        elements := elements
        parts := parts : Plan }) fun p => p.Aligned h ∧ p.Measured Q h o :=
    .bind (.mapM fun op hop => hbind _ _ (hops op hop).1) fun widths hwidths =>
      .bind (.mapM fun op hop => hbind _ _ (hops op hop).2) fun buckets hbuckets =>
        .bind (makeParts_emits hv segments hwidths hbuckets) fun parts ⟨hpartOps, hcontributions, hparts⟩ =>
          .pure ⟨⟨hpartOps, hcontributions, fun q hq => (hparts q hq).1⟩,
            ⟨rfl, rfl, hgroupSize, hgroupCount, hthreads, hdims, hsegments, helements, fun q hq => (hparts q hq).2⟩⟩
  cases hdim : h.elementDim? with
  | some x => exact .bind (hbind _ _ (hspace x (List.mem_of_getLast? hdim))) fun elements he => hrest elements he
  | none => exact .bind (.pure hzero) fun elements he => hrest elements he

/-! ## Pieces of code -/

/-- the update of an operator is generated for every method that suits it -/
theorem updateCode_gives {op : Operator} {method : UpdateMethod} {table : Option LockTable} (hm : method.Suits op table)
    (space : Space) {targets : List Name} (ht : targets.length = op.dests.length) (addr : Expr) {values : List Expr}
    (hv : values.length = op.dests.length) : Gives (op.updateCode method space targets addr values) fun u =>
      ∃ k k', op.IsUpdate space targets addr values k method u k' := fun k => by
  obtain ⟨u, k', hrun, hu⟩ := updateCode_spec op hm space addr ht hv k
  exact ⟨u, k', hrun, k, k', hu⟩

namespace Plan

variable {S : List Stmt → Prop} [Additive S] {p : Plan}

/-- the code for the buckets of all operators -/
theorem bucketUpdates_gives {update : Part → α → Expr → Gen Stmt} {parts : List (Part × α)}
    (h : ∀ x ∈ parts, ∀ n, Gives (update x.1 x.2 (.ofName n)) fun u => S (bucketUpdate x.1 n u)) :
    Gives (bucketUpdates update parts) S := by
  induction parts with
  | nil => exact .pure Additive.nil
  | cons x parts ih =>
    obtain ⟨hx, hparts⟩ := List.forall_mem_cons.1 h
    exact .bind (.names _) fun n _ => .bind (hx n) fun u hu => .bind (ih hparts) fun rest hrest =>
      .pure (Additive.append hu hrest)

/-- the code of an element, from its pieces -/
theorem element_gives {update : Part → α → Expr → Gen Stmt} {parts : List (Part × α)} {segment index : Expr}
    (hindices : S (defineIndices segment p.segmentDims)) (hindex : ∀ n, S [.bind n index]) (hbody : S p.hist.body)
    (hmaps : ∀ n, S (p.mapStores (segment * p.elements + .ofName n)))
    (h : ∀ x ∈ parts, ∀ n, Gives (update x.1 x.2 (.ofName n)) fun u => S (bucketUpdate x.1 n u)) :
    Gives (p.element segment index parts update) S :=
  .bind (.names _) fun n _ => .bind (bucketUpdates_gives h) fun _ hupdates =>
    have hstart := Additive.append (Additive.append hindices (hindex n)) hbody
    .pure (Additive.append (Additive.append hstart (hmaps n)) hupdates)

/-- the code that makes the copies of all operators -/
theorem allocate_emits {l : List (Part × Expr)}
    (h : ∀ x ∈ l, ∀ seg : Name, seg.symbol.isSome → S [x.1.subs.allocate x.2 seg]) :
    Emits S (allocate l) fun _ => True := by
  induction l with
  | nil => exact .pure trivial
  | cons x l ih =>
    obtain ⟨hx, hl⟩ := List.forall_mem_cons.1 h
    exact .bind (.gen (.lift (P := fun s => S [s]) fun k => hx _ rfl)) fun s hs =>
      .bind (P := fun _ => True) (.stmt hs trivial) fun _ _ => ih hl

/-- the code that combines the copies of all operators and frees them -/
theorem finish_emits {l : List (Part × Expr)}
    (h : ∀ x ∈ l, (∀ k, S [(p.merge x.1 x.2 k).1]) ∧ S [x.1.subs.release x.2]) :
    Emits S (p.finish l) fun _ => True := by
  induction l with
  | nil => exact .pure trivial
  | cons x l ih =>
    obtain ⟨⟨hmerge, hrelease⟩, hl⟩ := List.forall_mem_cons.1 h
    exact .bind (.gen (.lift (P := fun s => S [s]) hmerge)) fun s hs =>
      .bind (P := fun _ => True) (.stmt hs trivial) fun _ _ =>
        .bind (P := fun _ => True) (.stmt hrelease trivial) fun _ _ => ih hl

end Plan

end GpuHistogram
