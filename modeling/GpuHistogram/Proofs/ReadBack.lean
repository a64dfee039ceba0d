/-
The text of an expression determines it. `Expr.bare` renames the variables of an expression and leaves out all types but
those of casts, which is what a text can tell.

`Reads` says that reading the tokens of an expression gives the expression, whatever waits for it outside and whatever
ends it. Outside a prefix operator, and around a binary one, this depends on how tightly the expression holds together
(`Expr.rank`), and the parentheses of an operand are there exactly when it would be taken apart (`rank_of_isGrouped`).

`read_print`: reading what is printed gives the expression back, with the identifiers for its variables;
`text_determines` follows.
-/
import GpuHistogram.Proofs.Spelling
import Mathlib.Data.Set.Function

namespace GpuHistogram.Source

variable {ids : Identifiers} {W : Set Name}

namespace Expr

mutual

/-- an expression with other names, and without types but those of casts -/
def bare (f : Name → Name) : Expr → Expr
  | var n _ => var (f n) .void
  | bool b _ => bool b .void
  | int v _ => int v .void
  | float b _ => float b .void
  | unary op e _ => unary op (e.bare f) .void
  | binary op l r _ => binary op (l.bare f) (r.bare f) .void
  | ternary c t e _ => ternary (c.bare f) (t.bare f) (e.bare f) .void
  | access t i _ => access (t.bare f) (i.bare f) .void
  | addressOf e _ => addressOf (e.bare f) .void
  | convert e ty => convert (e.bare f) ty
  | call id args _ => call id (allBare f args) .void

def allBare (f : Name → Name) : List Expr → List Expr
  | [] => []
  | e :: es => e.bare f :: allBare f es

end

end Expr

/-! ## Reading -/

theorem Reader.run_cons (r : Reader) (t : Token) (ts : List Token) :
    r.run (t :: ts) = (r.step t ts).bind fun p => p.1.run p.2 := by
  rw [run]
  split <;> rename_i h <;> rw [h] <;> rfl

/-- a token that is no part of a cast is read by itself -/
theorem Reader.run_next {r r' : Reader} {t : Token} {ts : List Token} (hn : r.next t = some r')
    (h : t = .openParen → castType? ts = none) : r.run (t :: ts) = r'.run ts := by
  have hstep : r.step t ts = (r.next t).map (·, ts) := by
    unfold Reader.step
    split
    case h_1 h' => exact nomatch (h rfl).symm.trans h'
    case h_2 => rfl
  rw [run_cons, hstep, hn]
  rfl

/-- the type of a cast is read as a whole -/
theorem castType?_tokens (ty : Ty) (ts : List Token) : castType? (ty.tokens ++ .closeParen :: ts) = some (ty, ts) := by
  have hscalar (s : Scalar) : scalarNamed? s.cText = some s := by cases s <;> decide
  have htype (s : Scalar) : typeNamed? s.cText = some (.scalar s) := by cases s <;> decide
  cases ty with
  | void => simp [Ty.tokens, castType?, typeNamed?]
  | scalar s => simp [Ty.tokens, castType?, htype]
  | pointer s q => cases q <;> simp [Ty.tokens, Qualifier.text?, castType?, hscalar, qualifierNamed?]

theorem Reader.run_cast (σ : List Frame) (ty : Ty) (ts : List Token) :
    (want σ).run (.openParen :: (ty.tokens ++ .closeParen :: ts)) = (want (.cast ty :: σ)).run ts := by
  rw [run_cons]
  simp [step, castType?_tokens]

/-- how tightly an expression holds together -/
def Expr.rank : Expr → ℕ
  | binary op .. => Source.rank op
  | _ => 12

/-- what comes next ends an operand that is held together so tightly -/
def Ends (k : ℕ) : List Token → Prop
  | [] | .question :: _ | .colon :: _ | .comma :: _ | .closeParen :: _ | .closeBracket :: _ => True
  | .op op :: _ => rank op ≤ k
  | _ => False

theorem rank_le (op : Binary) : rank op ≤ 10 := by
  cases op <;> decide

theorem Ends.mono {k j : ℕ} (hk : k ≤ j) : ∀ {ts : List Token}, Ends k ts → Ends j ts
  | [], _ | .question :: _, _ | .colon :: _, _ | .comma :: _, _ | .closeParen :: _, _ | .closeBracket :: _, _ => trivial
  | .op _ :: _, h => le_trans (b := k) h hk

/-- no operator goes between a prefix operator and its operand -/
theorem Ends.of_prefix {k : ℕ} : ∀ {ts : List Token}, Ends k ts → Ends 11 ts
  | [], _ | .question :: _, _ | .colon :: _, _ | .comma :: _, _ | .closeParen :: _, _ | .closeBracket :: _, _ => trivial
  | .op op :: _, _ => le_trans (b := 10) (rank_le op) (by decide)

/-- what waits outside does not take apart an operand that is held together so tightly -/
def Admits (k : ℕ) (σ : List Frame) : Prop :=
  ∀ f ∈ σ.head?, ∀ j, f.rank? = some j → j < k

theorem Admits.boundary {k : ℕ} {f : Frame} {σ : List Frame} (hf : f.rank? = none) : Admits k (f :: σ) := fun g hg j hj => by
  cases hg
  exact nomatch hf.symm.trans hj

theorem Admits.inner {k j : ℕ} {f : Frame} {σ : List Frame} (hf : f.rank? = some j) (h : j < k) : Admits k (f :: σ) :=
  fun g hg i hi => by
    cases hg
    exact Option.some.inj (hf.symm.trans hi) ▸ h

theorem Admits.mono {k j : ℕ} {σ : List Frame} (h : Admits k σ) (hk : k ≤ j) : Admits j σ := fun f hf i hi =>
  (h f hf i hi).trans_le hk

theorem settle_keeps {k : ℕ} {σ : List Frame} (h : Admits k σ) (e : Expr) : settle k e σ = (e, σ) := by
  cases σ with
  | nil => rfl
  | cons f σ =>
    rw [settle]
    cases hf : f.rank? with
    | none => rfl
    | some j => simp [h f rfl j hf]

theorem settle_completes {k j : ℕ} {f : Frame} (hf : f.rank? = some j) (hk : k ≤ j) (e : Expr) (σ : List Frame) :
    settle k e (f :: σ) = settle k (f.complete e) σ := by
  rw [settle, hf]
  exact if_pos hk

section

variable (e : Expr) (σ : List Frame)

theorem Reader.next_op (op : Binary) :
    (held e σ).next (.op op) = some (want (.left op (settle (Source.rank op) e σ).1 :: (settle (Source.rank op) e σ).2)) := by
  cases e <;> rfl

theorem Reader.next_question :
    (held e σ).next .question = some (want (.cond (settle 1 e σ).1 :: (settle 1 e σ).2)) := by
  cases e <;> rfl

theorem Reader.next_closer {t : Token} (h : t = .colon ∨ t = .comma ∨ t = .closeParen ∨ t = .closeBracket) :
    (held e σ).next t = close t (settle 0 e σ) := by
  rcases h with rfl | rfl | rfl | rfl <;> cases e <;> rfl

end

/-- what ends an operand completes what waits for it -/
theorem Reader.run_completes {j : ℕ} {f : Frame} (hf : f.rank? = some j) (hj : 1 ≤ j) {ts : List Token}
    (h : Ends j ts) (e : Expr) (σ : List Frame) :
    (held e (f :: σ)).run ts = (held (f.complete e) σ).run ts := by
  have hs {k : ℕ} (hk : k ≤ j) := settle_completes hf hk e σ
  cases ts with
  | nil =>
    rw [run, run, result?, result?, hs (Nat.zero_le _)]
  | cons t ts =>
    have hnext : (held e (f :: σ)).next t = (held (f.complete e) σ).next t := by
      cases t with
      | op op => rw [next_op, next_op, hs h]
      | question => rw [next_question, next_question, hs hj]
      | colon | comma | closeParen | closeBracket =>
        rw [next_closer _ _ (by simp), next_closer _ _ (by simp), hs (Nat.zero_le _)]
      | word | bang | tilde | openParen | openBracket => cases h
    have hstep : (held e (f :: σ)).step t ts = (held (f.complete e) σ).step t ts := by
      change ((held e (f :: σ)).next t).map _ = ((held (f.complete e) σ).next t).map _
      rw [hnext]
    rw [run_cons, run_cons, hstep]

section

variable (σ : List Frame) (ts : List Token) (e : Expr)

theorem Reader.run_word (w : String) : (want σ).run (.word w :: ts) = (held (.var (.plain w) .void) σ).run ts :=
  run_next rfl nofun

theorem Reader.run_address : (want σ).run (.op .bitAnd :: ts) = (want (.address :: σ)).run ts := run_next rfl nofun

theorem Reader.run_group (h : castType? ts = none) :
    (want σ).run (.openParen :: ts) = (want (.group :: σ)).run ts := run_next rfl fun _ => h

theorem Reader.run_index : (held e σ).run (.openBracket :: ts) = (want (.index e :: σ)).run ts :=
  run_next (by cases e <;> rfl) nofun

/-- a token that ends an operand inside what it closes -/
theorem Reader.run_closer {t : Token} {f : Frame} {r : Reader}
    (h : t = .colon ∨ t = .comma ∨ t = .closeParen ∨ t = .closeBracket) (hf : f.rank? = none)
    (hr : close t (e, f :: σ) = some r) : (held e (f :: σ)).run (t :: ts) = r.run ts := by
  have hnext := next_closer e (f :: σ) h
  rw [settle_keeps (.boundary hf), hr] at hnext
  refine run_next hnext ?_
  rintro rfl
  simp at h

theorem Reader.run_closeGroup : (held e (.group :: σ)).run (.closeParen :: ts) = (held e σ).run ts :=
  run_closer _ _ _ (by simp) rfl rfl

theorem Reader.run_closeIndex (a : Expr) :
    (held e (.index a :: σ)).run (.closeBracket :: ts) = (held (.access a e .void) σ).run ts :=
  run_closer _ _ _ (by simp) rfl rfl

theorem Reader.run_closeArgs (id : String) (done : List Expr) :
    (held e (.args id done :: σ)).run (.closeParen :: ts) = (held (.call id (done ++ [e]) .void) σ).run ts :=
  run_closer _ _ _ (by simp) rfl rfl

theorem Reader.run_comma (id : String) (done : List Expr) :
    (held e (.args id done :: σ)).run (.comma :: ts) = (want (.args id (done ++ [e]) :: σ)).run ts :=
  run_closer _ _ _ (by simp) rfl rfl

theorem Reader.run_colon (c : Expr) :
    (held e (.cond c :: σ)).run (.colon :: ts) = (want (.otherwise c e :: σ)).run ts :=
  run_closer _ _ _ (by simp) rfl rfl

theorem Reader.run_question {f : Frame} (hf : f.rank? = none) :
    (held e (f :: σ)).run (.question :: ts) = (want (.cond e :: f :: σ)).run ts := by
  have hnext := next_question e (f :: σ)
  rw [settle_keeps (.boundary hf)] at hnext
  exact run_next hnext nofun

/-- a parenthesis also completes a conditional -/
theorem Reader.run_closeConditional (c t : Expr) :
    (held e (.otherwise c t :: .group :: σ)).run (.closeParen :: ts) = (held (.ternary c t e .void) σ).run ts := by
  have hnext := next_closer e (.otherwise c t :: .group :: σ) (t := .closeParen) (by simp)
  rw [settle_completes rfl (Nat.zero_le _), settle_keeps (.boundary rfl)] at hnext
  exact run_next hnext nofun

/-- a call begins with a word and a parenthesis -/
theorem Reader.run_call (id : String) :
    (want σ).run (.word id :: .openParen :: ts) = (want (.args id [] :: σ)).run ts := by
  rw [run_word, run_cons]
  rfl

theorem Reader.run_noArgs (id : String) :
    (want (.args id [] :: σ)).run (.closeParen :: ts) = (held (.call id [] .void) σ).run ts := run_next rfl nofun

end

/-- an operator behind an operand that nothing takes apart -/
theorem Reader.run_op {op : Binary} {e : Expr} {σ : List Frame} {ts : List Token} (h : Admits (Source.rank op) σ) :
    (held e σ).run (.op op :: ts) = (want (.left op e :: σ)).run ts := by
  have hnext := next_op e σ op
  rw [settle_keeps h] at hnext
  exact run_next hnext nofun

theorem castType?_op {w : String} {op : Binary} {t : Token} (h : t ≠ .closeParen) {ts : List Token} :
    castType? (.word w :: .op op :: t :: ts) = none := by
  unfold castType?
  split <;> simp_all

namespace Expr

/-- the tokens of an expression begin with one that closes nothing -/
theorem tokens_first : ∀ {e : Expr}, e.Readable W → ∃ t ts, e.tokens ids = t :: ts ∧ t ≠ .closeParen
  | .var n _, _ => ⟨_, _, tokens.eq_def .., nofun⟩
  | .unary op e _, h => by
    rw [tokens]
    refine ⟨_, _, rfl, ?_⟩
    cases op <;> nofun
  | .binary op l r _, h => by
    rw [Readable] at h
    obtain ⟨t, ts, ht, hne⟩ := tokens_first h.2.1
    rw [tokens, ht]
    cases l.isGrouped op false
    · exact ⟨_, _, rfl, hne⟩
    · exact ⟨_, _, rfl, nofun⟩
  | .access t i _, h => by
    rw [Readable] at h
    obtain ⟨t, ts, ht, hne⟩ := tokens_first h.2.1
    rw [tokens, ht]
    exact ⟨_, _, rfl, hne⟩
  | .ternary .., _ | .addressOf .., _ | .convert .., _ | .call .., _ => by
    rw [tokens]
    exact ⟨_, _, rfl, nofun⟩
  | .bool .., h | .int .., h | .float .., h => by
    rw [Readable] at h
    exact h.elim

/-- behind an opening parenthesis an expression other than a single variable is no type -/
theorem castType?_tokens : ∀ {e : Expr}, e.Readable W → ∀ {ts : List Token},
    (e.isVar = true → ∀ w, castType? (.word w :: ts) = none) → castType? (e.tokens ids ++ ts) = none
  | .var n _, _, _, h => by
    rw [tokens]
    exact h rfl _
  | .unary op e _, _, _, _ => by
    rw [tokens]
    cases op <;> rfl
  | .binary op l r _, h, ts, _ => by
    rw [Readable] at h
    obtain ⟨t, ts', ht, hne⟩ : ∃ t ts, r.tokens ids = t :: ts ∧ t ≠ .closeParen := tokens_first h.2.2
    rw [tokens, List.append_assoc]
    cases l.isGrouped op false with
    | true => rfl
    | false =>
      refine castType?_tokens h.2.1 fun _ w => ?_
      have hright : ∀ b, ∃ t ts, inParens b (r.tokens ids) = t :: ts ∧ t ≠ .closeParen := by
        rintro (_ | _)
        · exact ⟨t, ts', ht, hne⟩
        · exact ⟨_, _, rfl, nofun⟩
      obtain ⟨t, ts', ht, hne⟩ := hright (r.isGrouped op true)
      rw [ht]
      exact castType?_op hne
  | .access t i _, h, _, _ => by
    rw [Readable] at h
    cases t <;> first | cases h.1; done | skip
    rfl
  | .ternary .., _, _, _ | .addressOf .., _, _, _ | .convert .., _, _, _ | .call .., _, _, _ => by
    rw [tokens]
    rfl
  | .bool .., h, _, _ | .int .., h, _, _ | .float .., h, _, _ => by
    rw [Readable] at h
    exact h.elim

theorem isVar_of_isGrouped {e : Expr} {op : Binary} {b : Bool} (h : e.isGrouped op b = true) : e.isVar = false := by
  cases e <;> first | rfl | cases h

/-- an operand without parentheses is held together as the operator wants it -/
theorem rank_of_isGrouped {e : Expr} {op : Binary} {b : Bool} (hop : op.isInfix = true) (he : e.Readable W)
    (h : e.isGrouped op b = false) : Source.rank op ≤ e.rank ∧ (b = true → Source.rank op < e.rank) := by
  have hle := rank_le op
  cases e with
  | binary op' l r ty =>
    rw [Readable] at he
    rw [isGrouped, rank_precedence he.1 hop] at h
    rw [rank]
    split at h
    case h_1 => cases h
    case h_2 heq =>
      subst h
      exact ⟨(Nat.compare_eq_eq.1 heq).ge, nofun⟩
    case h_3 hgt =>
      have := Nat.compare_eq_gt.1 hgt
      exact ⟨this.le, fun _ => this⟩
  | var | access | call =>
    have : Source.rank op ≤ 12 ∧ (b = true → Source.rank op < 12) := ⟨by omega, fun _ => by omega⟩
    exact this
  | bool | int | float => exact (Readable.eq_def _ _ ▸ he).elim
  | unary | ternary | addressOf | convert => cases h

theorem one_le_rank {op : Binary} (h : op.isInfix = true) : 1 ≤ Source.rank op := by
  cases op <;> first | decide | cases h

theorem rank_pos {e : Expr} (h : e.Readable W) : 0 < e.rank := by
  cases e with
  | binary op l r ty =>
    rw [Readable] at h
    exact one_le_rank h.1
  | _ => exact Nat.succ_pos _

/-- the variable that is read where the identifier of a name stands -/
def spelled (ids : Identifiers) (n : Name) : Name := .plain (ident ids n)

/-- reading the tokens of an expression gives the expression, wherever it may stand -/
structure Reads (ids : Identifiers) (e : Expr) : Prop where
  run : ∀ {σ : List Frame} {ts : List Token}, Admits e.rank σ → Ends e.rank ts →
    (Reader.want σ).run (e.tokens ids ++ ts) = (Reader.held (e.bare (spelled ids)) σ).run ts

/-- an expression in parentheses may stand anywhere -/
theorem Reads.parens {e : Expr} (h : e.Reads ids) (he : e.Readable W) (hv : e.isVar = false) {σ : List Frame}
    {ts : List Token} : (Reader.want σ).run (.openParen :: e.tokens ids ++ .closeParen :: ts) =
      (Reader.held (e.bare (spelled ids)) σ).run ts := by
  have hcast : castType? (e.tokens ids ++ .closeParen :: ts) = none :=
    castType?_tokens he fun hv' => by simp [hv] at hv'
  have hend : Ends e.rank (.closeParen :: ts) := trivial
  rw [List.cons_append, Reader.run_group _ _ hcast, h.run (.boundary rfl) hend, Reader.run_closeGroup]

/-- an operand with the parentheses it needs -/
theorem Reads.operand {e : Expr} (h : e.Reads ids) (he : e.Readable W) {b : Bool} (hv : b = true → e.isVar = false)
    {σ : List Frame} {ts : List Token} (hσ : b = false → Admits e.rank σ) (hts : b = false → Ends e.rank ts) :
    (Reader.want σ).run (inParens b (e.tokens ids) ++ ts) = (Reader.held (e.bare (spelled ids)) σ).run ts := by
  cases b with
  | false => exact h.run (hσ rfl) (hts rfl)
  | true =>
    rw [inParens, if_pos rfl, List.append_assoc]
    exact h.parens he (hv rfl)

/-- the operand of a prefix operator or a cast, with the parentheses it needs -/
theorem Reads.argument {e : Expr} (h : e.Reads ids) (he : e.Readable W) {f : Frame} (hf : f.rank? = some 11)
    {σ : List Frame} {ts : List Token} (hts : Ends 11 ts) :
    (Reader.want (f :: σ)).run (inParens (!e.isLeaf) (e.tokens ids) ++ ts) =
      (Reader.held (f.complete (e.bare (spelled ids))) σ).run ts := by
  have hrank (hl : (!e.isLeaf) = false) : e.rank = 12 := by cases e <;> first | rfl | cases hl
  have hvar (hl : (!e.isLeaf) = true) : e.isVar = false := by cases e <;> first | rfl | cases hl
  rw [h.operand he hvar, Reader.run_completes hf (by decide) hts]
  · intro hl
    rw [hrank hl]
    exact .inner hf (by decide)
  · intro hl
    rw [hrank hl]
    exact Ends.mono (by decide) hts

/-- reading the arguments of a call -/
structure ReadsArgs (ids : Identifiers) (es : List Expr) : Prop where
  run : ∀ {id : String} {done : List Expr} {σ : List Frame} {ts : List Token},
    (Reader.want (.args id done :: σ)).run (argTokens ids es ++ .closeParen :: ts) =
      (Reader.held (.call id (done ++ allBare (spelled ids) es) .void) σ).run ts

mutual

theorem reads : ∀ {e : Expr}, e.Readable W → e.Reads ids
  | .var n _, h => ⟨fun _ _ => by
    rw [tokens, bare, List.singleton_append, Reader.run_word]
    rfl⟩
  | .unary op e _, h => ⟨fun {σ ts} _ hts => by
    rw [Readable] at h
    have hnext : (Reader.want σ).next (prefixToken op) = some (.want (.unary op :: σ)) := by
      cases op <;> first | rfl | cases h.1
    have hopen : prefixToken op ≠ .openParen := by cases op <;> nofun
    rw [tokens, bare, List.cons_append, Reader.run_next hnext fun h => absurd h hopen]
    exact (reads h.2).argument h.2 rfl (Ends.of_prefix hts)⟩
  | .binary op l r _, h => ⟨fun {σ ts} hσ hts => by
    rw [Readable] at h
    obtain ⟨hop, hl, hr⟩ := h
    have hleft := rank_of_isGrouped (b := false) hop hl
    have hright := rank_of_isGrouped (b := true) hop hr
    -- the left operand ends at the operator, which then waits for the right one
    have hendl (hb : l.isGrouped op false = false) :
        Ends l.rank (.op op :: (inParens (r.isGrouped op true) (r.tokens ids) ++ ts)) := (hleft hb).1
    have hendr (hb : r.isGrouped op true = false) : Ends r.rank ts := Ends.mono (hright hb).1 hts
    rw [tokens, bare, List.append_assoc, List.cons_append,
      (reads hl).operand hl isVar_of_isGrouped (fun hb => hσ.mono (hleft hb).1) hendl, Reader.run_op hσ,
      (reads hr).operand hr isVar_of_isGrouped (fun hb => .inner rfl ((hright hb).2 rfl)) hendr]
    exact Reader.run_completes (f := .left op _) rfl (one_le_rank hop) hts _ _⟩
  | .ternary c t e _, h => ⟨fun {σ ts} _ _ => by
    rw [Readable] at h
    obtain ⟨hc, ht, he⟩ := h
    have hcast : castType? (c.tokens ids ++ .question :: (t.tokens ids ++ .colon :: (e.tokens ids ++ .closeParen :: ts))) =
        none := castType?_tokens hc fun _ _ => rfl
    rw [tokens, bare]
    simp only [List.cons_append, List.append_assoc, List.nil_append]
    have hendc : Ends c.rank (.question :: (t.tokens ids ++ .colon :: (e.tokens ids ++ .closeParen :: ts))) := trivial
    have hendt : Ends t.rank (.colon :: (e.tokens ids ++ .closeParen :: ts)) := trivial
    have hende : Ends e.rank (.closeParen :: ts) := trivial
    rw [Reader.run_group _ _ hcast, (reads hc).run (.boundary rfl) hendc, Reader.run_question _ _ _ rfl,
      (reads ht).run (.boundary rfl) hendt, Reader.run_colon, (reads he).run (.inner rfl (rank_pos he)) hende,
      Reader.run_closeConditional]⟩
  | .access t i _, h => ⟨fun {σ ts} _ _ => by
    rw [Readable] at h
    obtain ⟨hvar, -, hi⟩ := h
    cases t <;> first | cases hvar; done | skip
    rw [tokens, bare, tokens, bare]
    simp only [List.cons_append, List.append_assoc, List.nil_append]
    have hend : Ends i.rank (.closeBracket :: ts) := trivial
    rw [Reader.run_word, Reader.run_index, (reads hi).run (.boundary rfl) hend, Reader.run_closeIndex]
    rfl⟩
  | .addressOf e _, h => ⟨fun {σ ts} _ hts => by
    rw [Readable] at h
    have hrank : e.rank = 12 := by cases e <;> first | rfl | cases h.1
    rw [tokens, bare, List.cons_append, Reader.run_address,
      (reads h.2).run (hrank ▸ .inner rfl (by decide)) (hrank ▸ hts)]
    exact Reader.run_completes (f := .address) rfl (by decide) (Ends.of_prefix hts) _ _⟩
  | .convert e ty, h => ⟨fun {σ ts} _ hts => by
    rw [Readable] at h
    rw [tokens, bare, List.cons_append, List.cons_append, List.append_assoc, List.cons_append, Reader.run_cast]
    exact (reads h).argument h rfl (Ends.of_prefix hts)⟩
  | .call id [] _, h => ⟨fun {σ ts} _ _ => by
    rw [tokens, bare, argTokens, allBare]
    simp only [List.cons_append, List.nil_append]
    rw [Reader.run_call, Reader.run_noArgs]⟩
  | .call id (e :: es) _, h => ⟨fun {σ ts} _ _ => by
    rw [Readable] at h
    rw [tokens, bare]
    simp only [List.cons_append, List.append_assoc, List.nil_append]
    rw [Reader.run_call, (readsArgs (List.cons_ne_nil _ _) h.2).run, List.nil_append]⟩
  | .bool .., h | .int .., h | .float .., h => by
    rw [Readable] at h
    exact h.elim

theorem readsArgs : ∀ {es : List Expr}, es ≠ [] → AllReadable W es → ReadsArgs ids es
  | [], hne, _ => absurd rfl hne
  | [e], _, h => ⟨by
    intro id done σ ts
    rw [AllReadable] at h
    have hend : Ends e.rank (.closeParen :: ts) := trivial
    rw [argTokens, (reads h.1).run (.boundary rfl) hend, Reader.run_closeArgs, allBare, allBare]⟩
  | e :: e' :: es, _, h => ⟨by
    intro id done σ ts
    rw [AllReadable] at h
    have hend : Ends e.rank (.comma :: (argTokens ids (e' :: es) ++ .closeParen :: ts)) := trivial
    rw [argTokens, List.append_assoc, List.cons_append, (reads h.1).run (.boundary rfl) hend, Reader.run_comma,
      (readsArgs (List.cons_ne_nil _ _) h.2).run, List.append_assoc, List.singleton_append, allBare]
    simp only [allBare]⟩

end

/-! ## The text of an expression -/

/-- reading the text of an expression gives the expression back -/
theorem read_print {e : Expr} (hW : Identifies ids W) (he : e.Readable W) :
    (e.print ids).2 = ids ∧ read (e.print ids).1 = some (e.bare (spelled ids)) := by
  obtain ⟨s, hs, hts, -⟩ := print_spells hW he
  have hlex : lex s.toList = some (e.tokens ids) := by
    have := hts [] (by simp [Apart])
    rwa [List.append_nil, lex, Option.map_some, List.append_nil] at this
  have hstart : Admits e.rank [] := by
    intro f hf
    cases hf
  have hend : Ends e.rank [] := trivial
  have hreads : e.Reads ids := reads he
  have hrun := hreads.run hstart hend
  rw [List.append_nil] at hrun
  rw [hs]
  refine ⟨rfl, ?_⟩
  rw [read, hlex]
  change (Reader.want []).run (e.tokens ids) = _
  rw [hrun, Reader.run, Reader.result?, settle]

mutual

theorem bare_bare (f g : Name → Name) : ∀ e : Expr, (e.bare f).bare g = e.bare (g ∘ f)
  | .var .. | .bool .. | .int .. | .float .. => by simp only [bare, Function.comp]
  | .unary _ e _ | .addressOf e _ | .convert e _ => by simp only [bare, bare_bare f g e]
  | .binary _ l r _ | .access l r _ => by simp only [bare, bare_bare f g l, bare_bare f g r]
  | .ternary c t e _ => by simp only [bare, bare_bare f g c, bare_bare f g t, bare_bare f g e]
  | .call _ args _ => by simp only [bare, allBare_allBare f g args]

theorem allBare_allBare (f g : Name → Name) : ∀ es : List Expr, allBare g (allBare f es) = allBare (g ∘ f) es
  | [] => rfl
  | e :: es => by simp only [allBare, bare_bare f g e, allBare_allBare f g es]

end

mutual

theorem bare_congr {f g : Name → Name} (h : ∀ n ∈ W, f n = g n) : ∀ {e : Expr}, e.Readable W → e.bare f = e.bare g
  | .var n _, he => by
    rw [Readable] at he
    rw [bare, bare, h n he]
  | .unary _ e _, he => by
    rw [Readable] at he
    rw [bare, bare, bare_congr h he.2]
  | .binary _ l r _, he => by
    rw [Readable] at he
    rw [bare, bare, bare_congr h he.2.1, bare_congr h he.2.2]
  | .ternary c t e _, he => by
    rw [Readable] at he
    rw [bare, bare, bare_congr h he.1, bare_congr h he.2.1, bare_congr h he.2.2]
  | .access t i _, he => by
    rw [Readable] at he
    rw [bare, bare, bare_congr h he.2.1, bare_congr h he.2.2]
  | .addressOf e _, he => by
    rw [Readable] at he
    rw [bare, bare, bare_congr h he.2]
  | .convert e _, he => by
    rw [Readable] at he
    rw [bare, bare, bare_congr h he]
  | .call _ args _, he => by
    rw [Readable] at he
    rw [bare, bare, allBare_congr h he.2]
  | .bool .., he | .int .., he | .float .., he => by
    rw [Readable] at he
    exact he.elim

theorem allBare_congr {f g : Name → Name} (h : ∀ n ∈ W, f n = g n) : ∀ {es : List Expr}, AllReadable W es →
    allBare f es = allBare g es
  | [], _ => rfl
  | e :: es, he => by
    rw [AllReadable] at he
    rw [allBare, allBare, bare_congr h he.1, allBare_congr h he.2]

end

/-- distinct identifiers tell the variables apart -/
theorem spelled_injOn (hW : Identifies ids W) : Set.InjOn (spelled ids) W := fun m hm n hn h => by
  obtain ⟨s, hs, -⟩ := hW.identifier m hm
  obtain ⟨t, ht, -⟩ := hW.identifier n hn
  have hst : s = t := by simpa [spelled, ident, hs, ht, Name.plain] using h
  exact hW.distinct m hm n hn (by rw [hs, ht, hst])

/-- The text of an expression determines it: reading it goes back to the expression, and two expressions with one text
have the same operators, names, calls and casts everywhere. -/
theorem text_determines {e e' : Expr} (hW : Identifies ids W) (he : e.Readable W) (he' : e'.Readable W) :
    (e.print ids).2 = ids ∧ read (e.print ids).1 = some (e.bare (spelled ids)) ∧
      ((e.print ids).1 = (e'.print ids).1 → e.bare id = e'.bare id) := by
  refine ⟨(read_print hW he).1, (read_print hW he).2, fun h => ?_⟩
  have hread : e.bare (spelled ids) = e'.bare (spelled ids) := by
    have hr := (read_print hW he).2
    rw [h, (read_print hW he').2] at hr
    exact (Option.some.inj hr).symm
  have hinv : ∀ n ∈ W, (Function.invFunOn (spelled ids) W ∘ spelled ids) n = id n := fun n hn =>
    (spelled_injOn hW).leftInvOn_invFunOn hn
  calc e.bare id = (e.bare (spelled ids)).bare (Function.invFunOn (spelled ids) W) := by
        rw [bare_bare, bare_congr hinv he]
    _ = (e'.bare (spelled ids)).bare (Function.invFunOn (spelled ids) W) := by rw [hread]
    _ = e'.bare id := by rw [bare_bare, bare_congr hinv he']

/-- an expression in which almost every operator needs its precedence, over a plain and a fresh name of one text -/
def nested (ty : Ty) : Expr :=
  let x := var (.plain "a") ty
  let y := var ⟨"a", some 3⟩ ty
  binary .sub (binary .sub (unary .neg (unary .neg x ty) ty) y ty)
    (binary .mul (convert (ternary (binary .lt x y ty) x (access x y ty) ty) (.pointer .f32 .global))
      (call "f" [addressOf (access x y ty) ty, binary .bitAnd x (binary .eq x y ty) ty] ty) ty) ty

/-- the identifiers after both names have been printed -/
def nestedIds : Identifiers := ((({} : Identifiers).choose (.plain "a")).2.choose ⟨"a", some 3⟩).2

theorem text_determines_nested :
    let W : Set Name := {.plain "a", ⟨"a", some 3⟩}
    (Identifies nestedIds W ∧ (nested .void).Readable W ∧ (nested .i64).Readable W ∧
      ((nested .void).print nestedIds).1 = ((nested .i64).print nestedIds).1) ∧
    ((nested .void).print nestedIds).2 = nestedIds ∧
      read ((nested .void).print nestedIds).1 = some ((nested .void).bare (spelled nestedIds)) ∧
      (nested .void).bare id = (nested .i64).bare id := by
  intro W
  have ha : nestedIds.chosen.get? (.plain "a") = some "a" := by decide
  have hb : nestedIds.chosen.get? ⟨"a", some 3⟩ = some "a_3" := by decide
  have hW : Identifies nestedIds W := by
    refine ⟨?_, ?_⟩
    · rintro n (rfl | rfl)
      · exact ⟨_, ha, by decide⟩
      · exact ⟨_, hb, by decide⟩
    · rintro m (rfl | rfl) n (rfl | rfl) h
      · rfl
      · exact absurd (ha.symm.trans (h.trans hb)) (by decide)
      · exact absurd (hb.symm.trans (h.trans ha)) (by decide)
      · rfl
  have hx : Name.plain "a" ∈ W := .inl rfl
  have hy : (⟨"a", some 3⟩ : Name) ∈ W := .inr rfl
  have hread (ty : Ty) : (nested ty).Readable W := by
    simp [nested, Readable, AllReadable, hx, hy, isVar, isAccess, Unary.isFunction, Binary.isInfix]
    decide
  have htext : ((nested .void).print nestedIds).1 = ((nested .i64).print nestedIds).1 := by rfl
  obtain ⟨hids, hback, hsame⟩ := text_determines hW (hread .void) (hread .i64)
  exact ⟨⟨hW, hread _, hread _, htext⟩, hids, hback, hsame htext⟩

end Expr

end GpuHistogram.Source
