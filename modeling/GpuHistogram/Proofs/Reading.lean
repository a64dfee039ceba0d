/-
Reading expressions as C has them. `lex` cuts a text into tokens, of which the longest wins, and `run` is a machine that
reads one token after the other: what is still open waits in frames, the innermost first. An operator first completes the
open ones that bind at least as tightly, which is to associate to the left; a prefix operator or a cast takes the operand
behind it with its indices and arguments, and the last part of a conditional reaches as far as it can.

The ranks of the operators are those of the grammar of C, and `rank_precedence` is that printing goes by the same. What is
read has no types but those of casts, and its variables are the plain names that stand in the text.
-/
import GpuHistogram.Source.Print
import Mathlib.Data.Nat.Notation
import Mathlib.Tactic.Common

namespace GpuHistogram.Source

/-- what a text is made of; the symbols `-`, `&` and `*` are operators wherever they stand -/
inductive Token where
  | word (s : String)
  | op (op : Binary)
  | bang
  | tilde
  | question
  | colon
  | comma
  | openParen
  | closeParen
  | openBracket
  | closeBracket
  deriving DecidableEq

/-! ## Tokens -/

def isWordStart (c : Char) : Bool := c.isAlpha || c == '_'

def isWordChar (c : Char) : Bool := c.isAlphanum || c == '_'

/-- what is written with other characters than those of words, longer texts first; some of it is no part of an
expression here -/
def marks : List (List Char × Option Token) := [
  (['<', '<', '='], none), (['>', '>', '='], none), (['.', '.', '.'], none),
  (['+', '+'], none), (['-', '-'], none), (['-', '>'], none), (['/', '/'], none), (['/', '*'], none), (['+', '='], none),
  (['-', '='], none), (['*', '='], none), (['/', '='], none), (['%', '='], none), (['&', '='], none), (['|', '='], none),
  (['^', '='], none), (['&', '&'], some (.op .and)), (['|', '|'], some (.op .or)), (['<', '<'], some (.op .shl)),
  (['>', '>'], some (.op .shr)), (['=', '='], some (.op .eq)), (['!', '='], some (.op .ne)), (['<', '='], some (.op .le)),
  (['>', '='], some (.op .ge)),
  (['+'], some (.op .add)), (['-'], some (.op .sub)), (['*'], some (.op .mul)), (['/'], some (.op .div)),
  (['%'], some (.op .rem)), (['&'], some (.op .bitAnd)), (['|'], some (.op .bitOr)), (['^'], some (.op .bitXor)),
  (['<'], some (.op .lt)), (['>'], some (.op .gt)), (['!'], some .bang), (['~'], some .tilde), (['?'], some .question),
  ([':'], some .colon), ([','], some .comma), (['('], some .openParen), ([')'], some .closeParen),
  (['['], some .openBracket), ([']'], some .closeBracket)]

/-- the longest mark that a text begins with, and what is behind it -/
def mark? (cs : List Char) : Option (Token × List Char) := do
  let m ← marks.find? fun m => m.1.isPrefixOf cs
  let t ← m.2
  return (t, cs.drop m.1.length)

theorem mark?_spec {cs cs' : List Char} {t : Token} (h : mark? cs = some (t, cs')) :
    ∃ m, (m, some t) ∈ marks ∧ cs = m ++ cs' := by
  simp only [mark?, Option.bind_eq_bind, Option.bind_eq_some_iff, Option.pure_def, Option.some.injEq, Prod.mk.injEq] at h
  obtain ⟨⟨m, t'⟩, hm, _, rfl, rfl, rfl⟩ := h
  have hpre : m.isPrefixOf cs = true := by simpa using List.find?_some hm
  exact ⟨m, List.mem_of_find?_eq_some hm, (List.prefix_iff_eq_append.1 (List.isPrefixOf_iff_prefix.1 hpre)).symm⟩

/-- a mark begins with a character that neither is blank nor begins a word -/
theorem mark?_first {cs cs' : List Char} {t : Token} (h : mark? cs = some (t, cs')) :
    ∃ c m, cs = c :: (m ++ cs') ∧ c ≠ ' ' ∧ isWordStart c = false := by
  have hmarks : marks.all (fun m => m.1.head?.any fun c => c != ' ' && !isWordStart c) = true := by decide
  obtain ⟨m, hm, rfl⟩ := mark?_spec h
  obtain ⟨c, hc, hfirst⟩ := (Option.any_eq_true _ _).1 (List.all_eq_true.1 hmarks _ hm)
  obtain ⟨m, rfl⟩ := List.head?_eq_some_iff.1 hc
  exact ⟨c, m, rfl, by simpa using hfirst⟩

theorem mark?_length {cs cs' : List Char} {t : Token} (h : mark? cs = some (t, cs')) : cs'.length < cs.length := by
  obtain ⟨c, m, rfl, -⟩ := mark?_first h
  simp only [List.length_cons, List.length_append]
  omega

/-- the tokens of a text, none if there are others in it -/
def lex : List Char → Option (List Token)
  | [] => some []
  | c :: cs =>
    if c = ' ' then lex cs
    else if isWordStart c then
      (lex (cs.dropWhile isWordChar)).map (.word (String.ofList (c :: cs.takeWhile isWordChar)) :: ·)
    else
      match _h : mark? (c :: cs) with
      | some (t, cs') => (lex cs').map (t :: ·)
      | none => none
termination_by cs => cs.length
decreasing_by
  · simp
  · exact Nat.lt_succ_of_le (List.dropWhile_suffix _).length_le
  · exact mark?_length _h

theorem lex_space (cs : List Char) : lex (' ' :: cs) = lex cs := by
  rw [lex]
  simp

theorem lex_mark {cs cs' : List Char} {t : Token} (h : mark? cs = some (t, cs')) : lex cs = (lex cs').map (t :: ·) := by
  obtain ⟨c, m, rfl, hspace, hword⟩ := mark?_first h
  rw [lex, if_neg hspace, if_neg (by simp [hword])]
  split
  case h_1 h' =>
    obtain ⟨rfl, rfl⟩ := Prod.mk.inj (Option.some.inj (h.symm.trans h'))
    rfl
  case h_2 h' => exact nomatch h.symm.trans h'

/-- a word of C that may be a name -/
def isIdentifier (s : String) : Bool :=
  match s.toList with
  | [] => false
  | c :: cs => isWordStart c && cs.all isWordChar

/-- what is behind a word does not continue it -/
def Apart (cs : List Char) : Prop :=
  ∀ c ∈ cs.head?, isWordChar c = false

theorem lex_word {s : String} (h : isIdentifier s = true) {rest : List Char} (hr : Apart rest) :
    lex (s.toList ++ rest) = (lex rest).map (.word s :: ·) := by
  unfold isIdentifier at h
  split at h
  case h_1 => cases h
  case h_2 c cs hs =>
    obtain ⟨hc, hcs⟩ := Bool.and_eq_true_iff.1 h
    have hspace : c ≠ ' ' := by
      rintro rfl
      exact absurd hc (by decide)
    have htake : (cs ++ rest).takeWhile isWordChar = cs := by
      rw [List.takeWhile_append_of_pos (List.all_eq_true.1 hcs)]
      cases rest with
      | nil => simp
      | cons d rest => simp [hr d rfl]
    have hdrop : (cs ++ rest).dropWhile isWordChar = rest := by
      rw [List.dropWhile_append_of_pos (List.all_eq_true.1 hcs)]
      cases rest with
      | nil => rfl
      | cons d rest => simp [hr d rfl]
    rw [hs, List.cons_append, lex, if_neg hspace, if_pos hc, htake, hdrop, ← hs, String.ofList_toList]

/-! ## Types -/

/-- the element type of a name -/
def scalarNamed? (w : String) : Option Scalar :=
  Scalar.all.find? fun s => s.cText = w

/-- the type of a name -/
def typeNamed? (w : String) : Option Ty :=
  if w = "void" then some .void else (scalarNamed? w).map .scalar

/-- the address space of a name -/
def qualifierNamed? (w : String) : Option Qualifier :=
  [Qualifier.global, .group, .shared].find? fun q => q.text? = some w

/-- a type that parentheses enclose, and what is behind them -/
def castType? : List Token → Option (Ty × List Token)
  | .word w :: .closeParen :: ts => do return (← typeNamed? w, ts)
  | .word w :: .op .mul :: .closeParen :: ts => do return (.pointer (← scalarNamed? w) .unqualified, ts)
  | .word q :: .word w :: .op .mul :: .closeParen :: ts => do
    return (.pointer (← scalarNamed? w) (← qualifierNamed? q), ts)
  | _ => none

theorem castType?_length {ts ts' : List Token} {ty : Ty} (h : castType? ts = some (ty, ts')) :
    ts'.length < ts.length := by
  unfold castType? at h
  split at h <;> simp [Option.bind_eq_some_iff] at h
  · obtain ⟨_, -, -, rfl⟩ := h
    simp only [List.length_cons]
    omega
  · obtain ⟨_, -, -, rfl⟩ := h
    simp only [List.length_cons]
    omega
  · obtain ⟨_, -, _, -, -, rfl⟩ := h
    simp only [List.length_cons]
    omega

/-! ## Expressions -/

/-- the level of an operator in the grammar of C, from the one that binds least on -/
def rank : Binary → ℕ
  | .or => 1
  | .and => 2
  | .bitOr => 3
  | .bitXor => 4
  | .bitAnd => 5
  | .eq | .ne => 6
  | .lt | .gt | .le | .ge => 7
  | .shl | .shr => 8
  | .add | .sub => 9
  | .mul | .div | .rem => 10
  | .max | .min => 0

/-- operators are printed by the precedences of C -/
theorem rank_precedence {l r : Binary} (hl : l.isInfix = true) (hr : r.isInfix = true) :
    l.precedence r = compare (rank l) (rank r) := by
  revert hl hr
  cases l <;> cases r <;> decide

/-- what waits for an operand, or for what closes it -/
inductive Frame where
  | unary (op : Unary)
  | address
  | cast (ty : Ty)
  | left (op : Binary) (l : Expr)
  | otherwise (c t : Expr)
  | group
  | cond (c : Expr)
  | index (target : Expr)
  | args (id : String) (done : List Expr)

namespace Frame

/-- how tightly what waits for an operand binds it -/
def rank? : Frame → Option ℕ
  | otherwise .. => some 0
  | left op _ => some (rank op)
  | unary _ | address | cast _ => some 11
  | group | cond _ | index _ | args .. => none

/-- what waits for an operand, with the operand -/
def complete : Frame → Expr → Expr
  | unary op, e => .unary op e .void
  | address, e => .addressOf e .void
  | cast ty, e => .convert e ty
  | left op l, e => .binary op l e .void
  | otherwise c t, e => .ternary c t e .void
  | group, e | cond _, e | index _, e | args .., e => e

end Frame

/-- complete what binds an operand at least so tightly -/
def settle (k : ℕ) : Expr → List Frame → Expr × List Frame
  | e, [] => (e, [])
  | e, f :: σ =>
    match f.rank? with
    | some j => if k ≤ j then settle k (f.complete e) σ else (e, f :: σ)
    | none => (e, f :: σ)

/-- what is open, with the operand that is due next or has just been read -/
inductive Reader where
  | want (σ : List Frame)
  | held (e : Expr) (σ : List Frame)

namespace Reader

/-- read a token that ends an operand with all that waits for it -/
def close : Token → Expr × List Frame → Option Reader
  | .colon, (e, .cond c :: σ) => some (want (.otherwise c e :: σ))
  | .closeParen, (e, .group :: σ) => some (held e σ)
  | .closeParen, (e, .args id done :: σ) => some (held (.call id (done ++ [e]) .void) σ)
  | .comma, (e, .args id done :: σ) => some (want (.args id (done ++ [e]) :: σ))
  | .closeBracket, (e, .index target :: σ) => some (held (.access target e .void) σ)
  | _, _ => none

/-- read a token -/
def next : Reader → Token → Option Reader
  | want σ, .word s => some (held (.var (.plain s) .void) σ)
  | want σ, .op .sub => some (want (.unary .neg :: σ))
  | want σ, .bang => some (want (.unary .not :: σ))
  | want σ, .tilde => some (want (.unary .bitNeg :: σ))
  | want σ, .op .bitAnd => some (want (.address :: σ))
  | want σ, .openParen => some (want (.group :: σ))
  | want (.args id [] :: σ), .closeParen => some (held (.call id [] .void) σ)
  | want _, _ => none
  | held (.var n _) σ, .openParen => some (want (.args n.text [] :: σ))
  | held e σ, .openBracket => some (want (.index e :: σ))
  | held e σ, .op op =>
    let (l, σ) := settle (rank op) e σ
    some (want (.left op l :: σ))
  | held e σ, .question =>
    let (c, σ) := settle 1 e σ
    some (want (.cond c :: σ))
  | held e σ, t => close t (settle 0 e σ)

/-- read a token, or a cast as a whole -/
def step (r : Reader) (t : Token) (ts : List Token) : Option (Reader × List Token) :=
  match r, t, castType? ts with
  | want σ, .openParen, some (ty, ts) => some (want (.cast ty :: σ), ts)
  | r, t, _ => (r.next t).map (·, ts)

theorem step_length {r r' : Reader} {t : Token} {ts ts' : List Token} (h : r.step t ts = some (r', ts')) :
    ts'.length ≤ ts.length := by
  unfold step at h
  split at h
  case h_1 hty =>
    cases h
    exact Nat.le_of_lt (castType?_length hty)
  case h_2 =>
    obtain ⟨_, -, h⟩ := Option.map_eq_some_iff.1 h
    cases h
    exact Nat.le_refl _

/-- the expression, if nothing is open -/
def result? : Reader → Option Expr
  | want _ => none
  | held e σ =>
    match settle 0 e σ with
    | (e, []) => some e
    | _ => none

/-- read all tokens -/
def run (r : Reader) : List Token → Option Expr
  | [] => r.result?
  | t :: ts =>
    match _h : r.step t ts with
    | some (r, ts') => run r ts'
    | none => none
termination_by ts => ts.length
decreasing_by exact Nat.lt_succ_of_le (step_length _h)

end Reader

/-- read an expression -/
def read (text : String) : Option Expr := do
  (Reader.want []).run (← lex text.toList)

end GpuHistogram.Source
