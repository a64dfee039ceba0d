/-
The numbers that C reads in the texts of integer literals. `Constant.read?` reads a constant expression made of literals,
signs, differences, casts and parentheses; `Constant.number?` is its number with its type, by the rules of C for an `int`
of 32 bits and a `long` of 64: a literal has the first type of its list that holds it, smaller types are promoted to `int`,
a difference has the larger type of both sides, and a cast wraps.

A constant has no number if a literal in it is too large for every type, or if a signed result is. A text that is printed
for an integer is read as `Constant.spelled`.

Results:
- `number?_eq_none_of_overflows`: a literal that is too large leaves no number;
- `read_intText`: the text of an integer is read as the constant that spells it;
- `intText_number`: which number and type it has, for every word and every integer type;
- `folded_literal_misread`: a literal that folding makes is printed as it is and read as another number than it stands for.
-/
import GpuHistogram.Code.Fold
import GpuHistogram.Proofs.Modular
import GpuHistogram.Proofs.Reading
import Mathlib.Tactic.IntervalCases

namespace GpuHistogram.Source

/-- a constant expression -/
inductive Constant where
  | literal (n : ℕ) (hex unsigned : Bool)
  | neg (e : Constant)
  | sub (l r : Constant)
  | cast (s : Scalar) (e : Constant)
  deriving DecidableEq

/-- a number of a type -/
structure Number where
  value : Int
  type : Scalar
  deriving DecidableEq

namespace Constant

/-! ## Numbers -/

/-- the types that a literal may have, in the order in which they are tried -/
def literalTypes (hex : Bool) : List Scalar :=
  if hex then [.i32, .u32, .i64, .u64] else [.i32, .i64]

/-- the type of a literal without suffix, none if it is too large for all of them -/
def literalType? (n : ℕ) (hex : Bool) : Option Scalar :=
  (literalTypes hex).find? fun s => s.wrap n = n

/-- the number of a literal; a suffix makes it an unsigned number of 32 bits -/
def literal? (n : ℕ) (hex unsigned : Bool) : Option Number :=
  if unsigned then some ⟨Scalar.u32.wrap n, .u32⟩ else (literalType? n hex).map (⟨n, ·⟩)

/-- arithmetic is not done on types smaller than `int` -/
def promoted (s : Scalar) : Scalar :=
  if s.bits < 32 then .i32 else s

/-- the type in which two numbers are taken together -/
def common (s t : Scalar) : Scalar :=
  ([Scalar.u64, .i64, .u32].find? fun u => u = s ∨ u = t).getD .i32

/-- a result of arithmetic: unsigned numbers wrap, and a signed one has to fit -/
def result? (s : Scalar) (n : Int) : Option Number :=
  if s.isSigned ∧ s.wrap n ≠ n then none else some ⟨s.wrap n, s⟩

/-- the number of a constant -/
def number? : Constant → Option Number
  | literal n hex unsigned => literal? n hex unsigned
  | neg e => do
    let a ← e.number?
    result? (promoted a.type) (-a.value)
  | sub l r => do
    let a ← l.number?
    let b ← r.number?
    let s := common (promoted a.type) (promoted b.type)
    result? s (s.wrap a.value - s.wrap b.value)
  | cast s e => do
    let a ← e.number?
    return ⟨s.wrap a.value, s⟩

/-- a literal in the constant is too large for every type -/
def Overflows : Constant → Prop
  | literal n hex unsigned => literal? n hex unsigned = none
  | neg e => e.Overflows
  | sub l r => l.Overflows ∨ r.Overflows
  | cast _ e => e.Overflows

theorem number?_eq_none_of_overflows {e : Constant} (h : e.Overflows) : e.number? = none := by
  induction e with
  | literal n hex unsigned => exact h
  | neg e ih => rw [number?, ih h, Option.bind_eq_bind, Option.bind_none]
  | sub l r ihl ihr =>
    rw [number?]
    rcases h with h | h
    · rw [ihl h, Option.bind_eq_bind, Option.bind_none]
    · simp only [ihr h, Option.bind_eq_bind, Option.bind_none, Option.bind_fun_none]
  | cast s e ih => rw [number?, ih h, Option.bind_eq_bind, Option.bind_none]

/-! ## Reading -/

/-- the number of a digit -/
def digit? (c : Char) : Option ℕ :=
  if c.isDigit then some (c.toNat - '0'.toNat)
  else if 'a' ≤ c ∧ c ≤ 'f' then some (c.toNat - 'a'.toNat + 10)
  else none

/-- the number with the given digits to a base behind others -/
def digitsFrom? (b : ℕ) : ℕ → List Char → Option ℕ
  | n, [] => some n
  | n, c :: cs => do
    let d ← digit? c
    if d < b then digitsFrom? b (b * n + d) cs else none

/-- the number with the given digits to a base -/
def digits? (b : ℕ) (cs : List Char) : Option ℕ :=
  if cs = [] then none else digitsFrom? b 0 cs

/-- the literal that digits stand for; a leading zero makes it octal, which is not read here -/
def unsuffixed? (unsigned : Bool) : List Char → Option Constant
  | '0' :: 'x' :: ds => (digits? 16 ds).map (literal · true unsigned)
  | '0' :: _ :: _ => none
  | ds => (digits? 10 ds).map (literal · false unsigned)

/-- the literal that a word stands for -/
def literalNamed? (w : List Char) : Option Constant :=
  if w.getLast? = some 'u' then unsuffixed? true w.dropLast else unsuffixed? false w

/-- what is not a word; a minus sign is none if it begins a longer operator -/
def mark? (c : Char) (next : Option Char) : Option Token :=
  match c with
  | '(' => some .openParen
  | ')' => some .closeParen
  | '-' => if next = some '-' ∨ next = some '=' ∨ next = some '>' then none else some (.op .sub)
  | _ => none

/-- a word that has ended, if there is one -/
def ended (w : List Char) : List Token :=
  if w = [] then [] else [.word (String.ofList w)]

/-- the tokens of a text behind the beginning of a word; a literal is a word -/
def lex (w : List Char) : List Char → Option (List Token)
  | [] => some (ended w)
  | c :: cs =>
    if isWordChar c then lex (w ++ [c]) cs
    else if c = ' ' then (lex [] cs).map (ended w ++ ·)
    else do
      let t ← mark? c cs.head?
      let ts ← lex [] cs
      return ended w ++ t :: ts

/-- the integer type of a name -/
def integerNamed? (w : String) : Option Scalar :=
  (scalarNamed? w).filter Scalar.isInteger

/-- what waits for the operand that is being read -/
inductive Pending where
  | neg
  | type (s : Scalar)
  | cast (s : Scalar)
  | sub (l : Constant)
  | group

/-- what is open, the innermost first, and the operand that has been read behind it -/
structure Reader where
  opened : List Pending := []
  operand : Option Constant := none

/-- complete the signs and casts in front of an operand -/
def settle : List Pending → Constant → Reader
  | .neg :: fs, e => settle fs (.neg e)
  | .cast s :: fs, e => settle fs (.cast s e)
  | fs, e => ⟨fs, some e⟩

/-- complete a difference -/
def settleSub : List Pending → Constant → List Pending × Constant
  | .sub l :: fs, e => (fs, .sub l e)
  | fs, e => (fs, e)

/-- read one token -/
def step (r : Reader) (t : Token) : Option Reader :=
  match r.operand, t with
  | none, .op .sub => some ⟨.neg :: r.opened, none⟩
  | none, .openParen => some ⟨.group :: r.opened, none⟩
  | none, .closeParen =>
    match r.opened with
    | .type s :: fs => some ⟨.cast s :: fs, none⟩
    | _ => none
  | none, .word w =>
    match r.opened, integerNamed? w with
    | .group :: fs, some s => some ⟨.type s :: fs, none⟩
    | fs, _ => (literalNamed? w.toList).map (settle fs)
  | some e, .op .sub =>
    let (fs, e) := settleSub r.opened e
    some ⟨.sub e :: fs, none⟩
  | some e, .closeParen =>
    match settleSub r.opened e with
    | (.group :: fs, e) => some (settle fs e)
    | _ => none
  | _, _ => none

/-- the constant, if nothing else is open -/
def Reader.result? (r : Reader) : Option Constant := do
  match settleSub r.opened (← r.operand) with
  | ([], e) => some e
  | _ => none

/-- read a text -/
def read? (s : String) : Option Constant := do
  let r ← (← lex [] s.toList).foldlM step {}
  r.result?

/-! ## Digits -/

theorem digit?_digitChar {d : ℕ} (h : d < 16) : digit? (Nat.digitChar d) = some d := by
  interval_cases d <;> rfl

theorem digitsFrom?_append {b n m : ℕ} {cs ds : List Char} (h : digitsFrom? b n cs = some m) :
    digitsFrom? b n (cs ++ ds) = digitsFrom? b m ds := by
  induction cs generalizing n with
  | nil =>
    cases h
    rfl
  | cons c cs ih =>
    obtain ⟨d, hd, hcs⟩ := Option.bind_eq_some_iff.1 h
    rw [List.cons_append, digitsFrom?, hd, Option.bind_eq_bind, Option.bind_some]
    split_ifs at hcs ⊢ with hb
    exact ih hcs

section

variable {b : ℕ} (hb : 1 < b) (hb' : b ≤ 16)
include hb hb'

/-- the digits of a number to a base are read as the number -/
theorem digitsFrom?_toDigits (n : ℕ) : digitsFrom? b 0 (Nat.toDigits b n) = some n := by
  have hdigit {d m : ℕ} (hd : d < b) : digitsFrom? b m [Nat.digitChar d] = some (b * m + d) := by
    rw [digitsFrom?, digit?_digitChar (by omega), Option.bind_eq_bind, Option.bind_some, if_pos hd, digitsFrom?]
  induction n using Nat.strongRecOn with
  | ind n ih =>
    by_cases hn : n < b
    · rw [Nat.toDigits_of_lt_base hn, hdigit hn, Nat.mul_zero, Nat.zero_add]
    · have hle : b ≤ n := Nat.le_of_not_lt hn
      rw [Nat.toDigits_of_base_le hb hle, digitsFrom?_append (ih _ (Nat.div_lt_self (by omega) hb)),
        hdigit (Nat.mod_lt n (by omega)), Nat.div_add_mod]

theorem digits?_toDigits (n : ℕ) : digits? b (Nat.toDigits b n) = some n := by
  rw [digits?, if_neg Nat.toDigits_ne_nil, digitsFrom?_toDigits hb hb']

omit hb' in
theorem mem_toDigits {n : ℕ} {c : Char} (hc : c ∈ Nat.toDigits b n) : ∃ d < b, c = Nat.digitChar d := by
  induction n using Nat.strongRecOn with
  | ind n ih =>
    by_cases hn : n < b
    · rw [Nat.toDigits_of_lt_base hn] at hc
      exact ⟨n, hn, List.mem_singleton.1 hc⟩
    · rw [Nat.toDigits_of_base_le hb (Nat.le_of_not_lt hn)] at hc
      rcases List.mem_append.1 hc with hc | hc
      · exact ih _ (Nat.div_lt_self (by omega) hb) hc
      · exact ⟨n % b, Nat.mod_lt n (by omega), List.mem_singleton.1 hc⟩

/-- a digit continues a word, is no suffix and begins no operator -/
theorem digit_spec {n : ℕ} {c : Char} (hc : c ∈ Nat.toDigits b n) :
    isWordChar c = true ∧ c ≠ 'u' ∧ c ≠ 'x' ∧ c ≠ '-' ∧ c ≠ '=' ∧ c ≠ '>' := by
  obtain ⟨d, hd, rfl⟩ := mem_toDigits hb hc
  have hd : d < 16 := by omega
  interval_cases d <;> decide

end

/-- a number other than 0 does not begin with a zero -/
theorem head?_toDigits {n : ℕ} (hn : 0 < n) : (Nat.toDigits 10 n).head? ≠ some '0' := by
  induction n using Nat.strongRecOn with
  | ind n ih =>
    by_cases hlt : n < 10
    · rw [Nat.toDigits_of_lt_base hlt]
      interval_cases n <;> decide
    · have hdiv : 0 < n / 10 := by omega
      obtain ⟨c, cs, hcs⟩ := List.exists_cons_of_ne_nil (Nat.toDigits_ne_nil (n := n / 10) (b := 10))
      have hhead := ih (n / 10) (by omega) hdiv
      rw [hcs] at hhead
      rw [Nat.toDigits_of_base_le (by decide) (by omega), hcs]
      exact hhead

theorem unsuffixed?_toDigits (n : ℕ) (u : Bool) : unsuffixed? u (Nat.toDigits 10 n) = some (literal n false u) := by
  have hzero {c : Char} {cs : List Char} (h : Nat.toDigits 10 n = '0' :: c :: cs) : False := by
    rcases Nat.eq_zero_or_pos n with rfl | hn
    · cases h
    · exact head?_toDigits hn (by rw [h]; rfl)
  unfold unsuffixed?
  split
  case h_1 ds h => exact (hzero h).elim
  case h_2 c ds h => exact (hzero h).elim
  case h_3 => rw [digits?_toDigits (by decide) (by decide), Option.map_some]

/-- the last of some digits is no suffix -/
theorem getLast?_toDigits {b : ℕ} (hb : 1 < b) (hb' : b ≤ 16) (n : ℕ) : (Nat.toDigits b n).getLast? ≠ some 'u' := by
  intro h
  exact (digit_spec hb hb' (List.mem_of_getLast? h)).2.1 rfl

theorem literalNamed?_decimal (n : ℕ) : literalNamed? (Nat.toDigits 10 n) = some (literal n false false) := by
  rw [literalNamed?, if_neg (getLast?_toDigits (by decide) (by decide) n), unsuffixed?_toDigits]

theorem literalNamed?_suffixed (n : ℕ) : literalNamed? (Nat.toDigits 10 n ++ ['u']) = some (literal n false true) := by
  rw [literalNamed?, if_pos (List.getLast?_concat ..), List.dropLast_concat, unsuffixed?_toDigits]

theorem literalNamed?_hex (n : ℕ) : literalNamed? ('0' :: 'x' :: Nat.toDigits 16 n) = some (literal n true false) := by
  have hlast : ('0' :: 'x' :: Nat.toDigits 16 n).getLast? = (Nat.toDigits 16 n).getLast? := by
    obtain ⟨c, cs, hcs⟩ := List.exists_cons_of_ne_nil (Nat.toDigits_ne_nil (n := n) (b := 16))
    rw [hcs, List.getLast?_cons_cons, List.getLast?_cons_cons]
  rw [literalNamed?, hlast, if_neg (getLast?_toDigits (by decide) (by decide) n), unsuffixed?,
    digits?_toDigits (by decide) (by decide), Option.map_some]

/-! ## Tokens -/

theorem lex_word {w : List Char} (hw : ∀ c ∈ w, isWordChar c = true) (v rest : List Char) :
    lex v (w ++ rest) = lex (v ++ w) rest := by
  induction w generalizing v with
  | nil => rw [List.append_nil, List.nil_append]
  | cons c w ih =>
    have hc := hw c (List.mem_cons_self ..)
    rw [List.cons_append, lex, if_pos hc, ih (fun d hd => hw d (List.mem_cons_of_mem c hd)), List.append_assoc]
    rfl

/-- a word that the text ends with -/
theorem lex_last {w : List Char} (hw : ∀ c ∈ w, isWordChar c = true) (hne : w ≠ []) :
    lex [] w = some [.word (String.ofList w)] := by
  have h := lex_word hw [] []
  rw [List.append_nil, List.nil_append] at h
  rw [h, lex, ended, if_neg hne]

theorem lex_mark {c : Char} {t : Token} {rest : List Char} (hc : isWordChar c = false) (hspace : c ≠ ' ')
    (ht : mark? c rest.head? = some t) (w : List Char) :
    lex w (c :: rest) = (lex [] rest).map (ended w ++ t :: ·) := by
  rw [lex, if_neg (by simp [hc]), if_neg hspace, ht]
  cases lex [] rest <;> rfl

/-- the tokens of a number with its sign -/
def signedTokens (v : Int) : List Token :=
  let digits : Token := .word (String.ofList (Nat.toDigits 10 v.natAbs))
  if v < 0 then [.op .sub, digits] else [digits]

theorem lex_decimal (n : ℕ) : lex [] (Nat.toDigits 10 n) = some [.word (String.ofList (Nat.toDigits 10 n))] :=
  lex_last (fun _ hc => (digit_spec (by decide) (by decide) hc).1) Nat.toDigits_ne_nil

theorem lex_toString (v : Int) : lex [] (toString v).toList = some (signedTokens v) := by
  cases v with
  | ofNat n =>
    have hn : ¬(Int.ofNat n < 0) := not_lt.2 (Int.natCast_nonneg n)
    simp only [signedTokens, hn, if_false]
    exact (congrArg (lex []) String.toList_ofList).trans (lex_decimal n)
  | negSucc n =>
    have hn : Int.negSucc n < 0 := Int.negSucc_lt_zero n
    have htext : (toString (Int.negSucc n)).toList = '-' :: Nat.toDigits 10 (n + 1) := by
      rw [Int.toString_eq_repr]
      change ("-" ++ Nat.repr (n + 1)).toList = _
      rw [String.toList_append]
      exact congrArg (['-'] ++ ·) String.toList_ofList
    have hnext : mark? '-' (Nat.toDigits 10 (n + 1)).head? = some (.op .sub) := by
      rw [mark?, if_neg]
      rintro (h | h | h)
      all_goals
        have hspec := digit_spec (b := 10) (by decide) (by decide) (List.mem_of_mem_head? h)
        exact absurd rfl (by first | exact hspec.2.2.2.1 | exact hspec.2.2.2.2.1 | exact hspec.2.2.2.2.2)
    rw [htext, lex_mark rfl (by decide) hnext, lex_decimal]
    simp only [signedTokens, hn, if_true]
    rfl

/-- a type in parentheses in front of a text -/
theorem lex_cast (s : Scalar) (rest : List Char) :
    lex [] ('(' :: (s.cText.toList ++ ')' :: rest)) =
      (lex [] rest).map ([.openParen, .word s.cText, .closeParen] ++ ·) := by
  have hword : ∀ c ∈ s.cText.toList, isWordChar c = true := by
    apply List.all_eq_true.1
    cases s <;> rfl
  have hended : ended s.cText.toList = [.word s.cText] := by
    rw [ended, if_neg (by cases s <;> decide), String.ofList_toList]
  rw [lex_mark (t := .openParen) rfl (by decide) rfl, lex_word hword, List.nil_append,
    lex_mark (t := .closeParen) rfl (by decide) rfl, hended, Option.map_map]
  rfl

/-! ## The constants that texts spell -/

/-- a number with its sign -/
def signed (v : Int) : Constant :=
  if v < 0 then .neg (.literal v.natAbs false false) else .literal v.natAbs false false

/-- how an integer of a type is written -/
def spelled (v : Int) (s : Scalar) : Constant :=
  match s with
  | .i32 => if v = -(2 ^ 31) then .sub (signed (v + 1)) (signed 1) else signed v
  | .u32 => .literal (Scalar.u32.wrap v).toNat false true
  | .i64 => if v = Word64.least then .sub (.cast .i64 (signed (v + 1))) (signed 1) else .cast .i64 (signed v)
  | .u64 => if v < 0 then .cast .u64 (.literal (Scalar.u64.wrap v).toNat true false) else .cast .u64 (signed v)
  | s => .cast s (signed v)

theorem step_literal {fs : List Pending} (hfs : ∀ gs, fs ≠ .group :: gs) {w : List Char} {e : Constant}
    (hw : literalNamed? w = some e) : step ⟨fs, none⟩ (.word (String.ofList w)) = some (settle fs e) := by
  unfold step
  dsimp only
  split
  case h_1 => exact absurd rfl (hfs _)
  case h_2 => rw [String.toList_ofList, hw, Option.map_some]

theorem step_sign (fs : List Pending) : step ⟨fs, none⟩ (.op .sub) = some ⟨.neg :: fs, none⟩ := rfl

theorem foldlM_signed {fs : List Pending} (hfs : ∀ gs, fs ≠ .group :: gs) (v : Int) :
    (signedTokens v).foldlM step ⟨fs, none⟩ = some (settle fs (signed v)) := by
  have hw := literalNamed?_decimal v.natAbs
  unfold signedTokens signed
  split_ifs with hv
  · rw [List.foldlM_cons, step_sign, Option.bind_eq_bind, Option.bind_some, List.foldlM_cons, step_literal (by simp) hw]
    rfl
  · rw [List.foldlM_cons, step_literal hfs hw]
    rfl

/-- a number with its sign, behind what is in front of it -/
theorem read?_signed (v : Int) : read? (toString v) = some (signed v) := by
  rw [read?, lex_toString, Option.bind_eq_bind, Option.bind_some, foldlM_signed (by simp)]
  rfl

theorem read?_cast {s : Scalar} (hs : s.isInteger = true) {text : String} {ts : List Token} {e : Constant}
    (hlex : lex [] text.toList = some ts) (hrun : ts.foldlM step ⟨[.cast s], none⟩ = some ⟨[], some e⟩) :
    read? ("(" ++ s.cText ++ ")" ++ text) = some e := by
  have htext : ("(" ++ s.cText ++ ")" ++ text).toList = '(' :: (s.cText.toList ++ ')' :: text.toList) := by
    simp only [String.toList_append, List.append_assoc]
    rfl
  have hcast : [.openParen, .word s.cText, .closeParen].foldlM step {} = some ⟨[.cast s], none⟩ := by
    cases s <;> first | rfl | exact absurd hs (by decide)
  simp only [read?, htext, lex_cast, hlex, Option.map_some, Option.bind_eq_bind, Option.bind_some, List.foldlM_append, hcast,
    hrun]
  rfl

theorem read?_castSigned {s : Scalar} (hs : s.isInteger = true) (v : Int) :
    read? ("(" ++ s.cText ++ ")" ++ toString v) = some (.cast s (signed v)) := by
  apply read?_cast hs (lex_toString v)
  rw [foldlM_signed (by simp)]
  rfl

theorem read?_suffixed (n : ℕ) : read? (toString n ++ "u") = some (.literal n false true) := by
  have hword : ∀ c ∈ Nat.toDigits 10 n ++ ['u'], isWordChar c = true := by
    intro c hc
    rcases List.mem_append.1 hc with hc | hc
    · exact (digit_spec (by decide) (by decide) hc).1
    · rw [List.mem_singleton.1 hc]
      rfl
  have htext : (toString n ++ "u").toList = Nat.toDigits 10 n ++ ['u'] := by
    rw [String.toList_append]
    exact congrArg (· ++ ['u']) String.toList_ofList
  rw [read?, htext, lex_last hword (by simp), Option.bind_eq_bind, Option.bind_some, List.foldlM_cons,
    step_literal (by simp) (literalNamed?_suffixed n)]
  rfl

theorem read?_castHex {s : Scalar} (hs : s.isInteger = true) (n : ℕ) :
    read? ("(" ++ s.cText ++ ")" ++ hexText n) = some (.cast s (.literal n true false)) := by
  have hword : ∀ c ∈ '0' :: 'x' :: Nat.toDigits 16 n, isWordChar c = true := by
    intro c hc
    rcases List.mem_cons.1 hc with rfl | hc
    · rfl
    rcases List.mem_cons.1 hc with rfl | hc
    · rfl
    exact (digit_spec (by decide) (by decide) hc).1
  have htext : (hexText n).toList = '0' :: 'x' :: Nat.toDigits 16 n := by
    rw [hexText, String.toList_append]
    exact congrArg (['0', 'x'] ++ ·) String.toList_ofList
  have hlex : lex [] (hexText n).toList = some [.word (String.ofList ('0' :: 'x' :: Nat.toDigits 16 n))] := by
    rw [htext, lex_last hword (by simp)]
  apply read?_cast hs hlex
  rw [List.foldlM_cons, step_literal (by simp) (literalNamed?_hex n)]
  rfl

/-- the text of an integer is read as the constant that spells it -/
theorem read_intText (v : Int) {s : Scalar} (hs : s.isInteger = true) :
    read? (intText v (.scalar s)) = some (spelled v s) := by
  cases s <;> unfold intText spelled <;> dsimp only [Ty.scalar?]
  case i32 =>
    split_ifs with hv
    · subst hv
      decide
    · exact read?_signed v
  case u32 =>
    have hnonneg : 0 ≤ Scalar.u32.wrap v := (Scalar.wrap_mem_range hs v).1
    have hread := read?_suffixed (Scalar.u32.wrap v).toNat
    change read? (toString ((Scalar.u32.wrap v).toNat : Int) ++ "u") = _ at hread
    rwa [Int.toNat_of_nonneg hnonneg] at hread
  case i64 =>
    split_ifs with hv
    · subst hv
      decide
    · exact read?_castSigned hs v
  case u64 =>
    split_ifs with hv
    · exact read?_castHex hs (Scalar.u64.wrap v).toNat
    · exact read?_castSigned hs v
  case i8 | i16 | u8 | u16 => exact read?_castSigned hs v
  all_goals exact absurd hs (by decide)

/-! ## The numbers of the constants -/

theorem result?_of_mem {s : Scalar} {n : Int} (hs : s.isInteger = true) (hn : n ∈ s.range) :
    result? s n = some ⟨n, s⟩ := by
  rw [result?, if_neg (fun h => h.2 (Scalar.wrap_of_mem hs hn)), Scalar.wrap_of_mem hs hn]

/-- the type of a decimal literal -/
def decimalType (n : ℕ) : Scalar :=
  if n < 2 ^ 31 then .i32 else .i64

theorem isInteger_decimalType (n : ℕ) : (decimalType n).isInteger = true := by
  unfold decimalType
  split_ifs <;> rfl

theorem promoted_decimalType (n : ℕ) : promoted (decimalType n) = decimalType n := by
  unfold decimalType
  split_ifs <;> rfl

theorem mem_range_decimalType {n : ℕ} (hn : n < 2 ^ 63) :
    (n : Int) ∈ (decimalType n).range ∧ -(n : Int) ∈ (decimalType n).range := by
  unfold decimalType
  split_ifs with hlt
  · change (-(2 ^ 31) ≤ (n : Int) ∧ (n : Int) < 2 ^ 31) ∧ (-(2 ^ 31) ≤ -(n : Int) ∧ -(n : Int) < 2 ^ 31)
    omega
  · change (-(2 ^ 63) ≤ (n : Int) ∧ (n : Int) < 2 ^ 63) ∧ (-(2 ^ 63) ≤ -(n : Int) ∧ -(n : Int) < 2 ^ 63)
    omega

theorem literal?_decimal {n : ℕ} (hn : n < 2 ^ 63) : literal? n false false = some ⟨n, decimalType n⟩ := by
  have hmem := (mem_range_decimalType hn).1
  have htype : literalType? n false = some (decimalType n) := by
    unfold decimalType at *
    split_ifs at * with hlt
    · exact List.find?_cons_of_pos (by simpa using Scalar.wrap_of_mem rfl hmem)
    · have hsmall : Scalar.i32.wrap n ≠ n := by
        rw [Ne, Scalar.wrap_eq_self_iff rfl]
        rintro ⟨-, hr⟩
        exact hlt (by exact_mod_cast hr)
      refine (List.find?_cons_of_neg (by simpa using hsmall)).trans ?_
      exact List.find?_cons_of_pos (by simpa using Scalar.wrap_of_mem rfl hmem)
  rw [literal?, if_neg Bool.false_ne_true, htype, Option.map_some]

theorem literal?_hex {n : ℕ} (hn : (n : Int) ∈ Scalar.u64.range) : ∃ t, literal? n true false = some ⟨n, t⟩ := by
  have htype : (literalType? n true).isSome := by
    rw [literalType?, List.find?_isSome]
    exact ⟨.u64, by decide, by simpa using Scalar.wrap_of_mem rfl hn⟩
  obtain ⟨t, ht⟩ := Option.isSome_iff_exists.1 htype
  exact ⟨t, by rw [literal?, if_neg Bool.false_ne_true, ht, Option.map_some]⟩

theorem number?_signed {v : Int} (hl : -(2 ^ 63) < v) (hr : v < 2 ^ 63) :
    (signed v).number? = some ⟨v, decimalType v.natAbs⟩ := by
  have hn : v.natAbs < 2 ^ 63 := by omega
  unfold signed
  split_ifs with hv
  · have hneg : v = -(v.natAbs : Int) := by omega
    rw [number?, number?, literal?_decimal hn, Option.bind_eq_bind, Option.bind_some, promoted_decimalType]
    dsimp only
    rw [result?_of_mem (isInteger_decimalType _) (mem_range_decimalType hn).2, ← hneg]
  · rw [number?, literal?_decimal hn, Int.natAbs_of_nonneg (by omega)]

theorem overflows_signed_iff {v : Int} (hv : Word64.fits v = true) : (signed v).Overflows ↔ v = Word64.least := by
  rw [Word64.fits_iff] at hv
  constructor
  · intro h
    by_contra hne
    have hl : -(2 ^ 63) < v := by
      unfold Word64.least at hne
      omega
    have hnumber := number?_signed hl (by omega)
    rw [number?_eq_none_of_overflows h] at hnumber
    cases hnumber
  · rintro rfl
    exact (rfl : literal? 9223372036854775808 false false = none)

/-- a word is its number, but for the least one, whose digits are too large without the sign -/
theorem number?_signed_word {v : Int} (hv : Word64.fits v = true) :
    (signed v).number? = if v = Word64.least then none else some ⟨v, decimalType v.natAbs⟩ := by
  split_ifs with hleast
  · exact number?_eq_none_of_overflows ((overflows_signed_iff hv).2 hleast)
  · rw [Word64.fits_iff] at hv
    unfold Word64.least at hleast
    exact number?_signed (by omega) (by omega)

theorem number?_castSigned {v : Int} (hv : Word64.fits v = true) (s : Scalar) :
    (cast s (signed v)).number? = if v = Word64.least then none else some ⟨s.wrap v, s⟩ := by
  rw [number?, number?_signed_word hv]
  split_ifs <;> rfl

theorem decimalType_eq_of_wrap {v : Int} (h : v ≠ -(2 ^ 31)) :
    decimalType v.natAbs = if Scalar.i32.wrap v = v then .i32 else .i64 := by
  have hmem : v ∈ Scalar.i32.range ↔ -(2 ^ 31) ≤ v ∧ v < 2 ^ 31 := Iff.rfl
  unfold decimalType
  simp only [Scalar.wrap_eq_self_iff (show Scalar.i32.isInteger = true from rfl), hmem]
  split_ifs <;> first | rfl | omega

theorem number?_spelled_int {v : Int} (hv : Word64.fits v = true) :
    (spelled v .i32).number? =
      if v = Word64.least then none else some ⟨v, if Scalar.i32.wrap v = v then .i32 else .i64⟩ := by
  by_cases hmin : v = -(2 ^ 31)
  · subst hmin
    decide
  · rw [spelled, if_neg hmin, number?_signed_word hv, decimalType_eq_of_wrap hmin]

theorem number?_spelled_unsigned (v : Int) : (spelled v .u32).number? = some ⟨Scalar.u32.wrap v, .u32⟩ := by
  obtain ⟨hl, -⟩ := Scalar.wrap_mem_range (s := .u32) rfl v
  rw [spelled, number?, literal?, if_pos rfl, Int.toNat_of_nonneg hl, Scalar.wrap_wrap]

theorem number?_spelled_long {v : Int} (hv : Word64.fits v = true) :
    (spelled v .i64).number? = some ⟨Scalar.i64.wrap v, .i64⟩ := by
  rw [spelled]
  split_ifs with hleast
  · subst hleast
    decide
  · rw [number?_castSigned hv, if_neg hleast]

theorem number?_spelled_unsignedLong {v : Int} (hv : Word64.fits v = true) :
    (spelled v .u64).number? = some ⟨Scalar.u64.wrap v, .u64⟩ := by
  rw [spelled]
  split_ifs with hneg
  · have hmem := Scalar.wrap_mem_range (s := .u64) rfl v
    have hnat : ((Scalar.u64.wrap v).toNat : Int) = Scalar.u64.wrap v := Int.toNat_of_nonneg hmem.1
    obtain ⟨t, ht⟩ := literal?_hex (hnat ▸ hmem)
    rw [number?, number?, ht, hnat, Option.bind_eq_bind, Option.bind_some, Scalar.wrap_wrap]
    rfl
  · have hleast : v ≠ Word64.least := by
      unfold Word64.least
      omega
    rw [number?_castSigned hv, if_neg hleast]

theorem spelled_small (v : Int) {s : Scalar} (hs : s.bits < 32) : spelled v s = cast s (signed v) := by
  cases s <;> first | rfl | exact absurd hs (by decide)

/-- the number that the text of an integer is read as -/
theorem number?_spelled {v : Int} (hv : Word64.fits v = true) {s : Scalar} (hs : s.isInteger = true) :
    (spelled v s).number? =
      if v = Word64.least ∧ (s.bits < 32 ∨ s = .i32) then none
      else if s = .i32 ∧ s.wrap v ≠ v then some ⟨v, .i64⟩
      else some ⟨s.wrap v, s⟩ := by
  cases s
  case i32 =>
    rw [number?_spelled_int hv]
    by_cases hwrap : Scalar.i32.wrap v = v <;> simp [hwrap]
  case u32 => simpa [Scalar.bits, Scalar.bytes] using number?_spelled_unsigned v
  case i64 => simpa [Scalar.bits, Scalar.bytes] using number?_spelled_long hv
  case u64 => simpa [Scalar.bits, Scalar.bytes] using number?_spelled_unsignedLong hv
  case i8 | i16 | u8 | u16 =>
    rw [spelled_small v (by decide), number?_castSigned hv]
    simp [Scalar.bits, Scalar.bytes]
  all_goals exact absurd hs (by decide)

/-- a text has no number only where a literal in it is too large -/
theorem overflows_spelled_iff {v : Int} (hv : Word64.fits v = true) {s : Scalar} (hs : s.isInteger = true) :
    (spelled v s).Overflows ↔ v = Word64.least ∧ (s.bits < 32 ∨ s = .i32) := by
  constructor
  · intro h
    have hnone := number?_eq_none_of_overflows h
    rw [number?_spelled hv hs] at hnone
    split_ifs at hnone with hleast
    exact hleast
  · rintro ⟨rfl, hsmall | rfl⟩
    · rw [spelled_small _ hsmall]
      exact (overflows_signed_iff hv).2 rfl
    · exact (overflows_signed_iff hv).2 rfl

/-- The text of an integer is read as the number that the integer is, in its own type, unless it is an `int` out of range,
which is written without a cast and read as a `long`, or the least word in a type other than the largest ones, whose digits
are too large for every type. -/
theorem intText_number {v : Int} (hv : Word64.fits v = true) {s : Scalar} (hs : s.isInteger = true) :
    ∃ e, read? (intText v (.scalar s)) = some e ∧
      (e.Overflows ↔ v = Word64.least ∧ (s.bits < 32 ∨ s = .i32)) ∧
      e.number? =
        (if v = Word64.least ∧ (s.bits < 32 ∨ s = .i32) then none
        else if s = .i32 ∧ s.wrap v ≠ v then some ⟨v, .i64⟩
        else some ⟨s.wrap v, s⟩) ∧
      ((∃ a, e.number? = some a ∧ Value.ofInt v s = .int a.value s) ↔
        (s = .i32 → s.wrap v = v) ∧ (s.bits < 32 → v ≠ Word64.least)) := by
  refine ⟨spelled v s, read_intText v hs, overflows_spelled_iff hv hs, number?_spelled hv hs, ?_⟩
  have hleast : Scalar.i32.wrap Word64.least ≠ Word64.least := by
    decide
  rw [number?_spelled hv hs, Value.ofInt_of_isInteger v hs]
  split_ifs with hover hlong
  · obtain ⟨rfl, hsmall | rfl⟩ := hover
    · exact ⟨fun ⟨_, ha, _⟩ => ha.elim, fun h => absurd rfl (h.2 hsmall)⟩
    · exact ⟨fun ⟨_, ha, _⟩ => ha.elim, fun h => absurd (h.1 rfl) hleast⟩
  · obtain ⟨rfl, hwrap⟩ := hlong
    refine ⟨?_, fun h => absurd (h.1 rfl) hwrap⟩
    rintro ⟨a, ha, hvalue⟩
    cases ha
    exact absurd (Value.int.inj hvalue).1 hwrap
  · refine ⟨fun _ => ⟨fun h => ?_, fun h hv => hover ⟨hv, .inl h⟩⟩, fun _ => ⟨_, rfl, rfl⟩⟩
    by_contra hwrap
    exact hlong ⟨h, hwrap⟩

/-- the least signed byte is read as what it is -/
theorem intText_number_byte :
    Word64.fits (-128) = true ∧
      ∃ e, read? "(int8_t)-128" = some e ∧ ∃ a, e.number? = some a ∧ Value.ofInt (-128) .i8 = .int a.value .i8 := by
  obtain ⟨e, hread, -, -, hnumber⟩ := intText_number (v := -128) (s := .i8) (by decide) rfl
  exact ⟨by decide, e, hread, hnumber.2 ⟨fun h => (nomatch h), fun _ => by decide⟩⟩

/-- Folding the negation of the least `int` makes a literal that is printed as it is: it is read as a `long` with another
number than the literal stands for. The least word printed as a signed byte has a literal that is too large. -/
theorem folded_literal_misread :
    (GpuHistogram.Expr.unary .neg (.literal (-(2 ^ 31)) .i32) (.scalar .i32) .unknown).fold = .literal (2 ^ 31) .i32 ∧
    (read? (intText (2 ^ 31) (.scalar .i32)) = some (.literal (2 ^ 31) false false) ∧
      (literal (2 ^ 31) false false).number? = some ⟨2 ^ 31, .i64⟩ ∧
      Value.ofInt (2 ^ 31) .i32 = .int (-(2 ^ 31)) .i32) ∧
    read? (intText Word64.least (.scalar .i8)) = some (.cast .i8 (.neg (.literal (2 ^ 63) false false))) ∧
      (cast .i8 (.neg (.literal (2 ^ 63) false false))).Overflows := by
  refine ⟨by decide, ⟨by decide, by decide, by decide⟩, by decide, ?_⟩
  exact (rfl : literal? 9223372036854775808 false false = none)

end Constant

end GpuHistogram.Source
