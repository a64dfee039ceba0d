/-
What a dump of kernel code tells about an expression. The text of an expression is a row of operands with infix operators
in blanks between them. An operand is a name, or an opener and expressions, each with what closes it. Where
variables have distinct identifiers, the characters tell which opener stands there (`Opener.read_text`), so by induction
the row is read off the text, and expressions of one text have alike parts (`chars_unique`).

The text does not tell more: operators that bind equally are printed without parentheses on either side, so
`a - (b - c)` and `(a - b) - c` have one text (`print_hides_grouping`). `print_eq_iff_alike` says that this is all that is
lost: expressions have one text exactly if they are alike.
-/
import GpuHistogram.Code.Print
import GpuHistogram.Code.Build
import GpuHistogram.Proofs.Regrouping
import GpuHistogram.Proofs.Spelling

namespace GpuHistogram

open Source (isIdentifier isWordStart isWordChar Apart Identifies)

namespace Expr

variable {ids : Identifiers} {W : Set Name}

def isVariable : Expr → Bool
  | var .. => true
  | _ => false

/-- expressions of variables, operators, conditionals, elements of named arrays, and casts to scalar types -/
def Legible (W : Set Name) : Expr → Prop
  | var n _ _ => n ∈ W
  | unary _ e _ _ => e.Legible W
  | binary _ l r _ _ => l.Legible W ∧ r.Legible W
  | select c t e _ _ => c.Legible W ∧ t.Legible W ∧ e.Legible W
  | access t i _ _ => t.isVariable = true ∧ t.Legible W ∧ i.Legible W
  | convert e ty | bitCast e ty => (∃ s, ty = .scalar s) ∧ e.Legible W
  | bool .. | int .. | float .. | place .. | size .. | capability .. => False

/-- whether the expression is an infix operator -/
def isInfix : Expr → Bool
  | binary op _ _ _ _ => op.isInfix
  | _ => false

/-- whether the expression is an infix operator of less than the given strength -/
def isLooser (k : ℕ) : Expr → Bool
  | binary op _ _ _ _ => op.isInfix && op.strength < k
  | _ => false

/-- characters in parentheses, if they need some -/
def enclose (b : Bool) (cs : List Char) : List Char :=
  if b then '(' :: (cs ++ [')']) else cs

/-- the identifier of a name -/
def identifier (ids : Identifiers) (n : Name) : String :=
  (ids.chosen.get? n).getD ""

/-- the characters of the text of an expression -/
def chars (ids : Identifiers) : Expr → List Char
  | var n _ _ => (identifier ids n).toList
  | unary op e _ _ => op.symbol.toList ++ enclose (op.isFunction || !e.isLeaf) (e.chars ids)
  | binary op l r _ _ =>
    if op.isInfix then
      enclose (l.isLooser op.strength) (l.chars ids) ++
        ' ' :: (op.symbol.toList ++ ' ' :: enclose (r.isLooser op.strength) (r.chars ids))
    else op.symbol.toList ++ '(' :: (l.chars ids ++ ',' :: ' ' :: (r.chars ids ++ [')']))
  | select c t e _ _ =>
    ['(', 'i', 'f', ' '] ++ (c.chars ids ++ ([' ', 't', 'h', 'e', 'n', ' '] ++ (t.chars ids ++
      ([' ', 'e', 'l', 's', 'e', ' '] ++ (e.chars ids ++ [')'])))))
  | access t i _ _ => t.chars ids ++ '[' :: (i.chars ids ++ [']'])
  | convert e ty => '(' :: (ty.text.toList ++ ')' :: '(' :: (e.chars ids ++ [')']))
  | bitCast e ty => ['b', 'i', 't', 'c', 'a', 's', 't', '<'] ++ (ty.text.toList ++ '>' :: '(' :: (e.chars ids ++ [')']))
  | bool .. | int .. | float .. | place .. | size .. | capability .. => []

theorem parenthesize_eq (op : Binary) (e : Expr) (s : String) :
    (e.parenthesize op s).toList = enclose (e.isLooser op.strength) s.toList := by
  cases e with
  | binary op' l r ty o =>
    have hlt : Binary.precedence op' op = .lt ↔ op'.strength < op.strength := Nat.compare_eq_lt
    simp only [parenthesize, isLooser, hlt]
    split <;> simp_all [enclose, toString]
  | _ => rfl

/-- printing names that have identifiers changes nothing -/
theorem print_chars (hW : Identifies ids W) {e : Expr} (he : e.Legible W) :
    e.print ids = (String.ofList (e.chars ids), ids) := by
  have htext {s : String} {cs : List Char} (h : s.toList = cs) :
      (pure s : Printer String) ids = (String.ofList cs, ids) := by
    rw [← h, String.ofList_toList]
    rfl
  induction e with
  | var n ty o =>
    obtain ⟨s, hs, -⟩ := hW.identifier n he
    have hname : Printer.name n ids = (s, ids) := Identifiers.choose_of_chosen hs
    rw [print, hname]
    exact htext (by simp [chars, identifier, hs])
  | unary op e ty o ih =>
    rw [print, Source.bind_run (ih he)]
    split
    · next h => exact htext (by simp [chars, enclose, h, toString])
    · next h => exact htext (by simp [chars, enclose, h])
  | binary op l r ty o ihl ihr =>
    rw [print, Source.bind_run (ihl he.1), Source.bind_run (ihr he.2)]
    split
    · next h => exact htext (by simp [chars, h, toString, parenthesize_eq])
    · next h => exact htext (by simp [chars, h, toString])
  | select c t e ty o ihc iht ihe =>
    rw [print, Source.bind_run (ihc he.1), Source.bind_run (iht he.2.1), Source.bind_run (ihe he.2.2)]
    exact htext (by simp [chars, toString])
  | access t i ty o iht ihi =>
    rw [print, Source.bind_run (iht he.2.1), Source.bind_run (ihi he.2.2)]
    exact htext (by simp [chars, toString])
  | convert e ty ih =>
    rw [print, Source.bind_run (ih he.2)]
    exact htext (by simp [chars, toString])
  | bitCast e ty ih =>
    rw [print, Source.bind_run (ih he.2)]
    exact htext (by simp [chars, toString])
  | _ => exact he.elim

/-! ## Rows of operands -/

/-- an operand of an infix operator, or of none -/
def operandChars (ids : Identifiers) (e : Expr) : List Char :=
  enclose e.isInfix (e.chars ids)

/-- infix operators and the operands behind them -/
def rowRest (ids : Identifiers) : List (Binary × Expr) → List Char
  | [] => []
  | (op, e) :: rest => ' ' :: (op.symbol.toList ++ ' ' :: (e.operandChars ids ++ rowRest ids rest))

theorem rowRest_append (xs ys : List (Binary × Expr)) : rowRest ids (xs ++ ys) = rowRest ids xs ++ rowRest ids ys := by
  induction xs with
  | nil => rfl
  | cons x xs ih => simp [rowRest, ih]

/-- an expression is printed as the row of its parts -/
theorem enclose_chars (e : Expr) (k : ℕ) :
    enclose (e.isLooser k) (e.chars ids) = (e.parts k).1.operandChars ids ++ rowRest ids (e.parts k).2 := by
  induction e generalizing k with
  | binary op l r ty o ihl ihr =>
    by_cases h : op.isInfix = true ∧ k ≤ op.strength
    · have hloose : (binary op l r ty o).isLooser k = false := by simp [isLooser, h.2]
      rw [hloose, parts_binary h.1 h.2, rowRest_append, rowRest, chars, if_pos h.1, ihl, ihr]
      simp [enclose]
    · have hloose : (binary op l r ty o).isLooser k = (binary op l r ty o).isInfix := by
        cases hop : op.isInfix <;> simp_all [isLooser, isInfix]
      rw [hloose, parts, if_neg h, rowRest, List.append_nil, operandChars]
  | _ => simp [parts, rowRest, operandChars, isInfix, isLooser]

theorem chars_eq_row (e : Expr) : e.chars ids = (e.parts 0).1.operandChars ids ++ rowRest ids (e.parts 0).2 := by
  have hloose : e.isLooser 0 = false := by cases e <;> simp [isLooser]
  rw [← enclose_chars, hloose]
  rfl

/-! ## Operands -/

/-- what an operand begins with, up to the first expression in it; names are given by their identifiers -/
inductive Opener where
  | name (w : String)
  | signed (op : Unary) (w : String)
  | indexed (w : String)
  | function (op : Unary)
  | extremum (op : Binary)
  | cast (s : Scalar)
  | bits (s : Scalar)
  | conditional
  | group
  deriving DecidableEq

namespace Opener

/-- the characters of an opener -/
def text : Opener → List Char
  | name w => w.toList
  | signed op w => op.symbol.toList ++ w.toList
  | indexed w => w.toList ++ ['[']
  | function op => op.symbol.toList ++ ['(']
  | extremum op => op.symbol.toList ++ ['(']
  | cast s => '(' :: (s.text.toList ++ [')', '('])
  | bits s => ['b', 'i', 't', 'c', 'a', 's', 't', '<'] ++ (s.text.toList ++ ['>', '('])
  | conditional => ['(', 'i', 'f', ' ']
  | group => ['(']

/-- what stands behind each expression in an operand -/
def closings : Opener → List (List Char)
  | name _ | signed .. => []
  | indexed _ => [[']']]
  | function _ | cast _ | bits _ | group => [[')']]
  | extremum _ => [[',', ' '], [')']]
  | conditional => [[' ', 't', 'h', 'e', 'n', ' '], [' ', 'e', 'l', 's', 'e', ' '], [')']]

end Opener

/-- expressions, each with what stands behind it -/
def closedChars (ids : Identifiers) : List Expr → List (List Char) → List Char
  | e :: es, c :: cs => e.chars ids ++ (c ++ closedChars ids es cs)
  | _, _ => []

/-- an operand is an opener and expressions -/
inductive Operand (ids : Identifiers) : Expr → Opener → List Expr → Prop
  | name {n : Name} {ty : Ty} {o : Origin} : Operand ids (.var n ty o) (.name (identifier ids n)) []
  | signed {op : Unary} (hop : op.isFunction = false) {n : Name} {ty ty' : Ty} {o o' : Origin} :
    Operand ids (.unary op (.var n ty o) ty' o') (.signed op (identifier ids n)) []
  | indexed {n : Name} {i : Expr} {ty ty' : Ty} {o o' : Origin} :
    Operand ids (.access (.var n ty o) i ty' o') (.indexed (identifier ids n)) [i]
  | function {op : Unary} {e : Expr} (h : (op.isFunction || !e.isLeaf) = true) {ty : Ty} {o : Origin} :
    Operand ids (.unary op e ty o) (.function op) [e]
  | extremum {op : Binary} (hop : op.isInfix = false) {l r : Expr} {ty : Ty} {o : Origin} :
    Operand ids (.binary op l r ty o) (.extremum op) [l, r]
  | cast {e : Expr} {s : Scalar} : Operand ids (.convert e (.scalar s)) (.cast s) [e]
  | bits {e : Expr} {s : Scalar} : Operand ids (.bitCast e (.scalar s)) (.bits s) [e]
  | conditional {c t e : Expr} {ty : Ty} {o : Origin} : Operand ids (.select c t e ty o) .conditional [c, t, e]
  | group {e : Expr} (h : e.isInfix = true) : Operand ids e .group [e]

theorem Operand.chars {e : Expr} {x : Opener} {es : List Expr} (h : Operand ids e x es) :
    e.operandChars ids = x.text ++ closedChars ids es x.closings := by
  unfold operandChars
  cases h with
  | signed hop => simp [isInfix, enclose, Expr.chars, Opener.text, closedChars, hop, isLeaf]
  | function h => simp [isInfix, enclose, Expr.chars, Opener.text, closedChars, Opener.closings, h]
  | extremum hop => simp [isInfix, enclose, Expr.chars, Opener.text, closedChars, Opener.closings, hop]
  | group h => simp [enclose, Opener.text, closedChars, Opener.closings, h]
  | cast | bits => simp [isInfix, enclose, Expr.chars, Opener.text, closedChars, Opener.closings, Ty.text]
  | _ => simp [isInfix, enclose, Expr.chars, Opener.text, closedChars, Opener.closings]

/-- every operand has an opener, and what it encloses is smaller unless it is the operand itself in parentheses -/
theorem exists_operand (ids : Identifiers) {e : Expr} (he : e.Legible W) : ∃ x es, Operand ids e x es ∧
    (∀ y ∈ es, y.Legible W) ∧ ∀ y ∈ es, sizeOf y ≤ sizeOf e ∧ (e.isInfix = false → sizeOf y < sizeOf e) := by
  cases e with
  | var n ty o => exact ⟨_, _, .name, by simp, by simp⟩
  | unary op e ty o =>
    by_cases h : (op.isFunction || !e.isLeaf) = true
    · exact ⟨_, _, .function h, by simpa [Legible] using he, by simp; omega⟩
    · simp only [Bool.or_eq_true, Bool.not_eq_true', not_or, Bool.not_eq_true, Bool.not_eq_false] at h
      cases e <;> first | exact he.elim | (cases h.2; done) | skip
      exact ⟨_, _, .signed h.1, by simp, by simp⟩
  | binary op l r ty o =>
    cases hop : op.isInfix with
    | true => exact ⟨_, _, .group hop, by simpa using he, by simp [isInfix, hop]⟩
    | false => exact ⟨_, _, .extremum hop, by simpa [Legible] using he, by simp; omega⟩
  | select c t e ty o => exact ⟨_, _, .conditional, by simpa [Legible] using he, by simp; omega⟩
  | access t i ty o =>
    cases t <;> first | (cases he.1; done) | skip
    exact ⟨_, _, .indexed, by simpa using he.2.2, by simp; omega⟩
  | convert e ty =>
    obtain ⟨⟨s, rfl⟩, he⟩ := he
    exact ⟨_, _, .cast, by simpa using he, by simp; omega⟩
  | bitCast e ty =>
    obtain ⟨⟨s, rfl⟩, he⟩ := he
    exact ⟨_, _, .bits, by simpa using he, by simp; omega⟩
  | _ => exact he.elim

theorem identifier_injOn (hW : Identifies ids W) {m n : Name} (hm : m ∈ W) (hn : n ∈ W)
    (h : identifier ids m = identifier ids n) : m = n := by
  obtain ⟨s, hs, -⟩ := hW.identifier m hm
  obtain ⟨t, ht, -⟩ := hW.identifier n hn
  have hst : s = t := by simpa [identifier, hs, ht] using h
  exact hW.distinct m hm n hn (by rw [hs, ht, hst])

/-- operands with one opener around alike expressions are alike -/
theorem Operand.alike (hW : Identifies ids W) {e e' : Expr} (he : e.Legible W) (he' : e'.Legible W) {x : Opener}
    {es es' : List Expr} (h : Operand ids e x es) (h' : Operand ids e' x es') (hes : List.Forall₂ Alike es es') :
    Alike e e' := by
  generalize hx : x = x' at h'
  cases h with
  | name =>
    cases h' with
    | name =>
      obtain rfl := identifier_injOn hW he he' (Opener.name.inj hx)
      exact .var
    | _ => cases hx
  | signed =>
    cases h' with
    | signed =>
      obtain ⟨rfl, hw⟩ := Opener.signed.inj hx
      obtain rfl := identifier_injOn hW he he' hw
      exact .unary .var
    | _ => cases hx
  | indexed =>
    cases h' with
    | indexed =>
      obtain rfl := identifier_injOn hW he.2.1 he'.2.1 (Opener.indexed.inj hx)
      exact .access .var (by simpa using hes)
    | _ => cases hx
  | function =>
    cases h' with
    | function =>
      cases hx
      exact .unary (by simpa using hes)
    | _ => cases hx
  | extremum =>
    cases h' with
    | extremum =>
      cases hx
      simp only [List.forall₂_cons, List.Forall₂.nil, and_true] at hes
      exact .binary hes.1 hes.2
    | _ => cases hx
  | cast =>
    cases h' with
    | cast =>
      cases hx
      exact .convert (by simpa using hes)
    | _ => cases hx
  | bits =>
    cases h' with
    | bits =>
      cases hx
      exact .bitCast (by simpa using hes)
    | _ => cases hx
  | conditional =>
    cases h' with
    | conditional =>
      simp only [List.forall₂_cons, List.Forall₂.nil, and_true] at hes
      exact .select hes.1 hes.2.1 hes.2.2
    | _ => cases hx
  | group =>
    cases h' with
    | group => simpa using hes
    | _ => cases hx

/-! ## Reading openers -/

/-- the word that a text begins with, and what is behind it -/
def splitWord (cs : List Char) : String × List Char :=
  (String.ofList (cs.takeWhile isWordChar), cs.dropWhile isWordChar)

/-- a text begins with an infix operator and a blank -/
def operatorAhead (cs : List Char) : Bool :=
  Binary.all.any fun op => op.isInfix && (op.symbol.toList ++ [' ']).isPrefixOf cs

/-- the operator that a sign in front of an operand is -/
def signed? : Char → Option Unary
  | '-' => some .neg
  | '!' => some .not
  | '~' => some .bitNeg
  | _ => none

/-- the function of a name -/
def called? (w : String) : Option Opener :=
  (Unary.all.map Opener.function ++ Binary.all.map Opener.extremum).find? fun x => x.text = w.toList ++ ['(']

/-- the element type of a text -/
def scalar? (w : String) : Option Scalar :=
  Scalar.all.find? fun s => s.text = w

namespace Opener

/-- the opener behind a parenthesis: a type, a conditional, or neither -/
def readParen (cs : List Char) : Option (Opener × List Char) :=
  match splitWord cs with
  | (w, ')' :: '(' :: rest) => (scalar? w).map (.cast ·, rest)
  | (w, ' ' :: rest) => if w = "if" ∧ operatorAhead rest = false then some (.conditional, rest) else some (.group, cs)
  | _ => some (.group, cs)

/-- the opener behind a sign: a parenthesis or a name -/
def readSigned (op : Unary) : String × List Char → Option (Opener × List Char)
  | (_, '(' :: rest) => some (.function op, rest)
  | (w, rest) => some (.signed op w, rest)

/-- the opener that begins with a word -/
def readWord : String × List Char → Option (Opener × List Char)
  | (w, '[' :: rest) => some (.indexed w, rest)
  | (w, '(' :: rest) => (called? w).map (·, rest)
  | (_, '<' :: rest) =>
    match splitWord rest with
    | (w, '>' :: '(' :: rest) => (scalar? w).map (.bits ·, rest)
    | _ => none
  | (w, rest) => some (.name w, rest)

/-- the opener that an operand begins with, and what is behind it -/
def read : List Char → Option (Opener × List Char)
  | [] => none
  | c :: cs =>
    if c = '(' then readParen cs
    else
      match signed? c with
      | some op => readSigned op (splitWord cs)
      | none => readWord (splitWord (c :: cs))

end Opener

/-- nothing behind a name goes on with it -/
def Follows (cs : List Char) : Prop :=
  ∀ c ∈ cs.head?, c ∈ [')', ']', ',', ' ']

namespace Opener

/-- the names of the opener are identifiers, and its operator is written like that -/
def Valid : Opener → Prop
  | name w | indexed w => isIdentifier w = true
  | signed op w => op.isFunction = false ∧ isIdentifier w = true
  | extremum op => op.isInfix = false
  | function _ | cast _ | bits _ | conditional | group => True

/-- a text that an opener can stand in front of -/
def Admits (cs : List Char) : Opener → Prop
  | name _ | signed .. => Follows cs
  | conditional => operatorAhead cs = false
  | group => ∀ w c rest, splitWord cs = (w, c :: rest) → c ≠ ')' ∧ (c = ' ' → operatorAhead rest = true)
  | indexed _ | extremum _ | function _ | cast _ | bits _ => True

end Opener

theorem Follows.apart {cs : List Char} (h : Follows cs) : Apart cs := fun c hc => by
  have hmem := h c hc
  simp only [List.mem_cons, List.not_mem_nil, or_false] at hmem
  rcases hmem with rfl | rfl | rfl | rfl <;> decide

theorem isWordChar_of_isWordStart {c : Char} (h : isWordStart c = true) : isWordChar c = true := by
  simp only [isWordStart, isWordChar, Char.isAlphanum, Bool.or_eq_true] at h ⊢
  exact h.imp_left .inl

/-- an identifier begins like a word and is one -/
theorem exists_cons_of_isIdentifier {w : String} (h : isIdentifier w = true) : ∃ c cs, w.toList = c :: cs ∧
    isWordStart c = true ∧ ∀ d ∈ w.toList, isWordChar d = true := by
  unfold isIdentifier at h
  split at h
  · cases h
  · next c cs hw =>
    obtain ⟨hc, hcs⟩ := Bool.and_eq_true_iff.1 h
    refine ⟨c, cs, hw, hc, ?_⟩
    rw [hw]
    exact List.forall_mem_cons.2 ⟨isWordChar_of_isWordStart hc, List.all_eq_true.1 hcs⟩

theorem splitWord_append {w : String} (h : isIdentifier w = true) {rest : List Char} (hr : Apart rest) :
    splitWord (w.toList ++ rest) = (w, rest) := by
  obtain ⟨-, -, -, -, hw⟩ := exists_cons_of_isIdentifier h
  have hstop : rest.takeWhile isWordChar = [] ∧ rest.dropWhile isWordChar = rest := by
    cases rest with
    | nil => exact ⟨rfl, rfl⟩
    | cons d rest => simp [hr d rfl]
  rw [splitWord, List.takeWhile_append_of_pos hw, List.dropWhile_append_of_pos hw, hstop.1, hstop.2, List.append_nil,
    String.ofList_toList]

theorem splitWord_cons {c : Char} (h : isWordChar c = false) (cs : List Char) : splitWord (c :: cs) = ("", c :: cs) := by
  simp [splitWord, h]

theorem isIdentifier_text (s : Scalar) : isIdentifier s.text = true := by
  cases s <;> decide

theorem scalar?_text (s : Scalar) : scalar? s.text = some s := by
  cases s <;> decide

namespace Opener

variable {cs rest : List Char} {w : String} {x : Opener}

theorem read_word (h : isIdentifier w = true) (hr : Apart rest) : read (w.toList ++ rest) = readWord (w, rest) := by
  obtain ⟨c, ws, hw, hc, -⟩ := exists_cons_of_isIdentifier h
  have hparen : c ≠ '(' := by
    rintro rfl
    cases hc
  have hsign : signed? c = none := by
    unfold signed?
    split <;> first | rfl | cases hc
  rw [← splitWord_append h hr, hw, List.cons_append, read, if_neg hparen, hsign]

theorem readWord_name (hr : Follows rest) : readWord (w, rest) = some (.name w, rest) := by
  have hne (c : Char) (hc : c ∉ [')', ']', ',', ' ']) (rest' : List Char) : rest ≠ c :: rest' := fun h =>
    hc (hr c (h ▸ rfl))
  unfold readWord
  split <;> rename_i he <;> obtain ⟨rfl, h⟩ := Prod.mk.inj he
  · exact absurd h (hne _ (by decide) _)
  · exact absurd h (hne _ (by decide) _)
  · exact absurd h (hne _ (by decide) _)
  · rw [h]

theorem readSigned_name {op : Unary} (hr : Follows rest) : readSigned op (w, rest) = some (.signed op w, rest) := by
  unfold readSigned
  split <;> rename_i he <;> obtain ⟨rfl, h⟩ := Prod.mk.inj he
  · exact absurd (hr '(' (h ▸ rfl)) (by decide)
  · rw [h]

/-- **The opener is read off the text.** -/
theorem read_text (h : x.Valid) (ha : x.Admits cs) : read (x.text ++ cs) = some (x, cs) := by
  have hapart (c : Char) (cs : List Char) (hc : isWordChar c = false) : Apart (c :: cs) := fun d hd => by
    cases hd
    exact hc
  cases x with
  | name w => rw [text, read_word h ha.apart, readWord_name ha]
  | signed op w =>
    obtain ⟨hop, hw⟩ := h
    have hread : read (op.symbol.toList ++ (w.toList ++ cs)) = readSigned op (splitWord (w.toList ++ cs)) := by
      cases op <;> first | rfl | cases hop
    rw [text, List.append_assoc, hread, splitWord_append hw ha.apart, readSigned_name ha]
  | indexed w =>
    rw [text, List.append_assoc, List.singleton_append, read_word h (hapart _ _ rfl)]
    rfl
  | function op =>
    rw [text, List.append_assoc, List.singleton_append]
    cases hop : op.isFunction with
    | true =>
      have hid : isIdentifier op.symbol = true := by cases op <;> first | rfl | cases hop
      have hcalled : called? op.symbol = some (.function op) := by cases op <;> rfl
      rw [read_word hid (hapart _ _ rfl), readWord, hcalled]
      rfl
    | false => cases op <;> first | rfl | cases hop
  | extremum op =>
    have hid : isIdentifier op.symbol = true := by cases op <;> first | rfl | cases h
    have hcalled : called? op.symbol = some (.extremum op) := by cases op <;> first | rfl | cases h
    rw [text, List.append_assoc, List.singleton_append, read_word hid (hapart _ _ rfl), readWord, hcalled]
    rfl
  | cast s =>
    have hread : read ('(' :: (s.text.toList ++ [')', '('] ++ cs)) = readParen (s.text.toList ++ ')' :: '(' :: cs) := by
      simp [read]
    rw [text, List.cons_append, hread, readParen, splitWord_append (isIdentifier_text s) (hapart _ _ rfl)]
    simp only [scalar?_text]
    rfl
  | bits s =>
    have hread : read (['b', 'i', 't', 'c', 'a', 's', 't', '<'] ++ (s.text.toList ++ ['>', '(']) ++ cs) =
        readWord ("bitcast", '<' :: (s.text.toList ++ '>' :: '(' :: cs)) := by
      rw [← read_word (by decide) (hapart _ _ rfl)]
      simp
    rw [text, hread, readWord, splitWord_append (isIdentifier_text s) (hapart _ _ rfl)]
    simp only [scalar?_text]
    rfl
  | conditional =>
    have hsplit : splitWord (['i', 'f'] ++ ' ' :: cs) = ("if", ' ' :: cs) :=
      splitWord_append (w := "if") (by decide) (hapart _ _ rfl)
    change readParen (['i', 'f'] ++ ' ' :: cs) = _
    rw [readParen, hsplit]
    exact if_pos ⟨rfl, ha⟩
  | group =>
    change readParen cs = _
    unfold readParen
    split
    · next hs => exact absurd rfl (ha _ _ _ hs).1
    · next hs =>
      rw [if_neg]
      rw [(ha _ _ _ hs).2 rfl]
      simp
    · rfl

/-- behind an opener that is no name, a word ends in a character that neither closes a parenthesis nor is blank -/
theorem splitWord_text (h : x.Valid) (hx : ∀ w, x ≠ .name w) (cs : List Char) :
    ∃ w c rest, splitWord (x.text ++ cs) = (w, c :: rest) ∧ c ≠ ')' ∧ c ≠ ' ' := by
  have hword {w : String} (hw : isIdentifier w = true) {c : Char} (hc : isWordChar c = false) (cs : List Char) :
      splitWord (w.toList ++ [c] ++ cs) = (w, c :: cs) := by
    rw [List.append_assoc, List.singleton_append, splitWord_append hw fun d hd => by cases hd; exact hc]
  have hmark {c : Char} (hc : isWordChar c = false) (cs : List Char) := splitWord_cons hc cs
  cases x with
  | name w => exact absurd rfl (hx w)
  | signed op w => 
    rw [text]
    cases op <;> first | (cases h.1; done) | exact ⟨_, _, _, hmark rfl _, by decide, by decide⟩
  | indexed w => exact ⟨_, _, _, hword h rfl cs, by decide, by decide⟩
  | function op =>
    cases hop : op.isFunction with
    | true =>
      have hid : isIdentifier op.symbol = true := by cases op <;> first | rfl | cases hop
      exact ⟨_, _, _, hword hid rfl cs, by decide, by decide⟩
    | false =>
      rw [text]
      cases op <;> first | (cases hop; done) | exact ⟨_, _, _, hmark rfl _, by decide, by decide⟩
  | extremum op =>
    have hid : isIdentifier op.symbol = true := by cases op <;> first | rfl | cases h
    exact ⟨_, _, _, hword hid rfl cs, by decide, by decide⟩
  | bits s => exact ⟨_, _, _, hword (w := "bitcast") (by decide) rfl _, by decide, by decide⟩
  | cast | conditional | group => exact ⟨_, _, _, hmark rfl _, by decide, by decide⟩

end Opener

theorem operatorAhead_iff {cs : List Char} : operatorAhead cs = true ↔
    ∃ op rest, Binary.isInfix op = true ∧ cs = op.symbol.toList ++ ' ' :: rest := by
  have hall (op : Binary) : op ∈ Binary.all := by cases op <;> decide
  simp only [operatorAhead, List.any_eq_true, Bool.and_eq_true, List.isPrefixOf_iff_prefix]
  constructor
  · rintro ⟨op, -, hop, rest, rfl⟩
    exact ⟨op, rest, hop, by simp⟩
  · rintro ⟨op, rest, hop, rfl⟩
    exact ⟨op, hall op, hop, rest, by simp⟩

theorem operatorAhead_cons {c : Char} {cs : List Char} (h : operatorAhead (c :: cs) = true) :
    c ≠ '(' ∧ isWordStart c = false ∧ (signed? c ≠ none → ∃ d ds, cs = d :: ds ∧ (d = ' ' ∨ d = '=')) := by
  obtain ⟨op, rest, hop, he⟩ := operatorAhead_iff.1 h
  cases op <;> first | (cases hop; done) | skip
  all_goals
    obtain ⟨rfl, rfl⟩ := List.cons.inj he
    exact ⟨by decide, by decide, fun hc => by first | exact absurd rfl hc | exact ⟨_, _, rfl, by decide⟩⟩

/-- an operand does not begin like an operator in blanks -/
theorem Opener.operatorAhead_text {x : Opener} (h : x.Valid) (cs : List Char) : operatorAhead (x.text ++ cs) = false := by
  have hparen (cs : List Char) : operatorAhead ('(' :: cs) = false :=
    Bool.eq_false_iff.2 fun hahead => (operatorAhead_cons hahead).1 rfl
  have hword {w : String} (hw : isIdentifier w = true) (cs : List Char) : operatorAhead (w.toList ++ cs) = false := by
    obtain ⟨c, ws, hcs, hc, -⟩ := exists_cons_of_isIdentifier hw
    rw [hcs, List.cons_append]
    exact Bool.eq_false_iff.2 fun hahead => nomatch hc.symm.trans (operatorAhead_cons hahead).2.1
  have hsign {op : Unary} (hop : op.isFunction = false) {d : Char} (hd : d ≠ ' ' ∧ d ≠ '=') (cs : List Char) :
      operatorAhead (op.symbol.toList ++ d :: cs) = false := by
    refine Bool.eq_false_iff.2 fun hahead => ?_
    have hc : ∃ c, op.symbol.toList = [c] ∧ signed? c ≠ none := by
      cases op <;> first | (cases hop; done) | exact ⟨_, rfl, by decide⟩
    obtain ⟨c, hc, hsigned⟩ := hc
    rw [hc] at hahead
    obtain ⟨d', ds, hcs, hd'⟩ := (operatorAhead_cons hahead).2.2 hsigned
    obtain ⟨rfl, -⟩ := List.cons.inj hcs
    exact hd'.elim hd.1 hd.2
  cases x with
  | name w => exact hword h cs
  | signed op w =>
    obtain ⟨c, ws, hcs, hc, -⟩ := exists_cons_of_isIdentifier h.2
    rw [text, hcs, List.append_assoc]
    refine hsign h.1 ⟨?_, ?_⟩ _
    · rintro rfl
      cases hc
    · rintro rfl
      cases hc
  | indexed w =>
    rw [text, List.append_assoc]
    exact hword h _
  | function op =>
    rw [text, List.append_assoc]
    cases hop : op.isFunction with
    | true => exact hword (by cases op <;> first | rfl | cases hop) _
    | false => exact hsign hop (by decide) _
  | extremum op =>
    rw [text, List.append_assoc]
    exact hword (by cases op <;> first | rfl | cases h) _
  | bits s => exact hword (w := "bitcast") (by decide) _
  | cast | conditional | group => exact hparen _

/-! ## Unique texts -/

/-- nothing goes on with an expression: no word, no opener and no operator -/
def Ends (cs : List Char) : Prop :=
  Follows cs ∧ ∀ rest, cs = ' ' :: rest → operatorAhead rest = false

theorem Opener.closings_end {x : Opener} {c : List Char} (h : c ∈ x.closings) (cs : List Char) : Ends (c ++ cs) := by
  have hmark {c : Char} (hc : c ∈ [')', ']', ',']) (cs : List Char) : Ends (c :: cs) := by
    simp only [List.mem_cons, List.not_mem_nil, or_false] at hc
    rcases hc with rfl | rfl | rfl <;> refine ⟨fun d hd => ?_, fun _ he => nomatch he⟩ <;> cases hd <;> decide
  have hkeyword {w : List Char} {c : Char} (hc : isWordStart c = true) (cs : List Char) : Ends (' ' :: c :: (w ++ cs)) := by
    refine ⟨fun d hd => by cases hd; decide, fun rest he => ?_⟩
    obtain ⟨-, rfl⟩ := List.cons.inj he
    exact Bool.eq_false_iff.2 fun hahead => nomatch hc.symm.trans (operatorAhead_cons hahead).2.1
  cases x <;> simp only [closings, List.mem_cons, List.not_mem_nil, or_false] at h
  case extremum =>
    rcases h with rfl | rfl <;> exact hmark (by decide) _
  case conditional =>
    rcases h with rfl | rfl | rfl
    · exact hkeyword (w := ['h', 'e', 'n', ' ']) rfl _
    · exact hkeyword (w := ['l', 's', 'e', ' ']) rfl _
    · exact hmark (by decide) _
  all_goals
    subst h
    exact hmark (by decide) _

variable {e e' : Expr} {x x' : Opener} {es es' : List Expr} {cs cs' : List Char}

theorem Operand.valid (hW : Identifies ids W) (he : e.Legible W) (h : Operand ids e x es) : x.Valid := by
  have hid {n : Name} (hn : n ∈ W) : isIdentifier (identifier ids n) = true := by
    obtain ⟨s, hs, hid⟩ := hW.identifier n hn
    rwa [identifier, hs]
  cases h with
  | name => exact hid he
  | signed hop => exact ⟨hop, hid he⟩
  | indexed => exact hid he.2.1
  | extremum hop => exact hop
  | _ => trivial

theorem Operand.length (h : Operand ids e x es) : es.length = x.closings.length := by
  cases h <;> rfl

/-- the parts of an expression are expressions of the same kind, and smaller if there are several -/
theorem legible_parts (he : e.Legible W) (k : ℕ) :
    ∀ y, y = (e.parts k).1 ∨ y ∈ (e.parts k).2.map (·.2) → y.Legible W ∧ sizeOf y ≤ sizeOf e ∧
      ((e.parts k).2 ≠ [] → sizeOf y < sizeOf e) := by
  induction e generalizing k with
  | binary op l r ty o ihl ihr =>
    rcases parts_cases k (binary op l r ty o) with hp | ⟨_, _, _, _, _, hb, hop, hk⟩
    · rw [hp]
      rintro y (rfl | hy)
      · exact ⟨he, le_rfl, fun h => absurd rfl h⟩
      · cases hy
    · cases hb
      rw [parts_binary hop hk]
      intro y hy
      have hy : (y = (l.parts op.strength).1 ∨ y ∈ (l.parts op.strength).2.map (·.2)) ∨
          (y = (r.parts op.strength).1 ∨ y ∈ (r.parts op.strength).2.map (·.2)) := by
        simpa [or_assoc] using hy
      rcases hy with hy | hy
      · obtain ⟨hl, hle, -⟩ := ihl he.1 op.strength y hy
        simp only [binary.sizeOf_spec]
        exact ⟨hl, by omega, fun _ => by omega⟩
      · obtain ⟨hr, hle, -⟩ := ihr he.2 op.strength y hy
        simp only [binary.sizeOf_spec]
        exact ⟨hr, by omega, fun _ => by omega⟩
  | _ =>
    rintro y (rfl | hy)
    · exact ⟨he, le_rfl, fun h => absurd rfl h⟩
    · cases hy

/-- no expression begins like an operator in blanks -/
theorem operatorAhead_chars (hW : Identifies ids W) (he : e.Legible W) (cs : List Char) :
    operatorAhead (e.chars ids ++ cs) = false := by
  have hfirst := (legible_parts he 0 _ (.inl rfl)).1
  obtain ⟨x, es, hx, -⟩ := exists_operand ids hfirst
  rw [chars_eq_row, hx.chars, List.append_assoc, List.append_assoc]
  exact Opener.operatorAhead_text (hx.valid hW hfirst) _

theorem rowRest_cons_append (op : Binary) (y : Expr) (xs : List (Binary × Expr)) (cs : List Char) :
    rowRest ids ((op, y) :: xs) ++ cs =
      ' ' :: (op.symbol.toList ++ ' ' :: (y.operandChars ids ++ (rowRest ids xs ++ cs))) := by
  simp [rowRest]

theorem exists_cons_parts (h : e.isInfix = true) : ∃ op y rest, (e.parts 0).2 = (op, y) :: rest ∧ op.isInfix = true := by
  cases e <;> try cases h
  rename_i op l r ty o
  have hne : ((binary op l r ty o).parts 0).2 ≠ [] := by
    rw [parts_binary h (Nat.zero_le _)]
    simp
  obtain ⟨⟨op', y⟩, rest, hrest⟩ := List.exists_cons_of_ne_nil hne
  exact ⟨op', y, rest, hrest, (le_of_mem_parts (hrest ▸ List.mem_cons_self ..)).1⟩

/-- in parentheses an infix operator begins neither like a type nor like a conditional -/
theorem admits_group (hW : Identifies ids W) (he : e.Legible W) (hin : e.isInfix = true) (cs : List Char) :
    Opener.group.Admits (e.chars ids ++ cs) := by
  have hfirst := (legible_parts he 0 _ (.inl rfl)).1
  obtain ⟨x, es, hx, -⟩ := exists_operand ids hfirst
  obtain ⟨op, y, rest, hrest, hop⟩ := exists_cons_parts hin
  intro w c cs' hs
  rw [chars_eq_row, hx.chars, hrest, List.append_assoc, List.append_assoc, rowRest_cons_append] at hs
  by_cases hname : ∃ w, x = .name w
  · obtain ⟨v, rfl⟩ := hname
    obtain rfl : es = [] := List.eq_nil_of_length_eq_zero hx.length
    have hapart (cs : List Char) : Apart (' ' :: cs) := fun d hd => by
      cases hd
      decide
    -- behind the name stands an operator in blanks
    change splitWord (v.toList ++ ' ' :: _) = _ at hs
    rw [splitWord_append (hx.valid hW hfirst) (hapart _)] at hs
    obtain ⟨-, hs⟩ := Prod.mk.inj hs
    obtain ⟨rfl, rfl⟩ := List.cons.inj hs
    exact ⟨by decide, fun _ => operatorAhead_iff.2 ⟨op, _, hop, rfl⟩⟩
  · obtain ⟨w', c', rest', hs', hclose, hblank⟩ :=
      Opener.splitWord_text (hx.valid hW hfirst) (fun w h => hname ⟨w, h⟩) _
    rw [hs'] at hs
    obtain ⟨-, hs⟩ := Prod.mk.inj hs
    obtain ⟨rfl, -⟩ := List.cons.inj hs
    exact ⟨hclose, fun h => absurd h hblank⟩

theorem Operand.admits (hW : Identifies ids W) (he : e.Legible W) (h : Operand ids e x es) (hcs : Follows cs) :
    x.Admits (closedChars ids es x.closings ++ cs) := by
  cases h with
  | name | signed => exact hcs
  | conditional =>
    rw [Opener.closings, closedChars, List.append_assoc]
    exact operatorAhead_chars hW he.1 _
  | group hin =>
    rw [Opener.closings, closedChars, List.append_assoc]
    exact admits_group hW he hin _
  | _ => trivial

/-- the expressions have one text, and are followed by the same, only if they are alike -/
def Unique (ids : Identifiers) (e e' : Expr) : Prop :=
  ∀ cs cs', Ends cs → Ends cs' → e.chars ids ++ cs = e'.chars ids ++ cs' → Alike e e' ∧ cs = cs'

theorem closedChars_unique {closings : List (List Char)} (hends : ∀ c ∈ closings, ∀ cs, Ends (c ++ cs))
    (hlen : es.length = closings.length) (hlen' : es'.length = closings.length)
    (hunique : ∀ y ∈ es, ∀ y' ∈ es', Unique ids y y')
    (h : closedChars ids es closings ++ cs = closedChars ids es' closings ++ cs') :
    List.Forall₂ Alike es es' ∧ cs = cs' := by
  induction closings generalizing es es' with
  | nil =>
    obtain rfl := List.eq_nil_of_length_eq_zero hlen
    obtain rfl := List.eq_nil_of_length_eq_zero hlen'
    exact ⟨.nil, h⟩
  | cons c closings ih =>
    obtain ⟨y, es, rfl⟩ := List.exists_cons_of_length_eq_add_one hlen
    obtain ⟨y', es', rfl⟩ := List.exists_cons_of_length_eq_add_one hlen'
    simp only [closedChars, List.append_assoc] at h
    obtain ⟨hy, hrest⟩ := hunique y (List.mem_cons_self ..) y' (List.mem_cons_self ..) _ _
      (hends c (List.mem_cons_self ..) _) (hends c (List.mem_cons_self ..) _) h
    obtain ⟨hes, hcs⟩ := ih (fun d hd => hends d (List.mem_cons_of_mem _ hd)) (Nat.succ.inj hlen) (Nat.succ.inj hlen')
      (fun z hz z' hz' => hunique z (List.mem_cons_of_mem _ hz) z' (List.mem_cons_of_mem _ hz'))
      (List.append_cancel_left hrest)
    exact ⟨.cons hy hes, hcs⟩

/-- operands of one text are alike, if that holds of the expressions in them -/
theorem operandChars_unique (hW : Identifies ids W) (he : e.Legible W) (he' : e'.Legible W) (hx : Operand ids e x es)
    (hx' : Operand ids e' x' es') (hunique : ∀ y ∈ es, ∀ y' ∈ es', Unique ids y y') (hcs : Follows cs) (hcs' : Follows cs')
    (h : e.operandChars ids ++ cs = e'.operandChars ids ++ cs') : Alike e e' ∧ cs = cs' := by
  rw [hx.chars, hx'.chars, List.append_assoc, List.append_assoc] at h
  have hread := Opener.read_text (hx.valid hW he) (hx.admits hW he hcs)
  rw [h, Opener.read_text (hx'.valid hW he') (hx'.admits hW he' hcs')] at hread
  obtain ⟨rfl, hrest⟩ := Prod.mk.inj (Option.some.inj hread)
  obtain ⟨hes, hcs⟩ := closedChars_unique (fun _ hc cs => Opener.closings_end hc cs) hx.length hx'.length hunique hrest.symm
  exact ⟨hx.alike hW he he' hx' hes, hcs⟩

theorem follows_rowRest {xs : List (Binary × Expr)} (hcs : Follows cs) : Follows (rowRest ids xs ++ cs) := by
  cases xs with
  | nil => exact hcs
  | cons y xs =>
    intro d hd
    cases hd
    decide

theorem not_ends_rowRest {y : Binary × Expr} (hop : y.1.isInfix = true) (xs : List (Binary × Expr)) (cs : List Char) :
    ¬ Ends (rowRest ids (y :: xs) ++ cs) := fun h => by
  rw [rowRest_cons_append] at h
  have hahead := h.2 _ rfl
  rw [operatorAhead_iff.2 ⟨y.1, _, hop, rfl⟩] at hahead
  cases hahead

theorem eq_of_append_blank {s s' : List Char} (hs : ' ' ∉ s) (hs' : ' ' ∉ s') (h : s ++ ' ' :: cs = s' ++ ' ' :: cs') :
    s = s' ∧ cs = cs' := by
  induction s generalizing s' with
  | nil =>
    cases s' with
    | nil => exact ⟨rfl, (List.cons.inj h).2⟩
    | cons d s' => exact absurd ((List.cons.inj h).1 ▸ List.mem_cons_self ..) hs'
  | cons c s ih =>
    cases s' with
    | nil => exact absurd ((List.cons.inj h).1 ▸ List.mem_cons_self ..) hs
    | cons d s' =>
      obtain ⟨rfl, hrest⟩ := List.cons.inj h
      obtain ⟨rfl, hcs⟩ := ih (fun hc => hs (List.mem_cons_of_mem _ hc)) (fun hd => hs' (List.mem_cons_of_mem _ hd)) hrest
      exact ⟨rfl, hcs⟩

/-- rows of one text have the same operators and alike operands -/
theorem rowRest_unique {xs xs' : List (Binary × Expr)} (hxs : ∀ y ∈ xs, y.1.isInfix = true)
    (hxs' : ∀ y ∈ xs', y.1.isInfix = true)
    (hunique : ∀ y ∈ xs, ∀ y' ∈ xs', ∀ cs cs', Follows cs → Follows cs' →
      y.2.operandChars ids ++ cs = y'.2.operandChars ids ++ cs' → Alike y.2 y'.2 ∧ cs = cs')
    (hcs : Ends cs) (hcs' : Ends cs') (h : rowRest ids xs ++ cs = rowRest ids xs' ++ cs') :
    List.Forall₂ (fun y y' => y.1 = y'.1 ∧ Alike y.2 y'.2) xs xs' ∧ cs = cs' := by
  have hblank (op : Binary) : ' ' ∉ op.symbol.toList := by cases op <;> decide
  have hsymbol {op op' : Binary} (h : op.symbol.toList = op'.symbol.toList) : op = op' := by
    revert h
    cases op <;> cases op' <;> decide
  induction xs generalizing xs' with
  | nil =>
    cases xs' with
    | nil => exact ⟨.nil, h⟩
    | cons y' xs' =>
      obtain rfl : cs = rowRest ids (y' :: xs') ++ cs' := h
      exact absurd hcs (not_ends_rowRest (hxs' y' (List.mem_cons_self ..)) _ _)
  | cons y xs ih =>
    cases xs' with
    | nil =>
      obtain rfl : rowRest ids (y :: xs) ++ cs = cs' := h
      exact absurd hcs' (not_ends_rowRest (hxs y (List.mem_cons_self ..)) _ _)
    | cons y' xs' =>
      rw [rowRest_cons_append, rowRest_cons_append] at h
      obtain ⟨hop, hrest⟩ := eq_of_append_blank (hblank y.1) (hblank y'.1) (List.cons.inj h).2
      obtain ⟨hy, hrest⟩ := hunique y (List.mem_cons_self ..) y' (List.mem_cons_self ..) _ _ (follows_rowRest hcs.1)
        (follows_rowRest hcs'.1) hrest
      obtain ⟨hxs, hcs⟩ := ih (fun z hz => hxs z (List.mem_cons_of_mem _ hz))
        (fun z hz => hxs' z (List.mem_cons_of_mem _ hz))
        (fun z hz z' hz' => hunique z (List.mem_cons_of_mem _ hz) z' (List.mem_cons_of_mem _ hz')) hrest
      exact ⟨.cons ⟨hsymbol hop, hy⟩ hxs, hcs⟩

/-- **Expressions of one text are alike.** -/
theorem chars_unique (hW : Identifies ids W) (he : e.Legible W) (he' : e'.Legible W) : Unique ids e e' := by
  generalize hn : sizeOf e + sizeOf e' = n
  induction n using Nat.strongRecOn generalizing e e' with
  | _ n ih =>
    intro cs cs' hcs hcs' h
    -- an operand among the parts of an expression encloses smaller expressions
    have hoperand {e y : Expr} (he : e.Legible W) (hy : y = (e.parts 0).1 ∨ y ∈ (e.parts 0).2.map (·.2)) :
        y.Legible W ∧ ∃ x es, Operand ids y x es ∧ ∀ z ∈ es, z.Legible W ∧ sizeOf z < sizeOf e := by
      obtain ⟨hlegible, hle, hlt⟩ := legible_parts he 0 y hy
      obtain ⟨x, es, hx, hes, hsize⟩ := exists_operand ids hlegible
      refine ⟨hlegible, x, es, hx, fun z hz => ⟨hes z hz, ?_⟩⟩
      by_cases hnil : (e.parts 0).2 = []
      · have hin : y.isInfix = false := by
          rw [hnil, parts_of_nil hnil] at hy
          obtain rfl : y = e := by simpa using hy
          refine Bool.eq_false_iff.2 fun hin => ?_
          obtain ⟨op, z, rest, hrest, -⟩ := exists_cons_parts hin
          exact absurd (hnil.symm.trans hrest) nofun
        exact lt_of_lt_of_le ((hsize z hz).2 hin) hle
      · exact lt_of_le_of_lt (hsize z hz).1 (hlt hnil)
    have hunique {y y' : Expr} (hy : y = (e.parts 0).1 ∨ y ∈ (e.parts 0).2.map (·.2))
        (hy' : y' = (e'.parts 0).1 ∨ y' ∈ (e'.parts 0).2.map (·.2)) {cs cs' : List Char} (hcs : Follows cs)
        (hcs' : Follows cs') (h : y.operandChars ids ++ cs = y'.operandChars ids ++ cs') : Alike y y' ∧ cs = cs' := by
      obtain ⟨hlegible, x, es, hx, hes⟩ := hoperand he hy
      obtain ⟨hlegible', x', es', hx', hes'⟩ := hoperand he' hy'
      refine operandChars_unique hW hlegible hlegible' hx hx' (fun z hz z' hz' => ?_) hcs hcs' h
      have hz := hes z hz
      have hz' := hes' z' hz'
      exact ih _ (by omega) hz.1 hz'.1 rfl
    rw [chars_eq_row, chars_eq_row, List.append_assoc, List.append_assoc] at h
    obtain ⟨hfirst, hrest⟩ := hunique (.inl rfl) (.inl rfl) (follows_rowRest hcs.1) (follows_rowRest hcs'.1) h
    obtain ⟨hparts, hcs⟩ := rowRest_unique (fun y hy => (le_of_mem_parts hy).1) (fun y hy => (le_of_mem_parts hy).1)
      (fun y hy y' hy' cs cs' => hunique (.inr (List.mem_map_of_mem hy)) (.inr (List.mem_map_of_mem hy'))) hcs hcs' hrest
    exact ⟨alike_of_parts ⟨hfirst, hparts⟩, hcs⟩

/-- alike expressions have one text, and the same parentheses around it -/
theorem Alike.chars (h : Alike e e') :
    e.chars ids = e'.chars ids ∧ (∀ k, e.isLooser k = e'.isLooser k) ∧ e.isLeaf = e'.isLeaf := by
  induction h with
  | refl e => exact ⟨rfl, fun _ => rfl, rfl⟩
  | symm _ ih => exact ⟨ih.1.symm, fun k => (ih.2.1 k).symm, ih.2.2.symm⟩
  | trans _ _ ih ih' => exact ⟨ih.1.trans ih'.1, fun k => (ih.2.1 k).trans (ih'.2.1 k), ih.2.2.trans ih'.2.2⟩
  | var => exact ⟨rfl, fun _ => rfl, rfl⟩
  | unary _ ih =>
    refine ⟨?_, fun _ => rfl, rfl⟩
    rw [Expr.chars, Expr.chars, ih.1, ih.2.2]
  | binary _ _ ihl ihr =>
    refine ⟨?_, fun _ => rfl, rfl⟩
    rw [Expr.chars, Expr.chars, ihl.1, ihl.2.1, ihr.1, ihr.2.1]
  | select _ _ _ ihc iht ihe =>
    refine ⟨?_, fun _ => rfl, rfl⟩
    rw [Expr.chars, Expr.chars, ihc.1, iht.1, ihe.1]
  | access _ _ iht ihi =>
    refine ⟨?_, fun _ => rfl, rfl⟩
    rw [Expr.chars, Expr.chars, iht.1, ihi.1]
  | convert _ ih =>
    refine ⟨?_, fun _ => rfl, rfl⟩
    rw [Expr.chars, Expr.chars, ih.1]
  | bitCast _ ih =>
    refine ⟨?_, fun _ => rfl, rfl⟩
    rw [Expr.chars, Expr.chars, ih.1]
  | regroup hop hop' h =>
    -- neither of the two operators is in parentheses under the other
    refine ⟨?_, fun k => ?_, rfl⟩
    · simp only [Expr.chars, hop, hop', if_true, isLooser, h, lt_irrefl, decide_false, Bool.and_false]
      simp [enclose]
    · rw [isLooser, isLooser, hop, hop', h]

/-- **What a dump tells.** Expressions over variables with distinct identifiers have one text exactly if they are alike, that
is, up to types and to how infix operators of one strength are grouped. Printing them changes no identifiers. -/
theorem print_eq_iff_alike (hW : Identifies ids W) (he : e.Legible W) (he' : e'.Legible W) :
    (e.print ids).2 = ids ∧ ((e.print ids).1 = (e'.print ids).1 ↔ Alike e e') := by
  rw [print_chars hW he, print_chars hW he']
  refine ⟨rfl, ⟨fun h => ?_, fun h => congrArg String.ofList (Alike.chars h).1⟩⟩
  have hends : Ends [] := ⟨fun _ hc => (nomatch hc), fun _ h => nomatch h⟩
  refine (chars_unique hW he he' [] [] hends hends ?_).1
  simpa using congrArg String.toList h

/-- a variable of the given name -/
def operand (s : String) (ty : Ty) : Expr :=
  .var (.plain s) ty default

/-- `a - (b - c)` over variables of one type -/
def ungrouped (ty : Ty) : Expr :=
  .binary .sub (operand "a" ty) (.binary .sub (operand "b" ty) (operand "c" ty) ty default) ty default

/-- `(a - b) - c` over variables of one type -/
def grouped (ty : Ty) : Expr :=
  .binary .sub (.binary .sub (operand "a" ty) (operand "b" ty) ty default) (operand "c" ty) ty default

/-- their names -/
def operands : Set Name := {.plain "a", .plain "b", .plain "c"}

/-- the identifiers after these have been printed -/
def operandIds : Identifiers :=
  (((({} : Identifiers).choose (.plain "a")).2.choose (.plain "b")).2.choose (.plain "c")).2

theorem identifies_operands : Identifies operandIds operands := by
  have ha : operandIds.chosen.get? (.plain "a") = some "a" := by decide
  have hb : operandIds.chosen.get? (.plain "b") = some "b" := by decide
  have hc : operandIds.chosen.get? (.plain "c") = some "c" := by decide
  refine ⟨?_, ?_⟩
  · rintro n (rfl | rfl | rfl)
    exacts [⟨_, ha, by decide⟩, ⟨_, hb, by decide⟩, ⟨_, hc, by decide⟩]
  · rintro m (rfl | rfl | rfl) n (rfl | rfl | rfl) h <;> first | rfl | skip
    all_goals simp only [ha, hb, hc] at h
    all_goals exact absurd h (by decide)

theorem legible_ungrouped (ty : Ty) : (ungrouped ty).Legible operands :=
  ⟨.inl rfl, .inr (.inl rfl), .inr (.inr rfl)⟩

theorem legible_grouped (ty : Ty) : (grouped ty).Legible operands :=
  ⟨⟨.inl rfl, .inr (.inl rfl)⟩, .inr (.inr rfl)⟩

theorem print_eq_iff_alike_difference :
    (Identifies operandIds operands ∧ (ungrouped .i64).Legible operands ∧ (grouped .bool).Legible operands) ∧
    ((ungrouped .i64).print operandIds).2 = operandIds ∧
      (((ungrouped .i64).print operandIds).1 = ((grouped .bool).print operandIds).1 ↔
        Alike (ungrouped .i64) (grouped .bool)) :=
  ⟨⟨identifies_operands, legible_ungrouped _, legible_grouped _⟩,
    print_eq_iff_alike identifies_operands (legible_ungrouped _) (legible_grouped _)⟩

/-- **Grouping is lost.** Expressions of one text need not be the same: `a - (b - c)` prints like `(a - b) - c`. -/
theorem print_hides_grouping : ¬ ∀ (ids : Identifiers) (W : Set Name) (e e' : Expr), Identifies ids W → e.Legible W →
    e'.Legible W → (e.print ids).1 = (e'.print ids).1 → e.sameAs e' = true := by
  intro h
  have htext : ((ungrouped .i64).print operandIds).1 = ((grouped .i64).print operandIds).1 := by rfl
  have hsame := h operandIds operands _ _ identifies_operands (legible_ungrouped _) (legible_grouped _) htext
  exact absurd hsame (by decide)

end Expr

end GpuHistogram
