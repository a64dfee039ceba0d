/-
The tokens that the text of an expression consists of. `Expr.Readable W` describes expressions over variables `W` that are
made of prefix and infix operators, conditionals, elements of named arrays and their addresses, casts and calls;
`Expr.tokens` are the tokens of such an expression, with the parentheses that printing puts around operands.

`Spells s ts` says that a text is cut into these tokens wherever it stands; there is one rule for each way in which texts
are put together. `print_spells`: what is printed spells the tokens, and printing leaves the identifiers as they are.
-/
import GpuHistogram.Proofs.Reading
import Mathlib.Data.Set.Basic

namespace GpuHistogram.Source

namespace Expr

def isVar : Expr → Bool
  | var .. => true
  | _ => false

def isAccess : Expr → Bool
  | access .. => true
  | _ => false

mutual

/-- expressions of operators, conditionals, elements of named arrays and their addresses, casts and calls -/
def Readable (W : Set Name) : Expr → Prop
  | var n _ => n ∈ W
  | unary op e _ => op.isFunction = false ∧ e.Readable W
  | binary op l r _ => op.isInfix = true ∧ l.Readable W ∧ r.Readable W
  | ternary c t e _ => c.Readable W ∧ t.Readable W ∧ e.Readable W
  | access t i _ => t.isVar = true ∧ t.Readable W ∧ i.Readable W
  | addressOf e _ => e.isAccess = true ∧ e.Readable W
  | convert e _ => e.Readable W
  | call id args _ => isIdentifier id = true ∧ AllReadable W args
  | bool .. | int .. | float .. => False

def AllReadable (W : Set Name) : List Expr → Prop
  | [] => True
  | e :: es => e.Readable W ∧ AllReadable W es

end

end Expr

/-- the variables have identifiers, which are distinct -/
structure Identifies (ids : Identifiers) (W : Set Name) : Prop where
  identifier : ∀ n ∈ W, ∃ s, ids.chosen.get? n = some s ∧ isIdentifier s = true
  distinct : ∀ m ∈ W, ∀ n ∈ W, ids.chosen.get? m = ids.chosen.get? n → m = n

/-! ## The tokens of an expression -/

/-- tokens in parentheses, if they need some -/
def inParens (b : Bool) (ts : List Token) : List Token :=
  if b then .openParen :: ts ++ [.closeParen] else ts

/-- how an operator in front of its operand is read -/
def prefixToken : Unary → Token
  | .not => .bang
  | .bitNeg => .tilde
  | _ => .op .sub

/-- the tokens of a type -/
def Ty.tokens : Ty → List Token
  | void => [.word "void"]
  | scalar s => [.word s.cText]
  | pointer s q => (q.text?.map Token.word).toList ++ [.word s.cText, .op .mul]

namespace Expr

/-- the identifier of a name -/
def ident (ids : Identifiers) (n : Name) : String :=
  (ids.chosen.get? n).getD ""

mutual

/-- the tokens of the text of an expression -/
def tokens (ids : Identifiers) : Expr → List Token
  | var n _ => [.word (ident ids n)]
  | unary op e _ => prefixToken op :: inParens (!e.isLeaf) (e.tokens ids)
  | binary op l r _ =>
    inParens (l.isGrouped op false) (l.tokens ids) ++ .op op :: inParens (r.isGrouped op true) (r.tokens ids)
  | ternary c t e _ => .openParen :: c.tokens ids ++ .question :: t.tokens ids ++ .colon :: e.tokens ids ++ [.closeParen]
  | access t i _ => t.tokens ids ++ .openBracket :: i.tokens ids ++ [.closeBracket]
  | addressOf e _ => .op .bitAnd :: e.tokens ids
  | convert e ty => .openParen :: ty.tokens ++ .closeParen :: inParens (!e.isLeaf) (e.tokens ids)
  | call id args _ => .word id :: .openParen :: argTokens ids args ++ [.closeParen]
  | bool .. | int .. | float .. => []

/-- the tokens of arguments, with commas in between -/
def argTokens (ids : Identifiers) : List Expr → List Token
  | [] => []
  | [e] => e.tokens ids
  | e :: e' :: es => e.tokens ids ++ .comma :: argTokens ids (e' :: es)

end

end Expr

/-! ## Lexing -/

/-- the text is that of the tokens, wherever no word goes on behind it -/
def Spells (s : String) (ts : List Token) : Prop :=
  ∀ rest, Apart rest → lex (s.toList ++ rest) = (lex rest).map (ts ++ ·)

/-- the text begins with a word or a parenthesis -/
def Opens (s : String) : Prop :=
  ∃ c cs, s.toList = c :: cs ∧ (c = '(' ∨ isWordStart c = true)

theorem Opens.append {s : String} (h : Opens s) (t : String) : Opens (s ++ t) := by
  obtain ⟨c, cs, hs, hc⟩ := h
  exact ⟨c, cs ++ t.toList, by simp [hs], hc⟩

theorem Opens.of_isIdentifier {s : String} (h : isIdentifier s = true) : Opens s := by
  unfold isIdentifier at h
  split at h
  case h_1 => cases h
  case h_2 c cs hs => exact ⟨c, cs, hs, .inr (Bool.and_eq_true_iff.1 h).1⟩

theorem Opens.parens (s : String) : Opens s!"({s})" := ⟨'(', s.toList ++ [')'], by simp [toString], .inl rfl⟩

/-- no mark goes on with what an operand begins with -/
theorem opens_ne {c : Char} (h : c = '(' ∨ isWordStart c = true) : c ≠ '-' ∧ c ≠ '>' ∧ c ≠ '=' ∧ c ≠ '&' := by
  refine ⟨?_, ?_, ?_, ?_⟩ <;> rintro rfl <;> revert h <;> decide

section

variable (cs : List Char)

theorem lex_openParen : lex ('(' :: cs) = (lex cs).map (.openParen :: ·) := lex_mark (by simp [mark?, marks])

theorem lex_closeParen : lex (')' :: cs) = (lex cs).map (.closeParen :: ·) := lex_mark (by simp [mark?, marks])

theorem lex_openBracket : lex ('[' :: cs) = (lex cs).map (.openBracket :: ·) := lex_mark (by simp [mark?, marks])

theorem lex_closeBracket : lex (']' :: cs) = (lex cs).map (.closeBracket :: ·) := lex_mark (by simp [mark?, marks])

theorem lex_comma : lex (',' :: cs) = (lex cs).map (.comma :: ·) := lex_mark (by simp [mark?, marks])

theorem lex_question : lex ('?' :: cs) = (lex cs).map (.question :: ·) := lex_mark (by simp [mark?, marks])

theorem lex_colon : lex (':' :: cs) = (lex cs).map (.colon :: ·) := lex_mark (by simp [mark?, marks])

theorem lex_star : lex ('*' :: ')' :: cs) = (lex (')' :: cs)).map (.op .mul :: ·) := lex_mark (by simp [mark?, marks])

/-- an operator between its operands stands in blanks -/
theorem lex_infix {op : Binary} (h : op.isInfix = true) :
    lex (op.symbol.toList ++ ' ' :: cs) = (lex cs).map (.op op :: ·) := by
  rw [← lex_space cs]
  apply lex_mark
  cases op <;> first | cases h; done | simp [mark?, marks, Binary.symbol]

/-- an operator in front of its operand does not run into it -/
theorem lex_prefix {op : Unary} (h : op.isFunction = false) {c : Char} (hc : c = '(' ∨ isWordStart c = true) :
    lex (op.symbol.toList ++ c :: cs) = (lex (c :: cs)).map (prefixToken op :: ·) := by
  obtain ⟨h1, h2, h3, -⟩ := opens_ne hc
  apply lex_mark
  cases op <;> first | cases h; done | simp [mark?, marks, Unary.symbol, prefixToken, h1.symm, h2.symm, h3.symm]

theorem lex_address {c : Char} (hc : c = '(' ∨ isWordStart c = true) :
    lex ('&' :: c :: cs) = (lex (c :: cs)).map (.op .bitAnd :: ·) := by
  obtain ⟨-, -, h3, h4⟩ := opens_ne hc
  exact lex_mark (by simp [mark?, marks, h3.symm, h4.symm])

end

namespace Spells

variable {s l r : String} {ts tl tr : List Token}

theorem word (h : isIdentifier s = true) : Spells s [.word s] := fun _ hr => lex_word h hr

theorem empty : Spells "" [] := fun _ _ => by simp

theorem parens (h : Spells s ts) : Spells s!"({s})" (.openParen :: ts ++ [.closeParen]) := fun rest _ => by
  have hs := h (')' :: rest) (by simp [Apart, isWordChar])
  have htext : (s!"({s})").toList ++ rest = '(' :: (s.toList ++ ')' :: rest) := by simp [toString]
  rw [htext, lex_openParen, hs, lex_closeParen]
  simp [Function.comp_def]

theorem operand (h : Spells s ts) (b : Bool) : Spells (if b then s!"({s})" else s) (inParens b ts) := by
  cases b with
  | false => exact h
  | true => exact h.parens

theorem unary {op : Unary} (hop : op.isFunction = false) (h : Spells s ts) (ho : Opens s) :
    Spells (op.symbol ++ s) (prefixToken op :: ts) := fun rest hr => by
  obtain ⟨c, cs, hs, hc⟩ := ho
  have hcs := h rest hr
  rw [hs, List.cons_append] at hcs
  rw [String.toList_append, hs, List.append_assoc, List.cons_append, lex_prefix _ hop hc, hcs]
  simp [Function.comp_def]

theorem address (h : Spells s ts) (ho : Opens s) : Spells ("&" ++ s) (.op .bitAnd :: ts) := fun rest hr => by
  obtain ⟨c, cs, hs, hc⟩ := ho
  have hcs := h rest hr
  rw [hs, List.cons_append] at hcs
  rw [String.toList_append, hs, List.append_assoc, List.cons_append]
  change lex ('&' :: c :: (cs ++ rest)) = _
  rw [lex_address _ hc, hcs]
  simp [Function.comp_def]

theorem binary {op : Binary} (hop : op.isInfix = true) (hl : Spells l tl) (hr : Spells r tr) :
    Spells s!"{l} {op.symbol} {r}" (tl ++ .op op :: tr) := fun rest h => by
  have hleft := hl (' ' :: (op.symbol.toList ++ ' ' :: (r.toList ++ rest))) (by simp [Apart, isWordChar])
  have htext : (s!"{l} {op.symbol} {r}").toList ++ rest =
      l.toList ++ ' ' :: (op.symbol.toList ++ ' ' :: (r.toList ++ rest)) := by simp [toString]
  rw [htext, hleft, lex_space, lex_infix _ hop, hr rest h]
  simp [Function.comp_def]

theorem ternary (hs : Spells s ts) (hl : Spells l tl) (hr : Spells r tr) :
    Spells s!"({s} ? {l} : {r})" (.openParen :: ts ++ .question :: tl ++ .colon :: tr ++ [.closeParen]) :=
  fun rest _ => by
  have hcond := hs (' ' :: '?' :: ' ' :: (l.toList ++ ' ' :: ':' :: ' ' :: (r.toList ++ ')' :: rest)))
    (by simp [Apart, isWordChar])
  have hthn := hl (' ' :: ':' :: ' ' :: (r.toList ++ ')' :: rest)) (by simp [Apart, isWordChar])
  have hels := hr (')' :: rest) (by simp [Apart, isWordChar])
  have htext : (s!"({s} ? {l} : {r})").toList ++ rest =
      '(' :: (s.toList ++ ' ' :: '?' :: ' ' :: (l.toList ++ ' ' :: ':' :: ' ' :: (r.toList ++ ')' :: rest))) := by
    simp [toString]
  rw [htext, lex_openParen, hcond, lex_space, lex_question, lex_space, hthn, lex_space, lex_colon, lex_space, hels,
    lex_closeParen]
  simp [Function.comp_def]

theorem access (hl : Spells l tl) (hr : Spells r tr) :
    Spells s!"{l}[{r}]" (tl ++ .openBracket :: tr ++ [.closeBracket]) := fun rest _ => by
  have htarget := hl ('[' :: (r.toList ++ ']' :: rest)) (by simp [Apart, isWordChar])
  have hindex := hr (']' :: rest) (by simp [Apart, isWordChar])
  have htext : (s!"{l}[{r}]").toList ++ rest = l.toList ++ '[' :: (r.toList ++ ']' :: rest) := by simp [toString]
  rw [htext, htarget, lex_openBracket, hindex, lex_closeBracket]
  simp [Function.comp_def]

theorem call {id : String} (hid : isIdentifier id = true) (h : Spells s ts) :
    Spells (id ++ "(" ++ s ++ ")") (.word id :: .openParen :: ts ++ [.closeParen]) := fun rest _ => by
  have hname : lex (id.toList ++ '(' :: (s.toList ++ ')' :: rest)) =
      (lex ('(' :: (s.toList ++ ')' :: rest))).map (.word id :: ·) := lex_word hid (by simp [Apart, isWordChar])
  have hargs := h (')' :: rest) (by simp [Apart, isWordChar])
  have htext : (id ++ "(" ++ s ++ ")").toList ++ rest = id.toList ++ '(' :: (s.toList ++ ')' :: rest) := by simp
  rw [htext, hname, lex_openParen, hargs, lex_closeParen]
  simp [Function.comp_def]

theorem comma (hl : Spells l tl) (hr : Spells r tr) : Spells (l ++ ", " ++ r) (tl ++ .comma :: tr) := fun rest h => by
  have hleft := hl (',' :: ' ' :: (r.toList ++ rest)) (by simp [Apart, isWordChar])
  have htext : (l ++ ", " ++ r).toList ++ rest = l.toList ++ ',' :: ' ' :: (r.toList ++ rest) := by simp
  rw [htext, hleft, lex_comma, lex_space, hr rest h]
  simp [Function.comp_def]

/-- a type in parentheses, and the operand of the cast -/
theorem convert (ty : Ty) (h : Spells s ts) : Spells s!"({ty.text}){s}" (.openParen :: ty.tokens ++ .closeParen :: ts) :=
  fun rest hr => by
  have hscalar (sc : Scalar) : isIdentifier sc.cText = true := by cases sc <;> decide
  have hend : Apart (')' :: (s.toList ++ rest)) := by simp [Apart, isWordChar]
  have htext : (s!"({ty.text}){s}").toList ++ rest = '(' :: (ty.text.toList ++ ')' :: (s.toList ++ rest)) := by
    simp [toString]
  rw [htext, lex_openParen]
  suffices lex (ty.text.toList ++ ')' :: (s.toList ++ rest)) =
      (lex (')' :: (s.toList ++ rest))).map (ty.tokens ++ ·) by
    rw [this, lex_closeParen, h rest hr]
    simp [Function.comp_def]
  cases ty with
  | void => exact lex_word (by decide) hend
  | scalar sc => exact lex_word (hscalar sc) hend
  | pointer sc q =>
    have hstar : lex (sc.cText.toList ++ '*' :: ')' :: (s.toList ++ rest)) =
        (lex ('*' :: ')' :: (s.toList ++ rest))).map (.word sc.cText :: ·) :=
      lex_word (hscalar sc) (by simp [Apart, isWordChar])
    have hpointer : lex ((sc.cText ++ "*").toList ++ ')' :: (s.toList ++ rest)) =
        (lex (')' :: (s.toList ++ rest))).map ([.word sc.cText, .op .mul] ++ ·) := by
      rw [String.toList_append, List.append_assoc]
      change lex (sc.cText.toList ++ '*' :: ')' :: (s.toList ++ rest)) = _
      rw [hstar, lex_star]
      simp [Function.comp_def]
    have hqualified {w : String} (hw : isIdentifier w = true) :
        lex ((w ++ " " ++ (sc.cText ++ "*")).toList ++ ')' :: (s.toList ++ rest)) =
          (lex (')' :: (s.toList ++ rest))).map ([.word w, .word sc.cText, .op .mul] ++ ·) := by
      have hword : lex (w.toList ++ ' ' :: ((sc.cText ++ "*").toList ++ ')' :: (s.toList ++ rest))) =
          (lex (' ' :: ((sc.cText ++ "*").toList ++ ')' :: (s.toList ++ rest)))).map (.word w :: ·) :=
        lex_word hw (by simp [Apart, isWordChar])
      rw [String.toList_append, String.toList_append, List.append_assoc, List.append_assoc]
      change lex (w.toList ++ ' ' :: ((sc.cText ++ "*").toList ++ ')' :: (s.toList ++ rest))) = _
      rw [hword, lex_space, hpointer]
      simp [Function.comp_def]
    cases q with
    | unqualified => exact hpointer
    | global | group | shared => exact hqualified (by decide)

end Spells

/-! ## Printing -/

variable {ids : Identifiers} {W : Set Name}

theorem bind_run {α β : Type} {x : Printer α} {f : α → Printer β} {a : α} (h : x ids = (a, ids)) :
    (x >>= f) ids = f a ids := by
  change (match x ids with | (a, ids) => f a ids) = _
  rw [h]

namespace Expr

/-- parentheses around the operand of a prefix operator -/
theorem prefixArgument_eq {e : Expr} {s : String} (ho : e.isLeaf = true → Opens s) :
    e.prefixArgument s = if !e.isLeaf then s!"({s})" else s := by
  unfold prefixArgument
  cases hl : e.isLeaf with
  | false => rfl
  | true =>
    obtain ⟨c, cs, hs, hc⟩ := ho hl
    have hne := (opens_ne hc).1
    simp [hs, hne]

/-- the operand of a prefix operator begins with a word or a parenthesis -/
theorem opens_argument {e : Expr} {s : String} (ho : e.isLeaf = true → Opens s) :
    Opens (if !e.isLeaf then s!"({s})" else s) := by
  cases hl : e.isLeaf with
  | false => exact .parens s
  | true => exact ho hl

mutual

/-- printing names that have identifiers changes nothing, and gives a text of the tokens -/
theorem print_spells (hW : Identifies ids W) : ∀ {e : Expr}, e.Readable W →
    ∃ s, e.print ids = (s, ids) ∧ Spells s (e.tokens ids) ∧ (e.isLeaf = true → Opens s)
  | .var n _, h => by
    rw [Readable] at h
    obtain ⟨s, hs, hid⟩ := hW.identifier n h
    have hident : ident ids n = s := by simp [ident, hs]
    refine ⟨s, Identifiers.choose_of_chosen hs, ?_, fun _ => .of_isIdentifier hid⟩
    rw [tokens, hident]
    exact .word hid
  | .unary op e _, h => by
    rw [Readable] at h
    obtain ⟨s, hs, hts, ho⟩ := print_spells hW h.2
    rw [print, bind_run hs, tokens, prefixArgument_eq ho]
    exact ⟨_, rfl, (hts.operand _).unary h.1 (opens_argument ho), nofun⟩
  | .binary op l r _, h => by
    rw [Readable] at h
    obtain ⟨sl, hl, htl, -⟩ := print_spells hW h.2.1
    obtain ⟨sr, hr, htr, -⟩ := print_spells hW h.2.2
    rw [print, bind_run hl, bind_run hr, tokens]
    exact ⟨_, rfl, .binary h.1 (htl.operand _) (htr.operand _), nofun⟩
  | .ternary c t e _, h => by
    rw [Readable] at h
    obtain ⟨sc, hc, htc, -⟩ := print_spells hW h.1
    obtain ⟨st, ht, htt, -⟩ := print_spells hW h.2.1
    obtain ⟨se, he, hte, -⟩ := print_spells hW h.2.2
    rw [print, bind_run hc, bind_run ht, bind_run he, tokens]
    exact ⟨_, rfl, htc.ternary htt hte, nofun⟩
  | .access t i _, h => by
    rw [Readable] at h
    obtain ⟨st, ht, htt, ho⟩ := print_spells hW h.2.1
    obtain ⟨si, hi, hti, -⟩ := print_spells hW h.2.2
    have hleaf : t.isLeaf = true := by
      cases t <;> first | rfl | cases h.1
    rw [print, bind_run ht, bind_run hi, tokens]
    exact ⟨_, rfl, htt.access hti, fun _ => (((ho hleaf).append _).append _).append _⟩
  | .addressOf e _, h => by
    rw [Readable] at h
    obtain ⟨s, hs, hts, ho⟩ := print_spells hW h.2
    have hleaf : e.isLeaf = true := by
      cases e <;> first | rfl | cases h.1
    rw [print, bind_run hs, tokens]
    exact ⟨_, rfl, hts.address (ho hleaf), nofun⟩
  | .convert e ty, h => by
    rw [Readable] at h
    obtain ⟨s, hs, hts, -⟩ := print_spells hW h
    rw [print, bind_run hs, tokens]
    have htext : (if e.isLeaf = true then s!"({ty.text}){s}" else s!"({ty.text})({s})") =
        s!"({ty.text})" ++ if !e.isLeaf then s!"({s})" else s := by
      rw [← String.toList_inj]
      cases e.isLeaf <;> simp [toString]
    exact ⟨_, congrArg (·, ids) htext, (hts.operand _).convert ty, nofun⟩
  | .call id args _, h => by
    rw [Readable] at h
    obtain ⟨l, hl, htl, -⟩ := printAll_spells hW h.2
    rw [print, bind_run hl, tokens]
    exact ⟨_, rfl, htl.call h.1, fun _ => (((Opens.of_isIdentifier h.1).append _).append _).append _⟩
  | .bool .., h | .int .., h | .float .., h => by
    rw [Readable] at h
    exact h.elim

theorem printAll_spells (hW : Identifies ids W) : ∀ {es : List Expr}, AllReadable W es →
    ∃ l, printAll es ids = (l, ids) ∧ Spells (", ".intercalate l) (argTokens ids es) ∧ l.length = es.length
  | [], _ => ⟨[], rfl, .empty, rfl⟩
  | [e], h => by
    rw [AllReadable] at h
    obtain ⟨s, hs, hts, -⟩ := print_spells hW h.1
    rw [printAll, bind_run hs, argTokens]
    refine ⟨[s], rfl, ?_, rfl⟩
    rwa [String.intercalate_singleton]
  | e :: e' :: es, h => by
    rw [AllReadable] at h
    obtain ⟨s, hs, hts, -⟩ := print_spells hW h.1
    obtain ⟨l, hl, htl, hlen⟩ := printAll_spells hW h.2
    obtain ⟨s', l, rfl⟩ := List.exists_cons_of_length_eq_add_one hlen
    rw [printAll, bind_run hs, bind_run hl, argTokens]
    refine ⟨s :: s' :: l, rfl, ?_, by simpa using hlen⟩
    rw [String.intercalate_cons_cons]
    exact hts.comma htl

end

end Expr

end GpuHistogram.Source
