/-
Choosing identifiers when code is printed. A name is printed as its text when that is still free, else with its symbol,
else with a suffix of five or more characters; what it is printed as first it keeps. Reserved strings are never chosen.
Since a new identifier is free when it is chosen, two names never share one.

The state also carries the indentation of the line being printed.
-/
import GpuHistogram.Bindings

namespace GpuHistogram

/-- what has been chosen so far while printing -/
structure Identifiers where
  /-- the strings that may not be chosen any more -/
  taken : List String := []
  /-- the identifier of each name printed so far -/
  chosen : Bindings String := ∅
  /-- the number of spaces in front of a line -/
  indent : Nat := 0
  deriving Inhabited

/-- a computation that prints -/
abbrev Printer := StateM Identifiers

namespace Identifiers

/-- how much deeper a block is indented -/
def indentStep : Nat := 2

/-- never choose a string -/
def reserve (ids : Identifiers) (s : String) : Identifiers :=
  { ids with taken := s :: ids.taken }

def reserveAll (ids : Identifiers) (l : List String) : Identifiers :=
  l.foldl reserve ids

def deeper (ids : Identifiers) : Identifiers :=
  { ids with indent := ids.indent + indentStep }

def shallower (ids : Identifiers) : Identifiers :=
  { ids with indent := ids.indent - indentStep }

/-- the spaces in front of a line -/
def margin (ids : Identifiers) : String :=
  String.ofList (List.replicate ids.indent ' ')

/-- a number with at least five digits -/
def suffix (k : Nat) : String :=
  let digits := Nat.toDigits 10 k
  String.ofList (List.replicate (5 - digits.length) '0' ++ digits)

/-- a text with the first suffix that is free; one of the first `taken.length + 1` is -/
def freeWithSuffix (taken : List String) (text : String) : String :=
  let candidates := (List.range (taken.length + 1)).map fun k => text ++ "_" ++ suffix k
  (candidates.find? (· ∉ taken)).getD text

/-- the identifier for a name that has none yet -/
def candidate (taken : List String) (n : Name) : String :=
  if n.text ∉ taken then n.text
  else if n.withSymbol ∉ taken then n.withSymbol
  else freeWithSuffix taken n.text

/-- the identifier of a name, chosen now if it has none -/
def choose (ids : Identifiers) (n : Name) : String × Identifiers :=
  match ids.chosen.get? n with
  | some s => (s, ids)
  | none =>
    let s := candidate ids.taken n
    (s, { ids with taken := s :: ids.taken, chosen := ids.chosen.set n s })

theorem choose_of_chosen {ids : Identifiers} {n : Name} {s : String} (h : ids.chosen.get? n = some s) :
    ids.choose n = (s, ids) := by
  simp [choose, h]

end Identifiers

namespace Printer

/-- print a name -/
def name (n : Name) : Printer String :=
  fun ids => ids.choose n

/-- the spaces in front of the current line -/
def margin : Printer String :=
  return (← get).margin

/-- print one level further in -/
def inner {α : Type} (p : Printer α) : Printer α := do
  modify Identifiers.deeper
  let a ← p
  modify Identifiers.shallower
  return a

/-- print lines one level further in -/
def block (lines : Printer (List String)) : Printer String :=
  return "\n".intercalate (← inner lines)

/-- print from left to right, with a separator in between -/
def separated {α : Type} (sep : String) (p : α → Printer String) (l : List α) : Printer String :=
  return sep.intercalate (← l.mapM p)

/-- the text printed from nothing -/
def text (p : Printer String) : String :=
  (p.run {}).1

end Printer

end GpuHistogram
