/-
Names of variables in generated code. A plain name is given by its text alone; a fresh name also carries a symbol
number drawn from a supply, so two fresh names differ even when their texts agree. Plain names come before fresh ones,
plain names are ordered by text and fresh names by symbol.

`fresh` draws the next symbol: a computation in `Fresh` never produces the same fresh name twice.
-/
namespace GpuHistogram

/-- a variable of generated code: its text and, for a fresh name, its symbol -/
structure Name where
  text : String
  symbol : Option Nat := none
  deriving DecidableEq, Inhabited

/-- the state is the next unused symbol -/
abbrev Fresh := StateM Nat

/-- a name distinct from every name made before -/
def fresh (text : String) : Fresh Name :=
  fun next => (⟨text, some next⟩, next + 1)

namespace Name

/-- a name known by its text alone -/
def plain (text : String) : Name :=
  ⟨text, none⟩

/-- a new name with the text of an old one -/
def refresh (n : Name) : Fresh Name :=
  fresh n.text

/-- the text followed by the symbol, which tells fresh names of one text apart -/
def withSymbol (n : Name) : String :=
  match n.symbol with
  | some k => n.text ++ "_" ++ toString k
  | none => n.text

/-- plain names first, by text, then fresh names by symbol -/
def compare (a b : Name) : Ordering :=
  match a.symbol, b.symbol with
  | some j, some k => Ord.compare j k
  | some _, none => .gt
  | none, some _ => .lt
  | none, none => Ord.compare a.text b.text

instance : Ord Name := ⟨Name.compare⟩

instance : ToString Name := ⟨Name.text⟩

theorem withSymbol_plain (s : String) : (plain s).withSymbol = s := rfl

end Name

theorem fresh_run (text : String) (next : Nat) : (fresh text).run next = (⟨text, some next⟩, next + 1) := rfl

end GpuHistogram
