/-
Lists of numbers in brackets, as messages show them.
-/
namespace GpuHistogram

/-- numbers in brackets, separated by commas -/
def bracketed (l : List Int) : String :=
  "[" ++ ", ".intercalate (l.map toString) ++ "]"

end GpuHistogram
