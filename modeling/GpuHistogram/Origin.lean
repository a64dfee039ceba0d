/-
Where a piece of generated code comes from, and what is reported when something is wrong with it. An origin is a path of
labels, outermost first, such as the histogram, the operator and the stage that produced the code; the empty path is the
unknown origin. A diagnostic names its kind and ends its message with the origin when that is known.
-/
namespace GpuHistogram

/-- a path of labels, outermost first -/
structure Origin where
  labels : List String := []
  deriving DecidableEq, Inhabited

namespace Origin

/-- the origin of code that nothing is known about -/
def unknown : Origin := ⟨[]⟩

/-- a path of one label -/
def ofLabel (label : String) : Origin := ⟨[label]⟩

/-- the path one level further in -/
def within (o : Origin) (label : String) : Origin := ⟨o.labels ++ [label]⟩

/-- whether nothing is known -/
def isUnknown (o : Origin) : Bool := o.labels.isEmpty

/-- the more detailed of two origins, the first when both are equally deep -/
def deeper (l r : Origin) : Origin :=
  if r.labels.length ≤ l.labels.length then l else r

/-- the labels joined from the outside in -/
def text (o : Origin) : String :=
  " > ".intercalate o.labels

/-- a message followed by where it applies, when that is known -/
def annotate (o : Origin) (message : String) : String :=
  if o.isUnknown then message else message ++ "\n\nIn " ++ o.text

end Origin

/-- who is to blame: the description compiled, an earlier stage, or the program being run -/
inductive ErrorKind where
  | compilation
  | internal
  | runtime
  deriving DecidableEq

/-- the heading of a kind of error -/
def ErrorKind.text : ErrorKind → String
  | .compilation => "Compilation error"
  | .internal => "Internal compiler error"
  | .runtime => "Runtime error"

/-- an error as it is reported -/
structure Diagnostic where
  kind : ErrorKind
  message : String
  deriving DecidableEq

/-- the heading and the message on one line -/
def Diagnostic.text (d : Diagnostic) : String :=
  d.kind.text ++ ": " ++ d.message

/-- something that went wrong, and the code it went wrong in -/
structure Located (cause : Type) where
  cause : cause
  origin : Origin

end GpuHistogram
