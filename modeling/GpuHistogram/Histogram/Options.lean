/-
What the compilation of a histogram may be told in advance, and the record of the stages it went through. Everything is
optional: a size that is not fixed is left to be chosen when the program is run, and limits of the device that are not
known are asked for then.
-/
import GpuHistogram.Code.Basic

namespace GpuHistogram

/-- the limits of a device that matter here -/
structure DeviceLimits where
  /-- the most threads a group may have -/
  maxGroupSize : Int := 1024
  /-- the threads of a group and the groups of a launch when nothing else is asked for -/
  defaultGroupSize : Int := 256
  defaultGroupCount : Int := 128
  /-- the bytes of local memory of a group -/
  maxLocalMemory : Int := 49152
  /-- the bytes of local memory a thread may use without idling others -/
  localMemoryPerThread : Int := 48
  deriving DecidableEq, Inhabited

/-- the default of a class of sizes -/
def DeviceLimits.default (d : DeviceLimits) : SizeKind → Int
  | .groupSize => d.defaultGroupSize
  | .groupCount => d.defaultGroupCount

/-- the limit that a capability asks for -/
def DeviceLimits.get (d : DeviceLimits) : Capability → Int
  | .maxGroupSize => d.maxGroupSize
  | .maxLocalMemory => d.maxLocalMemory
  | .localMemoryPerThread => d.localMemoryPerThread

/-- what is fixed before the program is run -/
structure Options where
  /-- whether the stages are to be shown -/
  showStages : Bool := false
  /-- the number of locks in global memory that buckets are guarded by -/
  lockCount : Int := 10000
  groupSize : Option Int := none
  groupCount : Option Int := none
  device : Option DeviceLimits := none
  deriving DecidableEq, Inhabited

/-- the stages of one compilation that are over, in order -/
structure StageRecord where
  label : String
  finished : List String := []

/-- the log after one more stage -/
def StageRecord.finish (l : StageRecord) (stage : String) : StageRecord :=
  { l with finished := l.finished ++ [stage] }

end GpuHistogram
