/-!
# Configuration

The sizes and thresholds a heap is created with.

* `Config`        the settings;
* `Config.Fault`  the setting that must be positive and is not;
* `Config.fault?` the first fault of a configuration, in the order the settings are checked.
-/

namespace TracedHeap

structure Config where
  /-- How many slots the pool gains at a time. -/
  poolIncrement : Nat := 256
  /-- How many types the registry makes room for at a time. -/
  registryIncrement : Nat := 32
  /-- How many live instances start the first automatic collection. -/
  highWaterMark : Nat := 10000
  /-- How many free slots a collection must leave before slots are used again. -/
  reuseThreshold : Nat := 64
  /-- How many protection frames are kept; frames pushed beyond are only counted. -/
  maxFrameDepth : Nat := 1024
  /-- Whether allocation may start a collection. -/
  collectionEnabled : Bool := true
deriving DecidableEq

namespace Config

inductive Fault where
  | poolIncrement
  | registryIncrement
  | highWaterMark
  | maxFrameDepth
deriving DecidableEq

def Fault.message : Fault → String
  | poolIncrement => "pool_increment must be positive"
  | registryIncrement => "registry_increment must be positive"
  | highWaterMark => "high_water_mark must be positive"
  | maxFrameDepth => "max_frame_depth must be positive"

/-- The first setting that is zero though it must be positive. -/
def fault? (c : Config) : Option Fault :=
  if c.poolIncrement = 0 then some .poolIncrement
  else if c.registryIncrement = 0 then some .registryIncrement
  else if c.highWaterMark = 0 then some .highWaterMark
  else if c.maxFrameDepth = 0 then some .maxFrameDepth
  else none

end Config

end TracedHeap
