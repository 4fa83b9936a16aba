import TracedHeap.Error

/-!
# Events

What the heap reports while it works, apart from the results of its operations.

* `Level`   how important an event is;
* `Event`   the events, `Event.level` the level of each and `Event.render` its line.
-/

namespace TracedHeap

inductive Level where
  | warn
  | debug
  | trace
deriving DecidableEq

def Level.name : Level → String
  | warn => "WARN"
  | debug => "DEBUG"
  | trace => "TRACE"

/-- Why a collection or a teardown is refused. -/
inductive Refusal where
  /-- One is under way. -/
  | collecting
  /-- So many payloads are borrowed. -/
  | borrowed (borrows : Nat)

/-- The containers that trace their payload. -/
inductive Traced where
  | array
  | table
  | quotation

def Traced.parts : Traced → String
  | array => "array elements"
  | table => "table entries"
  | quotation => "quotation words"

inductive Event where
  | frameOverflow (overflow maxDepth : Nat)
  | frameUnderflow
  | unknownInstall (d : Descriptor) (b : Behavior)
  | untraced (container : Traced) (v : Value) (err : Error)
  | containersRegistered (types : Nat)
  | collectionFinished (freed live : Nat) (recycling : Bool)
  | collectionSkipped (why : Refusal)
  | teardownSkipped (why : Refusal)
  | tornDown (freed : Nat)
  | poolGrown (capacity : Nat)
  | registryGrown (capacity : Nat)

namespace Event

def level : Event → Level
  | frameOverflow .. | frameUnderflow | unknownInstall .. | untraced .. => .warn
  | containersRegistered _ | collectionFinished .. | collectionSkipped _ | teardownSkipped _
  | tornDown _ => .debug
  | poolGrown _ | registryGrown _ => .trace

def skipped (request : String) : Refusal → String
  | .collecting => request ++ " requested during a collection; skipped"
  | .borrowed n => request ++ s!" requested while payloads are borrowed; skipped borrows={n}"

def message : Event → String
  | frameOverflow overflow maxDepth =>
    s!"protection frame stack full overflow={overflow} max_depth={maxDepth}"
  | frameUnderflow => "pop_frame called with no protection frame active"
  | unknownInstall d b =>
    "ignoring callback installed on unknown descriptor descriptor=" ++ d.render ++
      " behavior=" ++ b.name
  | untraced container v err =>
    container.parts ++ " not traced value=" ++ v.render ++ " err=" ++ err.message
  | containersRegistered types => s!"container types registered types={types}"
  | collectionFinished freed live recycling =>
    s!"collection finished freed={freed} live={live} recycling={recycling}"
  | collectionSkipped why => skipped "collection" why
  | teardownSkipped why => skipped "teardown" why
  | tornDown freed => s!"heap torn down freed={freed}"
  | poolGrown capacity => s!"instance pool grown capacity={capacity}"
  | registryGrown capacity => s!"registry grown capacity={capacity}"

def render (e : Event) : String := e.level.name ++ " " ++ e.message

end Event

end TracedHeap
