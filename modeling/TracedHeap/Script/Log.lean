import TracedHeap.Stats

/-!
# Results and the log

* `Reply`         what an operation answers, by the shape of the answer;
* `Reply.bound?`  the value a variable takes from it;
* `Entry`         what the log holds: events of the heap, callbacks that start, steps that end.
-/

namespace TracedHeap

structure TypeInfo where
  name : String
  tag : Tag
  base : Option Descriptor
  behaviors : List Behavior
deriving DecidableEq

inductive Reply where
  | done
  | value (v : Value)
  | flag (b : Bool)
  | count (n : Nat)
  | optional (v : Option Value)
  | values (vs : List Value)
  | text (s : String)
  | texts (ss : List String)
  | descriptor (d : Option Descriptor)
  | position (n : Option Nat)
  | payload (p : Payload)
  | typeInfo (info : Option TypeInfo)
  | stats (s : Stats)
  | config (c : Config)
  /-- All that can be told of a value by itself. -/
  | facts (v : Value)
deriving DecidableEq

/-- The value a variable takes from a result: values, flags and counts can be bound. -/
def Reply.bound? : Reply → Option Value
  | value v => some v
  | flag b => some (.bool b)
  | count n => some (.ofCount n)
  | _ => none

inductive Arguments where
  | values (vs : List Value)
  | payload (p : Payload)

inductive Entry where
  | event (e : Event)
  | started (id : String) (args : Arguments)
  | finished (step : String) (outcome : Except Error Reply)

def Entry.shown (details : Bool) : Entry → Bool
  | event e => details || e.level == .warn
  | _ => true

end TracedHeap
