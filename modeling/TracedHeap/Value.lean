/-!
# Values

A value is an immediate (an integer, a boolean, `nil`, `undefined`) or a reference to an
instance of the heap.

* `InstanceId`   the name of an instance: a slot of the pool and the slot's generation;
* `Value`        the values themselves;
* `Value.render` their text, `Value.truthy` their truth, `Value.immediateType?` the name of the
                 type of an immediate.

A generation tells the successive occupants of one slot apart, so a reference whose instance is
gone does not name the next occupant.
-/

namespace TracedHeap

/-- The name of an instance: a slot of the pool, and which of the slot's occupants is meant. -/
@[ext]
structure InstanceId where
  index : Nat
  generation : UInt32
deriving DecidableEq

def InstanceId.render (id : InstanceId) : String :=
  s!"{id.index}.{id.generation}"

inductive Value where
  | int (n : Int64)
  | bool (b : Bool)
  | nil
  | undefined
  | ref (id : InstanceId)
deriving DecidableEq

namespace Value

def render : Value → String
  | int n => toString n.toInt
  | bool true => "true"
  | bool false => "false"
  | nil => "nil"
  | undefined => "undefined"
  | ref id => "#<" ++ id.render ++ ">"

/-- Zero, `false`, `nil` and `undefined` are false; all else is true. -/
def truthy : Value → Bool
  | int n => n != 0
  | bool b => b
  | nil => false
  | undefined => false
  | ref _ => true

def instance? : Value → Option InstanceId
  | ref id => some id
  | _ => none

def int? : Value → Option Int64
  | int n => some n
  | _ => none

def bool? : Value → Option Bool
  | bool b => some b
  | _ => none

def immediateType? : Value → Option String
  | int _ => some "integer"
  | bool _ => some "boolean"
  | nil => some "nil"
  | undefined => some "undefined"
  | ref _ => none

def ofCount (n : Nat) : Value := .int (Int64.ofNat n)

end Value

end TracedHeap
