import TracedHeap.Config
import TracedHeap.Payload
import TracedHeap.Types.Basic

/-!
# Errors

The causes for which an operation on the heap is refused, and the text of each.
-/

namespace TracedHeap

/-- Why an operation was refused. -/
inductive Error where
  /-- An instance was needed and the value is an immediate. -/
  | notAnInstance (v : Value)
  /-- The instance a reference names is gone. -/
  | stale (id : InstanceId)
  /-- The payload is not of the kind asked for. -/
  | payloadType (id : InstanceId) (expected : Kind)
  /-- The payload is in use in a way that excludes this one. -/
  | payloadBorrowed (id : InstanceId)
  | stackUnderflow
  | duplicateTag (tag : Tag)
  | unknownDescriptor (d : Descriptor)
  | indexOutOfRange (index : Int64) (length : Nat)
  | config (fault : Config.Fault)
  /-- An error a routine or a script raised itself. -/
  | raised (message : String)
deriving DecidableEq

def Error.message : Error → String
  | notAnInstance v => v.render ++ " is not an instance"
  | stale id => "instance " ++ id.render ++ " no longer exists"
  | payloadType id expected =>
    "payload of instance " ++ id.render ++ " is not a " ++ expected.typeName
  | payloadBorrowed id => "payload of instance " ++ id.render ++ " is already borrowed"
  | stackUnderflow => "operand stack underflow"
  | duplicateTag tag => s!"type tag {tag} is already registered"
  | unknownDescriptor d => "unknown type descriptor " ++ d.render
  | indexOutOfRange index length =>
    "index " ++ (Value.int index).render ++ s!" out of range for length {length}"
  | config fault => "invalid heap configuration: " ++ fault.message
  | raised message => message

end TracedHeap
