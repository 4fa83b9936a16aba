/-!
# Names of types and of what they can do

* `Descriptor`   the position of a type in the registry;
* `Tag`          a number that names a type outside the registry;
* `Behavior`     the twelve things a type may define, and their order in a dispatch table.
-/

namespace TracedHeap

/-- The position of a type in the registry, registered or not. -/
structure Descriptor where
  index : Nat
deriving DecidableEq

def Descriptor.render (d : Descriptor) : String := s!"#{d.index}"

/-- A number that names a type; no two registered types share one. -/
abbrev Tag := UInt32

inductive Behavior where
  | inspect
  | toText
  | dump
  | toSequence
  | copy
  | get
  | set
  | equal
  | length
  | mark
  | free
  | call
deriving DecidableEq

namespace Behavior

def name : Behavior → String
  | inspect => "inspect"
  | toText => "to-string"
  | dump => "dump"
  | toSequence => "to-sequence"
  | copy => "copy"
  | get => "get"
  | set => "set"
  | equal => "equal"
  | length => "length"
  | mark => "mark"
  | free => "free"
  | call => "call"

def all : List Behavior :=
  [inspect, toText, dump, toSequence, copy, get, set, equal, length, mark, free, call]

theorem mem_all (b : Behavior) : b ∈ all := by
  cases b <;> simp [all]

end Behavior

end TracedHeap
