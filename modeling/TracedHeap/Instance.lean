import TracedHeap.Error

/-!
# Instances

What the heap keeps for an instance beside its payload.

* `SequenceCache`   the result of the last conversion to a sequence, and whether it still counts;
* `Borrow`, `Access` who is using the payload, and in which way;
* `Properties`      named values attached to an instance;
* `Header`          the pins that keep an instance alive, and what is attached to it;
* `Instance`        a header, a type and a payload with its uses;
* `Change`          what can be done to an instance while it lives.
-/

namespace TracedHeap

/-- The remembered result of converting an instance to a sequence. -/
inductive SequenceCache where
  | empty
  | current (v : Value)
  /-- The instance has changed since; the sequence is still held on to. -/
  | outdated (v : Value)
deriving DecidableEq

namespace SequenceCache

/-- The sequence held, whether it counts or not. -/
def held? : SequenceCache → Option Value
  | empty => none
  | current v => some v
  | outdated v => some v

/-- The sequence, if it still counts. -/
def current? : SequenceCache → Option Value
  | current v => some v
  | _ => none

def invalidate : SequenceCache → SequenceCache
  | current v => outdated v
  | c => c

end SequenceCache

/-- Who is using a payload: any number of readers, or one writer. -/
inductive Borrow where
  | shared (readers : Nat)
  | exclusive
deriving DecidableEq

namespace Borrow

def readable : Borrow → Bool
  | shared _ => true
  | exclusive => false

def writable : Borrow → Bool
  | shared 0 => true
  | _ => false

end Borrow

inductive Access where
  | read
  | write
deriving DecidableEq

namespace Access

def allowed : Access → Borrow → Bool
  | read, b => b.readable
  | write, b => b.writable

def start : Access → Borrow → Borrow
  | read, .shared n => .shared (n + 1)
  | read, .exclusive => .exclusive
  | write, _ => .exclusive

def stop : Access → Borrow → Borrow
  | read, .shared n => .shared (n - 1)
  | read, .exclusive => .exclusive
  | write, _ => .shared 0

end Access

/-- Named values, each name at most once. -/
structure Properties where
  entries : List (String × Value) := []
deriving DecidableEq

namespace Properties

def get? (p : Properties) (key : String) : Option Value := p.entries.lookup key

def erase (p : Properties) (key : String) : Properties :=
  ⟨p.entries.filter fun e => e.1 != key⟩

def set (p : Properties) (key : String) (v : Value) : Properties :=
  ⟨(key, v) :: (p.erase key).entries⟩

/-- The names in ascending order of their code points. -/
def keys (p : Properties) : List String :=
  (p.entries.map Prod.fst).mergeSort fun a b => decide (a ≤ b)

/-- The values.  Their order is unspecified, as that of a hash map is; no theorem depends on it. -/
def values (p : Properties) : List Value := p.entries.map Prod.snd

@[simp]
theorem get?_set_self (p : Properties) (key : String) (v : Value) :
    (p.set key v).get? key = some v := by
  simp [get?, set]

theorem get?_erase_of_ne {key other : String} (p : Properties) (h : other ≠ key) :
    (p.erase key).get? other = p.get? other := by
  obtain ⟨entries⟩ := p
  simp only [get?, erase]
  induction entries with
  | nil => rfl
  | cons e rest ih =>
    obtain ⟨k, v⟩ := e
    by_cases hk : k = key
    · have ho : (other == key) = false := by simpa using h
      subst hk
      simp [List.lookup_cons, ih, ho]
    · simp [hk, List.lookup_cons, ih]

theorem get?_set_of_ne {key other : String} (p : Properties) (v : Value) (h : other ≠ key) :
    (p.set key v).get? other = p.get? other := by
  have ho : (other == key) = false := by simpa using h
  rw [← get?_erase_of_ne p h]
  simp [get?, set, List.lookup_cons, ho]

end Properties

/-- What is kept for an instance whatever its type. -/
structure Header where
  /-- Found by the collection under way, or marked by hand. -/
  marked : Bool := false
  permanent : Bool := false
  isProtected : Bool := false
  /-- How many protections are not lifted yet. -/
  protections : Nat := 0
  sequence : SequenceCache := .empty
  properties : Properties := {}
  debugHook : Option Value := none
  cursor : Nat := 0

structure Instance extends Header where
  descriptor : Descriptor
  payload : Payload
  borrow : Borrow := .shared 0

namespace Instance

/-- The number of protections is kept in 32 bits and stops there. -/
def maxProtections : Nat := UInt32.size - 1

def pinned (x : Instance) : Bool := x.marked || x.isProtected || x.permanent

/-- The values an instance holds on to whatever its type: its sequence, its hook, its
properties. -/
def children (x : Instance) : List Value :=
  x.sequence.held?.toList ++ x.debugHook.toList ++ x.properties.values

def protect (x : Instance) : Instance :=
  { x with protections := min (x.protections + 1) maxProtections, isProtected := true }

/-- One protection less; with the last one the instance is no longer protected. -/
def unprotect (x : Instance) : Instance :=
  { x with
    protections := x.protections - 1
    isProtected := if x.protections - 1 = 0 then false else x.isProtected }

/-- The position of the cursor in a sequence of a length, and the instance with the cursor one
further, round the end. -/
def advance (x : Instance) (len : Nat) : Nat × Instance :=
  if len = 0 then (0, { x with cursor := 0 })
  else (x.cursor % len, { x with cursor := (x.cursor % len + 1) % len })

end Instance

inductive Change where
  | unmark
  | protect
  | unprotect
  | makePermanent
  | setProperty (key : String) (item : Value)
  | removeProperty (key : String)
  /-- Sets the hook; `nil` removes it. -/
  | setDebugHook (hook : Value)
  | advanceCursor (len : Nat)
  | resetCursor
  /-- The sequence remembered no longer counts. -/
  | invalidateSequence
  | remember (sequence : Value)
  | write (p : Payload)

namespace Change

def apply : Change → Instance → Instance
  | unmark, x => { x with marked := false }
  | protect, x => x.protect
  | unprotect, x => x.unprotect
  | makePermanent, x => { x with permanent := true }
  | setProperty key item, x => { x with properties := x.properties.set key item }
  | removeProperty key, x => { x with properties := x.properties.erase key }
  | setDebugHook hook, x => { x with debugHook := if hook = .nil then none else some hook }
  | advanceCursor len, x => (x.advance len).2
  | resetCursor, x => { x with cursor := 0 }
  | invalidateSequence, x => { x with sequence := x.sequence.invalidate }
  | remember sequence, x => { x with sequence := .current sequence }
  | write p, x => { x with payload := p }

end Change

end TracedHeap
