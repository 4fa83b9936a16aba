import TracedHeap.Collector

/-!
# Operations that a type defines

Each operation asks the type of its receiver for a callback and has a fallback for types, and for
immediates, that define none.

* `inspect`, `stringify`, `dump`   the texts of a value;
* `toSequence`                     conversion to a sequence, remembered until the next change;
* `copy`, `getItem`, `setItem`     copies and elements;
* `equal`, `length`                comparison and size;
* `call`                           execution.
-/

namespace TracedHeap

open Run

namespace Heap

/-- The text of a value whose type defines none. -/
def plainText (h : Heap) : Value → String
  | .ref id => "#<" ++ h.typeName (.ref id) ++ s!"@{id.index}>"
  | v => v.render

end Heap

/-- The text of a reference whose instance is gone. -/
def staleText : Value → String
  | .ref id => "#<stale " ++ id.render ++ ">"
  | v => v.render

def inspect (r : Runner) (v : Value) : Run String := do
  let h ← heap
  match h.callback .inspect v with
  | .ok (some c) => r.run .inspect c v
  | .ok none => return h.plainText v
  | .error _ => return staleText v

def stringify (r : Runner) (v : Value) : Run String := do
  match (← heap).callback .toText v with
  | .ok (some c) => r.run .toText c v
  | _ => inspect r v

def dump (r : Runner) (v : Value) : Run String := do
  match (← heap).callback .dump v with
  | .ok (some c) => r.run .dump c v
  | _ => inspect r v

/-- Converts a value inside a frame that keeps the value and the result alive. -/
def convert (r : Runner) (c : Callback .toSequence) (v : Value) : Attempt Value :=
  Attempt.ofRun <| withFrame v do
    match ← r.run .toSequence c v with
    | .error e => return .error e
    | .ok sequence =>
      let _ ← act (.attach sequence)
      return .ok sequence

/-- The sequence a value stands for.  The result of a conversion is remembered, and given again
until the value changes.  A value whose type has no conversion has no sequence. -/
def toSequence (r : Runner) (v : Value) : Attempt Value := do
  match ← Attempt.ask fun h => h.callback .toSequence v with
  | none => return .nil
  | some c =>
    let (_, x) ← Attempt.ask fun h => h.find v
    match x.sequence.current? with
    | some sequence => return sequence
    | none =>
      let sequence ← convert r c v
      Attempt.change v (.remember sequence)
      return sequence

/-- A copy of a value; a value whose type makes none is its own copy. -/
def copy (r : Runner) (v : Value) : Attempt Value := do
  match ← Attempt.ask fun h => h.callback .copy v with
  | some c => Attempt.ofRun (r.run .copy c v)
  | none => return v

def getItem (r : Runner) (v index : Value) : Attempt Value := do
  match ← Attempt.ask fun h => h.callback .get v with
  | some c => Attempt.ofRun (r.run .get c (v, index))
  | none => return .undefined

/-- Sets the element of a value at an index; the sequence remembered for it no longer counts.
The answer is whether the type of the value has elements to set. -/
def setItem (r : Runner) (v index item : Value) : Attempt Bool := do
  match ← Attempt.ask fun h => h.callback .set v with
  | some c =>
    Attempt.ofRun (r.run .set c (v, index, item))
    Attempt.change v .invalidateSequence
    return true
  | none => return false

/-- Whether two values are equal, as the type of the first sees it; else whether they are the
same. -/
def equal (r : Runner) (v other : Value) : Run Bool := do
  match (← heap).callback .equal v with
  | .ok (some c) => r.run .equal c (v, other)
  | _ => return v == other

def length (r : Runner) (v : Value) : Run Nat := do
  match (← heap).callback .length v with
  | .ok (some c) => r.run .length c v
  | _ => return 0

/-- Executes a value inside a frame of its own; a value that cannot be executed is pushed. -/
def call (r : Runner) (v : Value) : Attempt Unit := do
  match ← Attempt.ask fun h => h.callback .call v with
  | some c => Attempt.ofRun (withFrame v (r.run .call c v))
  | none => Attempt.act (.push v)

end TracedHeap
