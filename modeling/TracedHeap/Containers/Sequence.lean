import TracedHeap.Containers.Basic

/-!
# Arrays and lists

Both hold a sequence of values.  A list is an array with round brackets.

* `Brackets`         what stands around the elements;
* `sequenceText`     the text of an array or a list;
* `arrayCopy`, `arrayGet`, `arraySet`, `arrayEqual`, `arrayLength`, `arrayMark`
                     the routines.
-/

namespace TracedHeap

open Run

/-- What stands around the elements of a sequence. -/
structure Brackets where
  left : String
  right : String
deriving DecidableEq

def Brackets.array : Brackets := ⟨"[", "]"⟩

def Brackets.list : Brackets := ⟨"(", ")"⟩

def Brackets.around (b : Brackets) (text : String) : String := b.left ++ text ++ b.right

def sequenceText (r : Runner) (b : Brackets) (v : Value) : Run String :=
  guardInspect v (b.around "...") do
    match (← heap).read v .items with
    | .ok items => return b.around (← inspectAll r items)
    | .error _ => return b.around "?"

def arrayCopy (r : Runner) (array : Descriptor) (v : Value) : Attempt Value := do
  let items ← Attempt.ask fun h => h.read v .items
  let d := (← heap).descriptorOf v
  allocate r (d.getD array) (.items items)

def arrayGet (v index : Value) : Attempt Value :=
  Attempt.ask fun h => do elementAt (← h.read v .items) index

/-- Sets an element; the index just after the last one appends. -/
def arraySet (v index item : Value) : Attempt Unit :=
  writePayload v .items fun items =>
    if index = .ofCount items.length then .ok (items ++ [item])
    else (position index items.length).map fun n => items.set n item

/-- Arrays are equal if they are of the same type and their elements are equal in order. -/
def arrayEqual (r : Runner) (v other : Value) : Run Bool := do
  if v = other then return true
  let h ← heap
  if h.descriptorOf v ≠ h.descriptorOf other then return false
  guardCompare v other do
    let h ← heap
    match h.read v .items, h.read other .items with
    | .ok xs, .ok ys => if xs.length = ys.length then allEqual r (xs.zip ys) else return false
    | _, _ => return false

def arrayLength (v : Value) : Run Nat := do
  match (← heap).read v .items with
  | .ok items => return items.length
  | .error _ => return 0

def arrayMark (v : Value) : Run Unit :=
  markParts .array v fun h => h.read v .items

end TracedHeap
