import TracedHeap.Dispatch

/-!
# What the containers share

* `position`         an index as a position in a sequence;
* `guardInspect`     the text of a container, cut off where the container holds itself;
* `guardCompare`     the comparison of two containers, cut off where it comes back to itself;
* `inspectAll`       the texts of values, one after the other;
* `allEqual`, `findKey`
                     element by element comparison, and the search for a key.
-/

namespace TracedHeap

open Run

/-- An index as a position in a sequence of a length. -/
def position (index : Value) (length : Nat) : Except Error Nat :=
  match index with
  | .int n =>
    if 0 ≤ n.toInt ∧ n.toInt < length then .ok n.toInt.toNat
    else .error (.indexOutOfRange n length)
  | v => .error (.raised ("index " ++ v.render ++ " is not an integer"))

def elementAt (vs : List Value) (index : Value) : Except Error Value := do
  return (vs[← position index vs.length]?).getD .undefined

/-- The text of a container; `placeholder` if its text is being made already. -/
def guardInspect (v : Value) (placeholder : String) (text : Run String) : Run String := do
  if v ∈ (← world).inspecting then
    return placeholder
  note fun c => { c with inspecting := v :: c.inspecting }
  ensuring text (note fun c => { c with inspecting := c.inspecting.tail })

/-- Whether two containers are equal; so they are if they are being compared already. -/
def guardCompare (v other : Value) (verdict : Run Bool) : Run Bool := do
  if (v, other) ∈ (← world).comparing then
    return true
  note fun c => { c with comparing := (v, other) :: c.comparing }
  ensuring verdict (note fun c => { c with comparing := c.comparing.tail })

def inspectEach (r : Runner) : List Value → Run (List String)
  | [] => return []
  | v :: rest => do
    let text ← inspect r v
    return text :: (← inspectEach r rest)

def inspectAll (r : Runner) (vs : List Value) : Run String :=
  return String.intercalate " " (← inspectEach r vs)

/-- Whether values are equal pair by pair, up to the first pair that is not. -/
def allEqual (r : Runner) : List (Value × Value) → Run Bool
  | [] => return true
  | (x, y) :: rest => do
    if ← equal r x y then allEqual r rest else return false

def findKey (r : Runner) (key : Value) : List (Value × Value) → Run (Option Nat)
  | [] => return none
  | (k, _) :: rest => do
    if ← equal r k key then return some 0 else return (← findKey r key rest).map (· + 1)

def markParts (container : Traced) (v : Value) (parts : Heap → Except Error (List Value)) :
    Run Unit := do
  match parts (← heap) with
  | .ok vs => markAll vs
  | .error e => report (.untraced container v e)

end TracedHeap
