import TracedHeap.Containers.Basic
import TracedHeap.Text.Quoted

/-!
# Strings

A string holds a text; its elements are the code points of the text.
-/

namespace TracedHeap

open Run

def codePoints (s : String) : List Value := s.toList.map fun c => .ofCount c.toNat

def stringInspect (v : Value) : Run String := do
  match (← heap).read v .text with
  | .ok s => return Text.quote s
  | .error _ => return Text.quote "?"

def stringText (v : Value) : Run String := do
  match (← heap).read v .text with
  | .ok s => return s
  | .error _ => return ""

def stringSequence (r : Runner) (array : Descriptor) (v : Value) : Attempt Value := do
  let s ← Attempt.ask fun h => h.read v .text
  allocate r array (.items (codePoints s))

def stringCopy (r : Runner) (string : Descriptor) (v : Value) : Attempt Value := do
  let s ← Attempt.ask fun h => h.read v .text
  allocate r string (.text s)

def stringGet (v index : Value) : Attempt Value :=
  Attempt.ask fun h => do elementAt (codePoints (← h.read v .text)) index

/-- A string is equal to whatever holds the same text. -/
def stringEqual (v other : Value) : Run Bool := do
  let h ← heap
  match h.read v .text, h.read other .text with
  | .ok s, .ok t => return s == t
  | _, _ => return false

def stringLength (v : Value) : Run Nat := do
  match (← heap).read v .text with
  | .ok s => return s.length
  | .error _ => return 0

end TracedHeap
