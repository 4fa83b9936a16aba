import TracedHeap.Containers.Basic

/-!
# Quotations

A quotation holds words to be executed later.
-/

namespace TracedHeap

open Run

def quotationInspect (r : Runner) (v : Value) : Run String :=
  guardInspect v "[: ... ;]" do
    match (← heap).read v .words with
    | .ok [] => return "[: ;]"
    | .ok words => return "[: " ++ (← inspectAll r words) ++ " ;]"
    | .error _ => return "[: ? ;]"

def callEach (r : Runner) : List Value → Attempt Unit
  | [] => pure ()
  | v :: rest => do
    call r v
    callEach r rest

def quotationCall (r : Runner) (v : Value) : Attempt Unit := do
  match (← heap).read v .words with
  | .ok words => callEach r words
  | .error _ => pure ()

def quotationGet (v index : Value) : Attempt Value :=
  Attempt.ask fun h => do elementAt (← h.read v .words) index

def quotationLength (v : Value) : Run Nat := do
  match (← heap).read v .words with
  | .ok words => return words.length
  | .error _ => return 0

def quotationMark (v : Value) : Run Unit :=
  markParts .quotation v fun h => h.read v .words

end TracedHeap
