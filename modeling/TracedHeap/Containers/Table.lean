import TracedHeap.Containers.Basic

/-!
# Tables

A table maps keys to values, in the order in which the keys were added.  Keys are compared by
`equal`.
-/

namespace TracedHeap

open Run

def inspectEntries (r : Runner) : List (Value × Value) → Run (List String)
  | [] => return []
  | (k, v) :: rest => do
    let text ← inspectAll r [k, v]
    return text :: (← inspectEntries r rest)

def tableInspect (r : Runner) (v : Value) : Run String :=
  guardInspect v "\x7b...\x7d" do
    match (← heap).read v .table with
    | .ok entries =>
      return "\x7b" ++ String.intercalate ", " (← inspectEntries r entries) ++ "\x7d"
    | .error _ => return "\x7b?\x7d"

def tableSequence (r : Runner) (array : Descriptor) (v : Value) : Attempt Value := do
  let entries ← Attempt.ask fun h => h.read v .table
  allocate r array (.items (entries.map Prod.fst))

def tableCopy (r : Runner) (table : Descriptor) (v : Value) : Attempt Value := do
  let entries ← Attempt.ask fun h => h.read v .table
  allocate r table (.table entries)

/-- The value of a key; a key that is not there has none. -/
def tableGet (r : Runner) (v key : Value) : Attempt Value := do
  let entries ← Attempt.ask fun h => h.read v .table
  match ← (findKey r key entries : Run (Option Nat)) with
  | some n => return ((entries[n]?).map Prod.snd).getD .undefined
  | none => return .undefined

/-- Entries with `item` as the value of the entry at `found`, or with a new entry at the end. -/
def putEntry (entries : List (Value × Value)) (found : Option Nat) (key item : Value) :
    List (Value × Value) :=
  match found.bind fun n => (entries[n]?).map fun e => (n, e.1) with
  | some (n, k) => entries.set n (k, item)
  | none => entries ++ [(key, item)]

def tableSet (r : Runner) (v key item : Value) : Attempt Unit := do
  let entries ← Attempt.ask fun h => h.read v .table
  let found ← (findKey r key entries : Run (Option Nat))
  writePayload v .table fun entries => .ok (putEntry entries found key item)

def tableLength (v : Value) : Run Nat := do
  match (← heap).read v .table with
  | .ok entries => return entries.length
  | .error _ => return 0

def tableMark (v : Value) : Run Unit :=
  markParts .table v fun h => (h.read v .table).map fun entries =>
    entries.flatMap fun e => [e.1, e.2]

end TracedHeap
