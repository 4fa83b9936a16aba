import TracedHeap.Containers.Quotation
import TracedHeap.Containers.Sequence
import TracedHeap.Containers.String
import TracedHeap.Containers.Table

/-!
# The container types

* `Routine.run`          what each routine does;
* `registerContainers`   the registration of the five container types.
-/

namespace TracedHeap

open Run

def Routine.run (r : Runner) : {b : Behavior} → Routine b → b.Args → Run b.Reply
  | _, arrayInspect, v => sequenceText r .array v
  | _, listInspect, v => sequenceText r .list v
  | _, stringInspect, v => TracedHeap.stringInspect v
  | _, tableInspect, v => TracedHeap.tableInspect r v
  | _, quotationInspect, v => TracedHeap.quotationInspect r v
  | _, stringText, v => TracedHeap.stringText v
  | _, arraySequence, v => return .ok v
  | _, stringSequence array, v => (TracedHeap.stringSequence r array v).run
  | _, tableSequence array, v => (TracedHeap.tableSequence r array v).run
  | _, arrayCopy array, v => (TracedHeap.arrayCopy r array v).run
  | _, stringCopy string, v => (TracedHeap.stringCopy r string v).run
  | _, tableCopy table, v => (TracedHeap.tableCopy r table v).run
  | _, arrayGet, (v, index) => (TracedHeap.arrayGet v index).run
  | _, stringGet, (v, index) => (TracedHeap.stringGet v index).run
  | _, tableGet, (v, key) => (TracedHeap.tableGet r v key).run
  | _, quotationGet, (v, index) => (TracedHeap.quotationGet v index).run
  | _, arraySet, (v, index, item) => (TracedHeap.arraySet v index item).run
  | _, tableSet, (v, key, item) => (TracedHeap.tableSet r v key item).run
  | _, arrayEqual, (v, other) => TracedHeap.arrayEqual r v other
  | _, stringEqual, (v, other) => TracedHeap.stringEqual v other
  | _, arrayLength, v => TracedHeap.arrayLength v
  | _, stringLength, v => TracedHeap.stringLength v
  | _, tableLength, v => TracedHeap.tableLength v
  | _, quotationLength, v => TracedHeap.quotationLength v
  | _, arrayMark, v => TracedHeap.arrayMark v
  | _, tableMark, v => TracedHeap.tableMark v
  | _, quotationMark, v => TracedHeap.quotationMark v
  | _, quotationCall, v => (TracedHeap.quotationCall r v).run

def installRoutines (d : Descriptor) : List ((b : Behavior) × Routine b) → Run Unit
  | [] => pure ()
  | ⟨b, routine⟩ :: rest => do
    installCallback d b (.routine routine)
    installRoutines d rest

def arrayRoutines (array : Descriptor) : List ((b : Behavior) × Routine b) :=
  [⟨_, .arrayInspect⟩, ⟨_, .arraySequence⟩, ⟨_, .arrayCopy array⟩, ⟨_, .arrayGet⟩,
   ⟨_, .arraySet⟩, ⟨_, .arrayEqual⟩, ⟨_, .arrayLength⟩, ⟨_, .arrayMark⟩]

/-- The routines of lists beside those of arrays. -/
def listRoutines : List ((b : Behavior) × Routine b) := [⟨_, .listInspect⟩]

def stringRoutines (array string : Descriptor) : List ((b : Behavior) × Routine b) :=
  [⟨_, .stringInspect⟩, ⟨_, .stringText⟩, ⟨_, .stringSequence array⟩, ⟨_, .stringCopy string⟩,
   ⟨_, .stringGet⟩, ⟨_, .stringEqual⟩, ⟨_, .stringLength⟩]

def tableRoutines (array table : Descriptor) : List ((b : Behavior) × Routine b) :=
  [⟨_, .tableInspect⟩, ⟨_, .tableSequence array⟩, ⟨_, .tableCopy table⟩, ⟨_, .tableGet⟩,
   ⟨_, .tableSet⟩, ⟨_, .tableLength⟩, ⟨_, .tableMark⟩]

def quotationRoutines : List ((b : Behavior) × Routine b) :=
  [⟨_, .quotationInspect⟩, ⟨_, .quotationCall⟩, ⟨_, .quotationGet⟩, ⟨_, .quotationLength⟩,
   ⟨_, .quotationMark⟩]

def registerContainers : Attempt Containers := do
  let array ← registerType "array" none none
  installRoutines array (arrayRoutines array)
  let list ← registerType "list" none (some array)
  installRoutines list listRoutines
  let string ← registerType "string" none none
  installRoutines string (stringRoutines array string)
  let table ← registerType "table" none none
  installRoutines table (tableRoutines array table)
  let quotation ← registerType "quotation" none none
  installRoutines quotation quotationRoutines
  report (.containersRegistered (← heap).registry.size)
  let containers : Containers := { array, list, string, table, quotation }
  note fun c => { c with containers := some containers }
  return containers

end TracedHeap
