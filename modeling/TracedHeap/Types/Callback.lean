import TracedHeap.Error
import TracedHeap.Script.Syntax

/-!
# Callbacks

A callback is what a type defines for one behavior.  Callbacks are data: a routine of one of the
container types, or a script.  Their type says for which behavior they can be used, so a table
cannot hold a callback in the wrong place.

* `Behavior.Args`, `Behavior.Reply`   what a callback of a behavior takes and gives;
* `Routine`                           the routines of the container types;
* `Callback`                          a routine or a script;
* `DispatchTable`                     the callbacks of a type, at most one for each behavior.
-/

namespace TracedHeap

namespace Behavior

/-- The arguments of a callback: the receiver first, except that `free` takes the payload of an
instance that is gone already. -/
@[reducible]
def Args : Behavior → Type
  | get => Value × Value
  | set => Value × Value × Value
  | equal => Value × Value
  | free => Payload
  | _ => Value

@[reducible]
def Reply : Behavior → Type
  | inspect | toText | dump => String
  | toSequence | copy | get => Except Error Value
  | set | call => Except Error Unit
  | equal => Bool
  | length => Nat
  | mark | free => Unit

end Behavior

/-- The routines of the container types.  A routine that allocates carries the type of the
instances it makes. -/
inductive Routine : Behavior → Type where
  | arrayInspect : Routine .inspect
  | listInspect : Routine .inspect
  | stringInspect : Routine .inspect
  | tableInspect : Routine .inspect
  | quotationInspect : Routine .inspect
  | stringText : Routine .toText
  | arraySequence : Routine .toSequence
  | stringSequence (array : Descriptor) : Routine .toSequence
  | tableSequence (array : Descriptor) : Routine .toSequence
  | arrayCopy (array : Descriptor) : Routine .copy
  | stringCopy (string : Descriptor) : Routine .copy
  | tableCopy (table : Descriptor) : Routine .copy
  | arrayGet : Routine .get
  | stringGet : Routine .get
  | tableGet : Routine .get
  | quotationGet : Routine .get
  | arraySet : Routine .set
  | tableSet : Routine .set
  | arrayEqual : Routine .equal
  | stringEqual : Routine .equal
  | arrayLength : Routine .length
  | stringLength : Routine .length
  | tableLength : Routine .length
  | quotationLength : Routine .length
  | arrayMark : Routine .mark
  | tableMark : Routine .mark
  | quotationMark : Routine .mark
  | quotationCall : Routine .call

inductive Callback (b : Behavior) where
  | routine (r : Routine b)
  | script (s : Script)

structure DispatchTable where
  entry : (b : Behavior) → Option (Callback b)

namespace DispatchTable

def empty : DispatchTable := ⟨fun _ => none⟩

def install (t : DispatchTable) (b : Behavior) (c : Callback b) : DispatchTable :=
  ⟨fun b' => if h : b = b' then some (h ▸ c) else t.entry b'⟩

@[simp]
theorem entry_empty (b : Behavior) : empty.entry b = none := rfl

@[simp]
theorem entry_install_self (t : DispatchTable) (b : Behavior) (c : Callback b) :
    (t.install b c).entry b = some c := by
  simp [install]

theorem entry_install_of_ne {b b' : Behavior} (t : DispatchTable) (c : Callback b)
    (h : b ≠ b') : (t.install b c).entry b' = t.entry b' := by
  simp [install, h]

def defined (t : DispatchTable) : List Behavior :=
  Behavior.all.filter fun b => (t.entry b).isSome

theorem mem_defined {t : DispatchTable} {b : Behavior} :
    b ∈ t.defined ↔ (t.entry b).isSome := by
  simp [defined, Behavior.mem_all]

end DispatchTable

end TracedHeap
