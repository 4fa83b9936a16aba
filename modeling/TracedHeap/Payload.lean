import TracedHeap.Value

/-!
# Payloads

The data an instance owns.  The heap itself only moves payloads; the routines of a type look
inside, after asking for the kind they expect.

* `Kind`, `Kind.Content`   the kinds of payload and what a payload of each kind holds;
* `Payload`                a payload of any kind;
* `Payload.as?`            the typed view: the content, if the payload is of the kind asked for.
-/

namespace TracedHeap

inductive Kind where
  | items
  | text
  | table
  | words
  | int
  | unit
deriving DecidableEq

namespace Kind

@[reducible]
def Content : Kind → Type
  | items => List Value
  | text => String
  | table => List (Value × Value)
  | words => List Value
  | int => Int64
  | unit => Unit

def typeName : Kind → String
  | items => "alloc::vec::Vec<cinder_memory::value::Value>"
  | text => "alloc::string::String"
  | table => "cinder_collections::table::Table"
  | words => "cinder_collections::quotation::Quotation"
  | int => "i64"
  | unit => "()"

end Kind

/-- The data an instance owns: a sequence of values, a text, the entries of a table in the order
they were added, the words of a quotation, an integer, or nothing. -/
inductive Payload where
  | items (values : List Value)
  | text (s : String)
  | table (entries : List (Value × Value))
  | words (values : List Value)
  | int (n : Int64)
  | unit
deriving DecidableEq

namespace Payload

def kind : Payload → Kind
  | items _ => .items
  | text _ => .text
  | table _ => .table
  | words _ => .words
  | int _ => .int
  | unit => .unit

def of : (k : Kind) → k.Content → Payload
  | .items, xs => items xs
  | .text, s => text s
  | .table, es => table es
  | .words, ws => words ws
  | .int, n => int n
  | .unit, _ => unit

def as? : (k : Kind) → Payload → Option k.Content
  | .items, items xs => some xs
  | .text, text s => some s
  | .table, table es => some es
  | .words, words ws => some ws
  | .int, int n => some n
  | .unit, unit => some ()
  | _, _ => none

@[simp]
theorem kind_of (k : Kind) (c : k.Content) : (of k c).kind = k := by
  cases k <;> rfl

@[simp]
theorem as?_of (k : Kind) (c : k.Content) : as? k (of k c) = some c := by
  cases k <;> rfl

theorem as?_eq_some_iff {k : Kind} {p : Payload} {c : k.Content} :
    as? k p = some c ↔ p = of k c := by
  constructor
  · intro h
    cases k <;> cases p <;> cases h <;> rfl
  · rintro rfl
    exact as?_of k c

end Payload

end TracedHeap
