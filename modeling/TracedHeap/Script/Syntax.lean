import TracedHeap.Payload
import TracedHeap.Types.Basic

/-!
# Scripts

The programs that drive a heap, as data.  A script is a list of steps.  Most steps are one
operation on the heap; the others hold scripts of their own, which run inside the operation or
are installed as callbacks.

* `Operand`, `TypeRef`, `Literal`   how a step names a value, a type and a new payload;
* `Edit`                            a change to a borrowed payload;
* `Op`                              the operations without a script inside;
* `Part`, `Answer`                  what a scripted callback answers once its body has run;
* `Step`, `Script`                  steps, and the scripts that callbacks run.
-/

namespace TracedHeap

inductive Operand where
  | const (v : Value)
  /-- An argument of the innermost running callback, else a global variable. -/
  | var (name : String)
  /-- No value at all; to ask for it is an error. -/
  | malformed
deriving DecidableEq

inductive TypeRef where
  | index (d : Descriptor)
  | named (name : String)
deriving DecidableEq

inductive Literal where
  | items (operands : List Operand)
  | text (s : String)
  | table (entries : List (Operand × Operand))
  | words (operands : List Operand)
  | int (n : Int64)
  | unit

/-- A change to a payload.  Of the fields, only those that fit the kind of the payload count, and
they apply in the order `push`, `append`, `put`, `add`, `pop`, `clear`. -/
structure Edit where
  push : Option Operand := none
  append : Option String := none
  put : Option (Operand × Operand) := none
  add : Option Int64 := none
  pop : Bool := false
  clear : Bool := false

inductive Pin where
  | mark
  | unmark
  | protect
  | unprotect
  | makePermanent
deriving DecidableEq

def Pin.name : Pin → String
  | mark => "mark"
  | unmark => "unmark"
  | protect => "protect"
  | unprotect => "unprotect"
  | makePermanent => "make_permanent"

inductive Query where
  | contains
  | isMarked
  | isProtected
  | isPermanent
deriving DecidableEq

def Query.name : Query → String
  | contains => "contains"
  | isMarked => "is_marked"
  | isProtected => "is_protected"
  | isPermanent => "is_permanent"

inductive View where
  | inspect
  | stringify
  | dump
deriving DecidableEq

def View.name : View → String
  | inspect => "inspect"
  | stringify => "stringify"
  | dump => "dump"

inductive Op where
  -- types
  | register (name : String) (tag : Option Tag)
  | derive (name : String) (tag : Option Tag) (base : TypeRef)
  | typeInfo (type : TypeRef)
  | typeNamed (name : String)
  | typeWithTag (tag : Tag)
  | typeCount
  | descriptorOf (v : Operand)
  | typeName (v : Operand)
  | behaviorsOf (v : Operand)
  -- instances and payloads
  | alloc (payload : Literal) (type : TypeRef)
  | array (items : List Operand)
  | list (items : List Operand)
  | string (text : String)
  | table
  | quotation (words : List Operand)
  | payloadIs (v : Operand) (kind : Kind)
  | tableFind (key v : Operand)
  | tableKeys (v : Operand)
  -- operand stack
  | push (v : Operand)
  | pop
  | peek
  | pick (n : Nat)
  | stackDepth
  | truncateStack (n : Nat)
  | clearStack
  | stack
  -- frames
  | pushFrame (caller : Operand)
  | popFrame
  | frameDepth
  | frameCaller (level : Nat)
  | resyncFrames (depth : Nat)
  | attach (v : Operand)
  | frameInstances (level : Nat)
  -- pins
  | pin (p : Pin) (v : Operand)
  | query (q : Query) (v : Operand)
  | protectedInstances
  | permanentInstances
  -- collector
  | collect
  | teardown
  | setCollectionEnabled (on : Bool)
  | collectionEnabled
  | liveCount
  | stats
  | statsText
  | summary
  | config
  -- header fields
  | setProperty (v : Operand) (key : String) (item : Operand)
  | property (v : Operand) (key : String)
  | removeProperty (v : Operand) (key : String)
  | propertyKeys (v : Operand)
  | setDebugHook (v hook : Operand)
  | debugHook (v : Operand)
  | nextCursor (v : Operand) (len : Nat)
  | resetCursor (v : Operand)
  | invalidateSequence (v : Operand)
  -- dispatch
  | view (w : View) (v : Operand)
  | toSequence (v : Operand)
  | copy (v : Operand)
  | get (v index : Operand)
  | set (v index item : Operand)
  | equal (v other : Operand)
  | length (v : Operand)
  | call (v : Operand)
  -- values and control
  | value (v : Operand)
  | letVal (v : Operand)
  | raise (message : String)
  | abort (message : String)
  | malformed (name reason : String)

def Op.name : Op → String
  | register .. => "register"
  | derive .. => "derive"
  | typeInfo _ => "type_info"
  | typeNamed _ => "type_named"
  | typeWithTag _ => "type_with_tag"
  | typeCount => "type_count"
  | descriptorOf _ => "descriptor_of"
  | typeName _ => "type_name"
  | behaviorsOf _ => "has_behavior"
  | alloc .. => "alloc"
  | array _ => "array"
  | list _ => "list"
  | string _ => "string"
  | table => "table"
  | quotation _ => "quotation"
  | payloadIs .. => "payload_is"
  | tableFind .. => "table_find"
  | tableKeys _ => "table_keys"
  | push _ => "push"
  | pop => "pop"
  | peek => "peek"
  | pick _ => "pick"
  | stackDepth => "stack_depth"
  | truncateStack _ => "truncate_stack"
  | clearStack => "clear_stack"
  | stack => "stack"
  | pushFrame _ => "push_frame"
  | popFrame => "pop_frame"
  | frameDepth => "frame_depth"
  | frameCaller _ => "frame_caller"
  | resyncFrames _ => "resync_frames"
  | attach _ => "attach"
  | frameInstances _ => "frame_instances"
  | pin p _ => p.name
  | query q _ => q.name
  | protectedInstances => "protected_instances"
  | permanentInstances => "permanent_instances"
  | collect => "collect"
  | teardown => "teardown"
  | setCollectionEnabled _ => "set_collection_enabled"
  | collectionEnabled => "collection_enabled"
  | liveCount => "live_count"
  | stats => "stats"
  | statsText => "stats_text"
  | summary => "debug"
  | config => "config"
  | setProperty .. => "set_property"
  | property .. => "property"
  | removeProperty .. => "remove_property"
  | propertyKeys _ => "property_keys"
  | setDebugHook .. => "set_debug_hook"
  | debugHook _ => "debug_hook"
  | nextCursor .. => "next_cursor"
  | resetCursor _ => "reset_cursor"
  | invalidateSequence _ => "invalidate_sequence"
  | view w _ => w.name
  | toSequence _ => "to_sequence"
  | copy _ => "copy"
  | get .. => "get"
  | set .. => "set"
  | equal .. => "equal"
  | length _ => "length"
  | call _ => "call"
  | value _ => "value"
  | letVal _ => "let"
  | raise _ => "raise"
  | abort _ => "abort"
  | malformed name _ => name

inductive Part where
  | literal (s : String)
  | view (w : View) (v : Operand)
  | typeName (v : Operand)
  | display (v : Operand)

/-- What a scripted callback answers once its body has run; `σ` is the type of steps. -/
inductive Answer (σ : Type) where
  | nothing
  | text (parts : List Part)
  | value (v : Operand)
  | verdict (b : Bool)
  | count (n : Nat)
  /-- The result of one more step. -/
  | result (step : σ)

inductive Step where
  | op (o : Op)
  /-- Installs a script as the callback of a behavior. -/
  | install (type : TypeRef) (behavior : Behavior) (id : String) (body : List Step)
      (answer : Answer Step)
  /-- Runs a script while the payload is borrowed for reading. -/
  | payloadRead (v : Operand) (kind : Kind) (body : List Step)
  /-- Runs a script while the payload is borrowed for writing, then changes the payload. -/
  | payloadWrite (v : Operand) (kind : Kind) (body : List Step) (edit : Edit)
  /-- Runs a script inside a protection frame. -/
  | withFrame (caller : Operand) (body : List Step)
  | branch (v : Operand) (yes no : List Step)
  /-- Runs a script `n` times; a quiet loop logs nothing. -/
  | loop (n : Nat) (body : List Step) (quiet : Bool)
  /-- Runs a step and binds its result to a global variable. -/
  | bind (name : String) (step : Step)
  /-- Runs a step whose failure ends the script it stands in. -/
  | strict (step : Step)

namespace Step

def name : Step → String
  | op o => o.name
  | install .. => "install"
  | payloadRead .. => "payload_read"
  | payloadWrite .. => "payload_write"
  | withFrame .. => "with_frame"
  | branch .. => "if"
  | loop .. => "repeat"
  | bind _ s => s.name
  | strict s => s.name

/-- Whether the failure of a step ends the script it stands in. -/
def isStrict : Step → Bool
  | bind _ s => s.isStrict
  | strict _ => true
  | _ => false

end Step

structure Script where
  id : String
  body : List Step
  answer : Answer Step

end TracedHeap
