import TracedHeap.Event
import TracedHeap.Frames
import TracedHeap.Pool
import TracedHeap.Types.Registry

/-!
# The heap

The state of a heap, and what is done to it without running a callback or reporting an event.

* `Phase`, `Collector`, `Heap`     the state;
* `Heap.find`, `Heap.contains`     the instance a value stands for;
* `Heap.change`, `Heap.mark`       changes to one instance;
* `Heap.isProtected`, `property`, ...
                                   what is known of an instance;
* `Heap.readable`, `writable`      the payload of an instance, if its use is allowed;
* `Heap.pop`, `pick`, ...          the operand stack;
* `Heap.place`, `Heap.evict`       an instance comes, an instance goes;
* `Heap.startMarking`, `startSweep`, `finishCollection`
                                   the parts of a collection that run no callback.
-/

namespace TracedHeap

inductive Phase where
  | idle
  | marking
  | sweeping
deriving DecidableEq

structure Collector where
  phase : Phase := .idle
  /-- The instances that are marked and whose children are not, the latest first. -/
  gray : List InstanceId := []
  /-- Whether allocation may start a collection. -/
  enabled : Bool
  /-- How many live instances start the next automatic collection. -/
  nextCollection : Nat
  collections : Nat := 0
  totalFreed : Nat := 0
  lastFreed : Nat := 0
  allocations : Nat := 0
deriving DecidableEq

structure Heap where
  config : Config
  registry : Registry := {}
  pool : Pool := {}
  frames : Frames := {}
  /-- The operand stack, its top first. -/
  stack : List Value := []
  collector : Collector
  /-- How many uses of payloads are going on. -/
  borrows : Nat := 0

namespace Heap

def new (config : Config) : Heap where
  config := config
  collector := { enabled := config.collectionEnabled, nextCollection := config.highWaterMark }

def create (config : Config) : Except Error Heap :=
  match config.fault? with
  | some fault => .error (.config fault)
  | none => .ok (new config)

/-! ## Instances -/

def find (h : Heap) : Value → Except Error (InstanceId × Instance)
  | .ref id =>
    match h.pool.get? id with
    | some x => .ok (id, x)
    | none => .error (.stale id)
  | v => .error (.notAnInstance v)

def find? (h : Heap) (v : Value) : Option Instance :=
  v.instance?.bind h.pool.get?

def contains (h : Heap) (v : Value) : Bool := (h.find? v).isSome

/-- Changes the instance a value stands for; nothing happens if there is none. -/
def modify (h : Heap) (v : Value) (f : Instance → Instance) : Heap :=
  match v with
  | .ref id => { h with pool := h.pool.modify id f }
  | _ => h

def descriptorOf (h : Heap) (v : Value) : Option Descriptor := (h.find? v).map Instance.descriptor

def typeName (h : Heap) (v : Value) : String :=
  v.immediateType?.getD
    ((((h.descriptorOf v).bind h.registry.get?).map TypeRecord.name).getD "freed")

def behaviorsOf (h : Heap) (v : Value) : List Behavior :=
  (((h.descriptorOf v).bind h.registry.get?).map fun r => r.table.defined).getD []

/-- The callback the type of a value has for `b`.  Immediates have none; a reference whose
instance is gone is an error. -/
def callback (h : Heap) (b : Behavior) (v : Value) : Except Error (Option (Callback b)) :=
  match v with
  | .ref _ => (h.find v).map fun (_, x) => h.registry.callback? x.descriptor b
  | _ => .ok none

def change (h : Heap) (v : Value) (c : Change) : Heap := h.modify v c.apply

/-! ## Types -/

def register (h : Heap) (name : String) (tag : Option Tag) (base : Option Descriptor) :
    Except Error Descriptor × Heap :=
  let (outcome, registry) := h.registry.register h.config.registryIncrement name tag base
  (outcome, { h with registry })

def install (h : Heap) (d : Descriptor) (b : Behavior) (c : Callback b) : Heap :=
  { h with registry := h.registry.install d b c }

/-! ## Pins -/

/-- Marks an instance.  One marked while the collector is marking is to be traced. -/
def mark (h : Heap) (v : Value) : Heap :=
  match v, h.find? v with
  | .ref id, some x =>
    if x.marked then h
    else
      let h := h.modify v fun x => { x with marked := true }
      if h.collector.phase = .marking then
        { h with collector := { h.collector with gray := id :: h.collector.gray } }
      else h
  | _, _ => h

def markAll (h : Heap) (vs : List Value) : Heap := vs.foldl mark h

def isMarked (h : Heap) (v : Value) : Bool := (h.find? v).any fun x => x.marked

def isProtected (h : Heap) (v : Value) : Bool := (h.find? v).any fun x => x.isProtected

def isPermanent (h : Heap) (v : Value) : Bool := (h.find? v).any fun x => x.permanent

def protectedInstances (h : Heap) : List Value :=
  (h.pool.namesOf fun x => x.isProtected).map Value.ref

def permanentInstances (h : Heap) : List Value :=
  (h.pool.namesOf fun x => x.permanent).map Value.ref

/-! ## Header fields -/

def property? (h : Heap) (v : Value) (key : String) : Except Error (Option Value) :=
  (h.find v).map fun (_, x) => x.properties.get? key

/-- The property of a name; one that was never set is undefined. -/
def property (h : Heap) (v : Value) (key : String) : Except Error Value :=
  (h.property? v key).map fun item => item.getD .undefined

def propertyKeys (h : Heap) (v : Value) : Except Error (List String) :=
  (h.find v).map fun (_, x) => x.properties.keys

def debugHook (h : Heap) (v : Value) : Except Error (Option Value) :=
  (h.find v).map fun (_, x) => x.debugHook

def cursorIn (h : Heap) (v : Value) (len : Nat) : Except Error Nat :=
  (h.find v).map fun (_, x) => (x.advance len).1

/-! ## Payloads -/

/-- The content of a payload that may be used so, if it is of kind `k`.  A conflicting use is
noticed before a wrong kind. -/
def content (h : Heap) (a : Access) (v : Value) (k : Kind) :
    Except Error (InstanceId × k.Content) := do
  let (id, x) ← h.find v
  if a.allowed x.borrow then
    match x.payload.as? k with
    | some c => .ok (id, c)
    | none => .error (.payloadType id k)
  else .error (.payloadBorrowed id)

def read (h : Heap) (v : Value) (k : Kind) : Except Error k.Content :=
  (h.content .read v k).map Prod.snd

def payloadIs (h : Heap) (v : Value) (k : Kind) : Bool :=
  (h.find? v).any fun x => x.borrow.readable && x.payload.kind == k

def startUse (h : Heap) (a : Access) (id : InstanceId) : Heap :=
  { h.modify (.ref id) fun x => { x with borrow := a.start x.borrow } with
    borrows := h.borrows + 1 }

def stopUse (h : Heap) (a : Access) (id : InstanceId) : Heap :=
  { h.modify (.ref id) fun x => { x with borrow := a.stop x.borrow } with
    borrows := h.borrows - 1 }

/-! ## Operand stack -/

def push (h : Heap) (v : Value) : Heap := { h with stack := v :: h.stack }

def pop (h : Heap) : Except Error Value × Heap :=
  match h.stack with
  | v :: rest => (.ok v, { h with stack := rest })
  | [] => (.error .stackUnderflow, h)

/-- The value `n` below the top. -/
def pick (h : Heap) (n : Nat) : Except Error Value :=
  match h.stack[n]? with
  | some v => .ok v
  | none => .error .stackUnderflow

def truncateStack (h : Heap) (depth : Nat) : Heap :=
  { h with stack := h.stack.drop (h.stack.length - depth) }

/-- The values on the stack, the lowest first. -/
def stackValues (h : Heap) : List Value := h.stack.reverse

/-! ## Frames -/

def pushFrame (h : Heap) (caller : Value) : Heap :=
  { h with frames := h.frames.push h.config.maxFrameDepth caller }

def popFrame (h : Heap) : Heap := { h with frames := h.frames.pop }

def resyncFrames (h : Heap) (depth : Nat) : Heap := { h with frames := h.frames.resync depth }

/-- Attaches an instance to the innermost frame.  Nothing happens, and the answer is `false`, if
there is no instance or no frame. -/
def attach (h : Heap) (v : Value) : Bool × Heap :=
  match v, h.contains v && 0 < h.frames.depth with
  | .ref id, true => (true, { h with frames := h.frames.attach id })
  | _, _ => (false, h)

/-! ## Collection -/

/-- Why a collection or a teardown cannot start now. -/
def refusal? (h : Heap) : Option Refusal :=
  if h.collector.phase ≠ .idle then some .collecting
  else if 0 < h.borrows then some (.borrowed h.borrows)
  else none

def setPhase (h : Heap) (phase : Phase) : Heap :=
  { h with collector := { h.collector with phase } }

def roots (h : Heap) : List Value := h.stack ++ h.frames.roots

/-- Marks the roots; they are not to be traced yet. -/
def markRoots (h : Heap) : Heap :=
  h.roots.foldl (fun h v => h.modify v fun x => { x with marked := true }) h

/-- Marks the roots and whatever is pinned; all of these are to be traced, the one in the last
slot first. -/
def startMarking (h : Heap) : Heap :=
  let h := h.markRoots
  { h with
    pool := h.pool.modifyAll fun x => { x with marked := x.pinned }
    collector :=
      { h.collector with phase := .marking, gray := (h.pool.namesOf Instance.pinned).reverse } }

def nextGray (h : Heap) : Option InstanceId × Heap :=
  match h.collector.gray with
  | [] => (none, h)
  | id :: rest => (some id, { h with collector := { h.collector with gray := rest } })

def slotsOf (h : Heap) (f : Instance → Bool) : List Nat :=
  (h.pool.namesOf f).map InstanceId.index

/-- Ends the marking: the instances no pin holds are doomed, in slot order, and the others lose
their marks. -/
def startSweep (h : Heap) : List Nat × Heap :=
  (h.slotsOf fun x => !x.pinned,
    { h with
      pool := h.pool.modifyAll fun x => { x with marked := false }
      collector := { h.collector with phase := .sweeping } })

def evict (h : Heap) (slot : Nat) : Option Instance × Heap :=
  match h.pool.evict slot with
  | some (x, pool) => (some x, { h with pool })
  | none => (none, h)

/-- Starts a teardown: stack and frames are emptied, and every instance is doomed. -/
def startTeardown (h : Heap) : List Nat × Heap :=
  (h.slotsOf fun _ => true, { h.setPhase .sweeping with stack := [], frames := {} })

/-- Counts a collection that released `freed` instances; the pool may start recycling. -/
def finishCollection (h : Heap) (freed : Nat) : Heap :=
  { h with
    pool := h.pool.updateRecycling h.config.reuseThreshold
    collector :=
      { h.collector with
        collections := h.collector.collections + 1
        totalFreed := h.collector.totalFreed + freed
        lastFreed := freed } }

def setEnabled (h : Heap) (on : Bool) : Heap :=
  { h with collector := { h.collector with enabled := on } }

def collectionDue (h : Heap) : Bool :=
  h.collector.enabled && h.collector.nextCollection ≤ h.pool.live && h.refusal?.isNone

/-- Sets the number of live instances that start the next automatic collection: half the
high-water mark above what is live, and at least the high-water mark. -/
def schedule (h : Heap) : Heap :=
  let next := max h.config.highWaterMark (h.pool.live + h.config.highWaterMark / 2)
  { h with collector := { h.collector with nextCollection := next } }

/-- The heap once the instance `id` has come into the pool: it is attached to the innermost frame
and counted. -/
def enroll (h : Heap) (id : InstanceId) (pool : Pool) : Heap :=
  { h with
    pool
    frames := h.frames.attach id
    collector := { h.collector with allocations := h.collector.allocations + 1 } }

/-- Puts a new instance into the pool.  It is marked if the collector is marking. -/
def place (h : Heap) (d : Descriptor) (p : Payload) : InstanceId × Heap :=
  let (id, pool) := h.pool.place h.config.poolIncrement d p
  (id, if h.collector.phase = .marking then (h.enroll id pool).mark (.ref id)
    else h.enroll id pool)

end Heap

end TracedHeap
