import TracedHeap.Heap

/-!
# Actions

The steps in which a heap changes.  Whatever runs on a heap, an operation or a callback inside it,
changes the heap by actions only, one after the other, and nothing runs in the middle of an
action.  Actions are data, so what holds of each of them holds of every run.  That a callback
starts is an action too: it changes nothing, but it shows in what order things happen.

* `Action α`       an action that answers with an `α`;
* `Action.apply`   the answer of an action and the heap after it.
-/

namespace TracedHeap

/-- A step in which a heap changes; `α` is the type of its answer. -/
inductive Action : Type → Type where
  -- types
  | register (name : String) (tag : Option Tag) (base : Option Descriptor) :
      Action (Except Error Descriptor)
  | install (d : Descriptor) (b : Behavior) (c : Callback b) : Action Unit
  -- instances
  | place (d : Descriptor) (p : Payload) : Action InstanceId
  | evict (slot : Nat) : Action (Option Instance)
  | change (v : Value) (c : Change) : Action Unit
  | mark (v : Value) : Action Unit
  | startUse (a : Access) (id : InstanceId) : Action Unit
  | stopUse (a : Access) (id : InstanceId) : Action Unit
  -- operand stack
  | push (v : Value) : Action Unit
  | pop : Action (Except Error Value)
  | truncateStack (depth : Nat) : Action Unit
  -- frames
  | pushFrame (caller : Value) : Action Unit
  | popFrame : Action Unit
  | resyncFrames (depth : Nat) : Action Unit
  | attach (v : Value) : Action Bool
  -- collector
  | startMarking : Action Unit
  | nextGray : Action (Option InstanceId)
  | startSweep : Action (List Nat)
  | startTeardown : Action (List Nat)
  | finishCollection (freed : Nat) : Action Unit
  | setPhase (phase : Phase) : Action Unit
  | schedule : Action Unit
  | setEnabled (on : Bool) : Action Unit
  -- callbacks
  /-- A callback starts to run. -/
  | invoke (b : Behavior) (c : Callback b) (args : b.Args) : Action Unit

def Action.apply : {α : Type} → Action α → Heap → α × Heap
  | _, register name tag base, h => h.register name tag base
  | _, install d b c, h => ((), h.install d b c)
  | _, place d p, h => h.place d p
  | _, evict slot, h => h.evict slot
  | _, change v c, h => ((), h.change v c)
  | _, mark v, h => ((), h.mark v)
  | _, startUse a id, h => ((), h.startUse a id)
  | _, stopUse a id, h => ((), h.stopUse a id)
  | _, push v, h => ((), h.push v)
  | _, pop, h => h.pop
  | _, truncateStack depth, h => ((), h.truncateStack depth)
  | _, pushFrame caller, h => ((), h.pushFrame caller)
  | _, popFrame, h => ((), h.popFrame)
  | _, resyncFrames depth, h => ((), h.resyncFrames depth)
  | _, attach v, h => h.attach v
  | _, startMarking, h => ((), h.startMarking)
  | _, nextGray, h => h.nextGray
  | _, startSweep, h => h.startSweep
  | _, startTeardown, h => h.startTeardown
  | _, finishCollection freed, h => ((), h.finishCollection freed)
  | _, setPhase phase, h => ((), h.setPhase phase)
  | _, schedule, h => ((), h.schedule)
  | _, setEnabled on, h => ((), h.setEnabled on)
  | _, invoke _ _ _, h => ((), h)

end TracedHeap
