import TracedHeap.Machine

/-!
# Collection and allocation

A collection marks what is reachable and releases the rest.  Mark callbacks say what an instance
holds on to beyond its header; free callbacks get the payloads of the instances released.

* `traceInstance`, `drain`   marking the children of one instance, and of all gray ones;
* `release`, `releaseAll`    releasing instances;
* `collect`, `teardown`      a collection, and the release of everything;
* `allocate`                 a new instance, after a collection if one is due.
-/

namespace TracedHeap

open Run

/-- Marks the children of an instance, first those in its header, then those its type knows. -/
def traceInstance (r : Runner) (id : InstanceId) : Run Unit := do
  match (← heap).pool.get? id with
  | none => pure ()
  | some x =>
    markAll x.children
    match (← heap).registry.callback? x.descriptor .mark with
    | some c => r.run .mark c (.ref id)
    | none => pure ()

/-- Traces gray instances until none is left, at most `rounds` of them. -/
def drain (r : Runner) (rounds : Nat) : Run Unit := do
  match ← act .nextGray with
  | none => pure ()
  | some id =>
    match rounds with
    | 0 => exhausted
    | rounds + 1 =>
      traceInstance r id
      drain r rounds

/-- Releases the instance in a slot: the slot is free before the free callback runs. -/
def release (r : Runner) (slot : Nat) : Run Unit := do
  match ← act (.evict slot) with
  | none => pure ()
  | some x =>
    match (← heap).registry.callback? x.descriptor .free with
    | some c => r.run .free c x.payload
    | none => pure ()

def releaseAll (r : Runner) : List Nat → Run Unit
  | [] => pure ()
  | slot :: rest => do
    release r slot
    releaseAll r rest

def collectNow (r : Runner) : Run Nat := do
  act .startMarking
  drain r r.rounds
  let doomed ← act .startSweep
  releaseAll r doomed
  act (.finishCollection doomed.length)
  let pool := (← heap).pool
  report (.collectionFinished doomed.length pool.live pool.recycling)
  return doomed.length

/-- Collects, and tells how many instances were released.  While a collection or the use of a
payload goes on, nothing happens. -/
def collect (r : Runner) : Run Nat := do
  match (← heap).refusal? with
  | some why =>
    report (.collectionSkipped why)
    return 0
  | none => ensuring (collectNow r) (act (.setPhase .idle))

def teardownNow (r : Runner) : Run Nat := do
  let doomed ← act .startTeardown
  releaseAll r doomed
  report (.tornDown doomed.length)
  return doomed.length

/-- Releases every instance, whatever pins it, and tells how many there were.  While a collection
or the use of a payload goes on, nothing happens. -/
def teardown (r : Runner) : Run Nat := do
  match (← heap).refusal? with
  | some why =>
    report (.teardownSkipped why)
    return 0
  | none => ensuring (teardownNow r) (act (.setPhase .idle))

/-- Collects if that is due, and schedules the next collection. -/
def collectIfDue (r : Runner) : Run Unit := do
  if (← heap).collectionDue then
    let _ ← collect r
    act .schedule

def allocateNow (r : Runner) (d : Descriptor) (p : Payload) : Run Value := do
  collectIfDue r
  let before ← look fun w => w.heap.pool.capacity
  let id ← act (.place d p)
  let after ← look fun w => w.heap.pool.capacity
  if after ≠ before then
    report (.poolGrown after)
  return .ref id

def allocate (r : Runner) (d : Descriptor) (p : Payload) : Attempt Value := do
  if (← heap).registry.size ≤ d.index then
    throw (.unknownDescriptor d)
  allocateNow r d p

end TracedHeap
