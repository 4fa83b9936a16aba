import TracedHeap.Action
import TracedHeap.Script.Log

/-!
# Running on a heap

Operations on a heap run callbacks, and callbacks run operations.  This module holds the state
all of them share and the two kinds of computation they are.

* `Context`, `World`       the cycle guards, the variables and the log; these and the heap;
* `Halt`, `Run`, `Attempt` computations that can be cut short, and those that can also be
                           refused with an `Error`.  A computation is data: it is made of
                           actions on the heap and of steps that leave the heap alone;
* `Run.exec`               what a computation does;
* `Runner`                 how a callback is run.  Operations take a runner as an argument, so
                           that each is defined, and can be reasoned about, for every way in
                           which callbacks may behave;
* `withFrame`, `withPayload`, `withPayloadMut`
                           computations inside a frame and inside the use of a payload.
-/

namespace TracedHeap

structure Bindings where
  entries : List (String × Value) := []

namespace Bindings

def get? (b : Bindings) (name : String) : Option Value := b.entries.lookup name

def set (b : Bindings) (name : String) (v : Value) : Bindings :=
  ⟨(name, v) :: b.entries.filter fun e => e.1 != name⟩

end Bindings

structure Containers where
  array : Descriptor
  list : Descriptor
  string : Descriptor
  table : Descriptor
  quotation : Descriptor
deriving DecidableEq

structure Context where
  containers : Option Containers := none
  /-- The containers whose text is being made, innermost first. -/
  inspecting : List Value := []
  /-- The pairs of containers that are being compared, innermost first. -/
  comparing : List (Value × Value) := []
  globals : Bindings := {}
  /-- The arguments of the scripted callbacks that are running, innermost first. -/
  scopes : List Bindings := []
  /-- How many scripted callbacks may run inside one another. -/
  maxScopes : Nat
  log : Array Entry := #[]
  /-- Whether nothing is logged for now. -/
  quiet : Bool := false

def Context.record (c : Context) (e : Entry) : Context :=
  if c.quiet then c else { c with log := c.log.push e }

structure World extends Context where
  heap : Heap

/-- Why a computation was cut short. -/
inductive Halt where
  /-- An abort that nothing caught. -/
  | abort (message : String)
  /-- The bound on the depth of callbacks, or on the length of a marking, was reached. -/
  | exhausted
deriving DecidableEq

/-- A computation on the world. -/
inductive Run : Type → Type 1 where
  | done {α : Type} (a : α) : Run α
  | andThen {α β : Type} (x : Run α) (next : α → Run β) : Run β
  /-- Asks the world something. -/
  | look {α : Type} (f : World → α) : Run α
  /-- Changes the heap. -/
  | act {α : Type} (a : Action α) : Run α
  /-- Changes what is beside the heap. -/
  | note (f : Context → Context) : Run Unit
  /-- Cuts everything short. -/
  | halt {α : Type} (why : Halt) : Run α
  /-- Runs `x`, then `last`, also if `x` is cut short. -/
  | ensuring {α : Type} (x : Run α) (last : Run Unit) : Run α

/-- A computation that can be refused. -/
abbrev Attempt := ExceptT Error Run

namespace Run

instance : Monad Run where
  pure := done
  bind := andThen

/-- Runs a computation.  When it is cut short, what it did so far stays done. -/
def exec : {α : Type} → Run α → World → Except Halt α × World
  | _, done a, w => (.ok a, w)
  | _, andThen x next, w =>
    match x.exec w with
    | (.ok a, w) => (next a).exec w
    | (.error why, w) => (.error why, w)
  | _, look f, w => (.ok (f w), w)
  | _, act a, ⟨c, h⟩ =>
    let (answer, h) := a.apply h
    (.ok answer, ⟨c, h⟩)
  | _, note f, ⟨c, h⟩ => (.ok (), ⟨f c, h⟩)
  | _, halt why, w => (.error why, w)
  | _, ensuring x last, w =>
    match x.exec w with
    | (.ok a, w) =>
      match last.exec w with
      | (.ok _, w) => (.ok a, w)
      | (.error why, w) => (.error why, w)
    | (.error why, w) => (.error why, (last.exec w).2)

section
variable {α β : Type}

@[simp]
theorem exec_pure (a : α) (w : World) : (pure a : Run α).exec w = (.ok a, w) := rfl

@[simp]
theorem exec_bind (x : Run α) (next : α → Run β) (w : World) :
    (x >>= next).exec w =
      match x.exec w with
      | (.ok a, w) => (next a).exec w
      | (.error why, w) => (.error why, w) := by
  show (andThen x next).exec w = _
  rw [exec]

@[simp]
theorem exec_look (f : World → α) (w : World) : (look f).exec w = (.ok (f w), w) := rfl

@[simp]
theorem exec_act (a : Action α) (w : World) :
    (act a).exec w = (.ok (a.apply w.heap).1, { w with heap := (a.apply w.heap).2 }) := rfl

@[simp]
theorem exec_note (f : Context → Context) (w : World) :
    (note f).exec w = (.ok (), { w with toContext := f w.toContext }) := rfl

@[simp]
theorem exec_halt (why : Halt) (w : World) : (halt why : Run α).exec w = (.error why, w) := rfl

theorem exec_ensuring_fst (x : Run α) (last : Run Unit) (w : World) :
    ((ensuring x last).exec w).1 =
      match (x.exec w).1 with
      | .ok a => (last.exec (x.exec w).2).1.map fun _ => a
      | .error why => .error why := by
  rw [exec]
  rcases x.exec w with ⟨_ | a, w'⟩
  · rfl
  · rcases h : last.exec w' with ⟨_ | _, w''⟩ <;> simp [h, Except.map]

theorem exec_ensuring_snd (x : Run α) (last : Run Unit) (w : World) :
    ((ensuring x last).exec w).2 = (last.exec (x.exec w).2).2 := by
  rw [exec]
  rcases x.exec w with ⟨_ | a, w'⟩
  · rfl
  · rcases h : last.exec w' with ⟨_ | _, w''⟩ <;> simp [h]

end

def abort {α : Type} (message : String) : Run α := halt (.abort message)

def exhausted {α : Type} : Run α := halt .exhausted

def world : Run World := look id

def heap : Run Heap := look World.heap

def record (e : Entry) : Run Unit := note fun c => c.record e

def report (e : Event) : Run Unit := record (.event e)

def markAll : List Value → Run Unit
  | [] => pure ()
  | v :: rest => do
    act (.mark v)
    markAll rest

end Run

namespace Attempt

def ofRun {α : Type} (x : Run (Except Error α)) : Attempt α := ExceptT.mk x

/-- Runs `x`, then `last`, however `x` ends. -/
def ensuring {α : Type} (x : Attempt α) (last : Run Unit) : Attempt α :=
  ofRun (Run.ensuring x.run last)

def ask {α : Type} (f : Heap → Except Error α) : Attempt α :=
  ofRun (Run.look fun w => f w.heap)

def act {α : Type} (a : Action α) : Attempt α := ExceptT.lift (Run.act a)

def change (v : Value) (c : Change) : Attempt Unit := do
  let _ ← ask fun h => h.find v
  act (.change v c)

section
variable {α β : Type}

@[simp]
theorem exec_pure (a : α) (w : World) : (pure a : Attempt α).run.exec w = (.ok (.ok a), w) := rfl

@[simp]
theorem exec_throw (e : Error) (w : World) :
    (throw e : Attempt α).run.exec w = (.ok (.error e), w) := rfl

@[simp]
theorem exec_bind (x : Attempt α) (next : α → Attempt β) (w : World) :
    (x >>= next).run.exec w =
      match x.run.exec w with
      | (.ok (.ok a), w) => (next a).run.exec w
      | (.ok (.error e), w) => (.ok (.error e), w)
      | (.error why, w) => (.error why, w) := by
  rw [ExceptT.run_bind, Run.exec_bind]
  rcases x.run.exec w with ⟨_ | _ | _, _⟩ <;> rfl

@[simp]
theorem exec_lift (x : Run α) (w : World) :
    (liftM x : Attempt α).run.exec w =
      match x.exec w with
      | (.ok a, w) => (.ok (.ok a), w)
      | (.error why, w) => (.error why, w) := by
  show (x >>= fun a => pure (Except.ok a)).exec w = _
  rw [Run.exec_bind]
  rfl

@[simp]
theorem exec_ofRun (x : Run (Except Error α)) (w : World) : (ofRun x).run.exec w = x.exec w := rfl

@[simp]
theorem exec_ask (f : Heap → Except Error α) (w : World) :
    (ask f).run.exec w = (.ok (f w.heap), w) := rfl

@[simp]
theorem exec_act (a : Action α) (w : World) :
    (act a).run.exec w = (.ok (.ok (a.apply w.heap).1), { w with heap := (a.apply w.heap).2 }) := by
  show (Run.act a >>= fun a => pure (Except.ok a)).exec w = _
  simp

end

end Attempt

/-- How callbacks are run, and how many instances one marking may trace. -/
structure Runner where
  rounds : Nat
  run : (b : Behavior) → Callback b → b.Args → Run b.Reply

/-! ## Frames -/

def pushFrame (caller : Value) : Run Unit := do
  let h ← Run.heap
  Run.act (.pushFrame caller)
  if h.config.maxFrameDepth ≤ h.frames.kept.length then
    Run.report (.frameOverflow (h.frames.overflow + 1) h.config.maxFrameDepth)

def popFrame : Run Unit := do
  let depth ← Run.look fun w => w.heap.frames.depth
  Run.act .popFrame
  if depth = 0 then
    Run.report .frameUnderflow

/-- Runs a computation inside a frame, which is left however the computation ends. -/
def withFrame {α : Type} (caller : Value) (x : Run α) : Run α := do
  pushFrame caller
  Run.ensuring x popFrame

/-! ## Payloads -/

/-- Runs a computation with the content of a payload, which nobody writes meanwhile. -/
def withPayload {α : Type} (v : Value) (k : Kind) (x : k.Content → Attempt α) : Attempt α := do
  let (id, c) ← Attempt.ask fun h => h.content .read v k
  Attempt.act (.startUse .read id)
  Attempt.ensuring (x c) (Run.act (.stopUse .read id))

/-- Runs a computation with the content of a payload, which nobody else uses meanwhile, and
writes the content it gives. -/
def withPayloadMut {α : Type} (v : Value) (k : Kind) (x : k.Content → Attempt (α × k.Content)) :
    Attempt α := do
  let (id, c) ← Attempt.ask fun h => h.content .write v k
  Attempt.act (.startUse .write id)
  Attempt.ensuring
    (do
      let (a, c) ← x c
      Attempt.act (.change (.ref id) (.write (.of k c)))
      return a)
    (Run.act (.stopUse .write id))

def writePayload (v : Value) (k : Kind) (f : k.Content → Except Error k.Content) :
    Attempt Unit := do
  let (id, c) ← Attempt.ask fun h => do
    let (id, c) ← h.content .write v k
    return (id, ← f c)
  Attempt.act (.change (.ref id) (.write (.of k c)))

/-! ## Types -/

def registerType (name : String) (tag : Option Tag) (base : Option Descriptor) :
    Attempt Descriptor :=
  Attempt.ofRun do
    let before ← Run.look fun w => w.heap.registry.capacity
    let outcome ← Run.act (.register name tag base)
    let after ← Run.look fun w => w.heap.registry.capacity
    if after ≠ before then
      Run.report (.registryGrown after)
    return outcome

/-- Sets a callback of a type.  If the type is unknown, that is reported, and nothing is set. -/
def installCallback (d : Descriptor) (b : Behavior) (c : Callback b) : Run Unit := do
  let h ← Run.heap
  Run.act (.install d b c)
  if (h.registry.get? d).isNone then
    Run.report (.unknownInstall d b)

end TracedHeap
