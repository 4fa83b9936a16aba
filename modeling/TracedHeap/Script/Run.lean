import TracedHeap.Script.Operation

/-!
# Running scripts

* `Step.run`, `Step.runAll`   one step, and the steps of a script in order;
* `Script.run`                a script as the callback of a behavior;
* `Runner.ofDepth`            the runner that allows so many callbacks inside one another.
-/

namespace TracedHeap

open Run

def bindGlobal (name : String) (v : Value) : Run Unit :=
  note fun c => { c with globals := c.globals.set name v }

def bindReply (name : String) (reply : Reply) : Run Unit :=
  match reply.bound? with
  | some v => bindGlobal name v
  | none => pure ()

/-- Runs `x i`, `x (i + 1)`, ..., `n` of them, up to the first that is refused. -/
def loopFrom (x : Nat → Attempt Unit) : (n i : Nat) → Attempt Unit
  | 0, _ => pure ()
  | n + 1, i => do
    x i
    loopFrom x n (i + 1)

def hushed {α : Type} (quiet : Bool) (x : Attempt α) : Attempt α := do
  let before := (← world).quiet
  note fun c => { c with quiet := c.quiet || quiet }
  Attempt.ensuring x (note fun c => { c with quiet := before })

namespace Step

mutual

def run (r : Runner) : Step → Attempt Reply
  | op o => o.run r
  | install type b id body answer => do
    installCallback (← type.resolve) b (.script { id, body, answer })
    return .done
  | payloadRead v kind body => do
    withPayload (← v.resolve) kind fun c => do
      runAll r body
      return .payload (.of kind c)
  | payloadWrite v kind body edit => do
    withPayloadMut (← v.resolve) kind fun c => do
      runAll r body
      let c ← edit.apply kind c
      return (.payload (.of kind c), c)
  | withFrame caller body => do
    let caller ← caller.resolve
    Attempt.ofRun (TracedHeap.withFrame caller (runAll r body).run)
    return .done
  | branch v yes no => do
    let v ← v.resolve
    if v.truthy then runAll r yes else runAll r no
    return .done
  | loop n body quiet => do
    hushed quiet <| loopFrom (fun i => do bindGlobal "i" (.ofCount i); runAll r body) n 0
    return .done
  | bind name s => do
    let reply ← run r s
    bindReply name reply
    return reply
  | strict s => run r s

/-- Runs steps in order and logs the outcome of each.  Only the failure of a strict step ends the
script. -/
def runAll (r : Runner) : List Step → Attempt Unit
  | [] => pure ()
  | s :: rest => Attempt.ofRun do
    let outcome : Except Error Reply ← (run r s).run
    record (.finished s.name outcome)
    match outcome with
    | .error e => if s.isStrict then return .error e else (runAll r rest).run
    | .ok _ => (runAll r rest).run

end

end Step

/-! ## Scripts as callbacks -/

def Part.run (r : Runner) : Part → Run String
  | literal s => return s
  | view w v => do
    match ← v.resolve.run with
    | .ok v => w.run r v
    | .error _ => return ""
  | typeName v => do
    match ← v.resolve.run with
    | .ok v => return (← heap).typeName v
    | .error _ => return ""
  | display v => do
    match ← v.resolve.run with
    | .ok v => return v.render
    | .error _ => return ""

def Part.runAll (r : Runner) : List Part → Run String
  | [] => return ""
  | p :: rest => do
    let s ← p.run r
    return s ++ (← runAll r rest)

namespace Answer

def asText (r : Runner) : Answer Step → Run String
  | text parts => Part.runAll r parts
  | _ => return ""

def asValue : Answer Step → Attempt Value
  | value v => v.resolve
  | nothing => return .nil
  | _ => throw (.raised "bad input: value")

def asVerdict (r : Runner) : Answer Step → Run Bool
  | verdict b => return b
  | result s => do
    match ← (s.run r).run with
    | .ok (.flag b) => return b
    | _ => return false
  | _ => return false

def asCount (r : Runner) : Answer Step → Run Nat
  | count n => return n
  | result s => do
    match ← (s.run r).run with
    | .ok (.count n) => return n
    | _ => return 0
  | _ => return 0

end Answer

namespace Script

/-- Runs the body of a script with its arguments in scope, then makes the answer, which is told
how the body ended. -/
def runBody {α : Type} (r : Runner) (s : Script) (args : Arguments) (scope : Bindings)
    (answer : Except Error Unit → Run α) : Run α := do
  record (.started s.id args)
  if ← look fun w => decide (w.maxScopes ≤ w.scopes.length) then
    abort "callback depth"
  note fun c => { c with scopes := scope :: c.scopes }
  ensuring (do answer (← (Step.runAll r s.body).run))
    (note fun c => { c with scopes := c.scopes.tail })

def runOn {α : Type} (r : Runner) (s : Script) (v : Value)
    (answer : Except Error Unit → Run α) : Run α :=
  s.runBody r (.values [v]) ⟨[("self", v)]⟩ answer

def valueUnlessFailed (s : Script) (ended : Except Error Unit) : Run (Except Error Value) :=
  match ended with
  | .error e => return .error e
  | .ok _ => s.answer.asValue.run

def run (r : Runner) (s : Script) : (b : Behavior) → b.Args → Run b.Reply
  | .inspect, v => s.runOn r v fun _ => s.answer.asText r
  | .toText, v => s.runOn r v fun _ => s.answer.asText r
  | .dump, v => s.runOn r v fun _ => s.answer.asText r
  | .toSequence, v => s.runOn r v s.valueUnlessFailed
  | .copy, v => s.runOn r v s.valueUnlessFailed
  | .get, (v, index) =>
    s.runBody r (.values [v, index]) ⟨[("self", v), ("index", index)]⟩ s.valueUnlessFailed
  | .set, (v, index, item) =>
    s.runBody r (.values [v, index, item]) ⟨[("self", v), ("index", index), ("item", item)]⟩ pure
  | .equal, (v, other) =>
    s.runBody r (.values [v, other]) ⟨[("self", v), ("other", other)]⟩ fun _ =>
      s.answer.asVerdict r
  | .length, v => s.runOn r v fun _ => s.answer.asCount r
  | .mark, v => s.runOn r v fun _ => pure ()
  | .free, p => s.runBody r (.payload p) {} fun _ => pure ()
  | .call, v => s.runOn r v pure

end Script

def Callback.run (r : Runner) {b : Behavior} (c : Callback b) (args : b.Args) : Run b.Reply :=
  match c with
  | routine k => k.run r args
  | script s => s.run r b args

/-- The runner that allows `n` callbacks inside one another. -/
def Runner.ofDepth : Nat → Runner
  | 0 =>
    { rounds := 0
      run := fun b c args => do
        act (.invoke b c args)
        exhausted }
  | n + 1 =>
    { rounds := n + 1
      run := fun b c args => do
        act (.invoke b c args)
        c.run (ofDepth n) args }

end TracedHeap
