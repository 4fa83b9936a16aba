import TracedHeap.Containers.Registration

/-!
# Running an operation

* `Operand.resolve`, `TypeRef.resolve`, `Literal.resolve`
                 what the operands of an operation stand for;
* `Edit.apply`   a change to the content of a payload;
* `Op.run`       what each operation does and answers.
-/

namespace TracedHeap

open Run

/-- The value of a variable: an argument of the innermost running callback, else a global
variable, else undefined. -/
def Context.lookup (c : Context) (name : String) : Value :=
  ((c.scopes.head?.bind fun scope => scope.get? name).or (c.globals.get? name)).getD .undefined

namespace Operand

def resolve : Operand → Attempt Value
  | const v => return v
  | var name => return (← world).lookup name
  | malformed => throw (.raised "bad input: value")

def resolveAll : List Operand → Attempt (List Value)
  | [] => return []
  | o :: rest => do
    let v ← o.resolve
    return v :: (← resolveAll rest)

def resolvePairs : List (Operand × Operand) → Attempt (List (Value × Value))
  | [] => return []
  | (k, o) :: rest => do
    let k ← k.resolve
    let v ← o.resolve
    return (k, v) :: (← resolvePairs rest)

end Operand

def TypeRef.resolve : TypeRef → Attempt Descriptor
  | .index d => return d
  | .named name => do
    match (← heap).registry.named? name with
    | some d => return d
    | none => throw (.raised "bad input: type")

def Literal.resolve : Literal → Attempt Payload
  | items os => return .items (← Operand.resolveAll os)
  | text s => return .text s
  | table es => return .table (← Operand.resolvePairs es)
  | words os => return .words (← Operand.resolveAll os)
  | int n => return .int n
  | unit => return .unit

namespace Edit

/-- A sequence with a value added, then the last one dropped, then all. -/
def applyList (e : Edit) (vs : List Value) : Attempt (List Value) := do
  let vs ← match e.push with
    | some o => do pure (vs ++ [← o.resolve])
    | none => pure vs
  let vs := if e.pop then vs.dropLast else vs
  return if e.clear then [] else vs

/-- Entries with one added, whatever its key, then the last one dropped, then all. -/
def applyEntries (e : Edit) (es : List (Value × Value)) : Attempt (List (Value × Value)) := do
  let es ← match e.put with
    | some (k, o) => do
      let k ← k.resolve
      let v ← o.resolve
      pure (es ++ [(k, v)])
    | none => pure es
  let es := if e.pop then es.dropLast else es
  return if e.clear then [] else es

def apply (e : Edit) : (k : Kind) → k.Content → Attempt k.Content
  | .items, vs => e.applyList vs
  | .words, vs => e.applyList vs
  | .table, es => e.applyEntries es
  | .text, s => return if e.clear then "" else s ++ e.append.getD ""
  | .int, n => return if e.clear then 0 else n + e.add.getD 0
  | .unit, _ => return ()

end Edit

def Heap.typeInfo? (h : Heap) (d : Descriptor) : Option TypeInfo :=
  (h.registry.get? d).map fun t =>
    { name := t.name, tag := t.tag, base := t.base, behaviors := t.table.defined }

def Pin.action : Pin → Value → Action Unit
  | mark, v => .mark v
  | unmark, v => .change v .unmark
  | protect, v => .change v .protect
  | unprotect, v => .change v .unprotect
  | makePermanent, v => .change v .makePermanent

def Query.answer : Query → Heap → Value → Bool
  | contains, h, v => h.contains v
  | isMarked, h, v => h.isMarked v
  | isProtected, h, v => h.isProtected v
  | isPermanent, h, v => h.isPermanent v

def View.run (r : Runner) : View → Value → Run String
  | .inspect, v => TracedHeap.inspect r v
  | .stringify, v => TracedHeap.stringify r v
  | .dump, v => TracedHeap.dump r v

def containerTypes : Attempt Containers := do
  match (← world).containers with
  | some c => return c
  | none => throw (.raised "bad input: collections")

def Op.run (r : Runner) : Op → Attempt Reply
  -- types
  | register name tag => return .descriptor (some (← registerType name tag none))
  | derive name tag base => do
    let base ← base.resolve
    return .descriptor (some (← registerType name tag (some base)))
  | typeInfo type => do
    let d ← type.resolve
    return .typeInfo ((← heap).typeInfo? d)
  | typeNamed name => return .descriptor ((← heap).registry.named? name)
  | typeWithTag tag => return .descriptor ((← heap).registry.withTag? tag)
  | typeCount => return .count (← heap).registry.size
  | descriptorOf v => do
    let v ← v.resolve
    return .descriptor ((← heap).descriptorOf v)
  | typeName v => do
    let v ← v.resolve
    return .text ((← heap).typeName v)
  | behaviorsOf v => do
    let v ← v.resolve
    return .texts (((← heap).behaviorsOf v).map Behavior.name)
  -- instances and payloads
  | alloc payload type => do
    let p ← payload.resolve
    let d ← type.resolve
    return .value (← allocate r d p)
  | array items => do
    let vs ← Operand.resolveAll items
    return .value (← allocate r (← containerTypes).array (.items vs))
  | list items => do
    let vs ← Operand.resolveAll items
    return .value (← allocate r (← containerTypes).list (.items vs))
  | string text => return .value (← allocate r (← containerTypes).string (.text text))
  | table => return .value (← allocate r (← containerTypes).table (.table []))
  | quotation words => do
    let vs ← Operand.resolveAll words
    return .value (← allocate r (← containerTypes).quotation (.words vs))
  | payloadIs v kind => do
    let v ← v.resolve
    return .flag ((← heap).payloadIs v kind)
  | tableFind key v => do
    let key ← key.resolve
    let v ← v.resolve
    withPayload v .table fun entries => do
      let found ← (findKey r key entries : Run (Option Nat))
      return .position found
  | tableKeys v => do
    let v ← v.resolve
    return .values ((← Attempt.ask fun h => h.read v .table).map Prod.fst)
  -- operand stack
  | push v => do
    let v ← v.resolve
    Attempt.act (.push v)
    return .done
  | pop => return .value (← Attempt.ofRun (act .pop))
  | peek => return .value (← Attempt.ask fun h => h.pick 0)
  | pick n => return .value (← Attempt.ask fun h => h.pick n)
  | stackDepth => return .count (← heap).stack.length
  | truncateStack n => do
    Attempt.act (.truncateStack n)
    return .done
  | clearStack => do
    Attempt.act (.truncateStack 0)
    return .done
  | stack => return .values (← heap).stackValues
  -- frames
  | pushFrame caller => do
    TracedHeap.pushFrame (← caller.resolve)
    return .done
  | popFrame => do
    TracedHeap.popFrame
    return .done
  | frameDepth => return .count (← heap).frames.depth
  | frameCaller level => return .optional (((← heap).frames.level? level).map Frame.caller)
  | resyncFrames depth => do
    Attempt.act (.resyncFrames depth)
    return .done
  | attach v => do
    let v ← v.resolve
    let attached ← Attempt.act (.attach v)
    return .flag attached
  | frameInstances level => return .values (((← heap).frames.attachedAt level).map Value.ref)
  -- pins
  | pin p v => do
    let v ← v.resolve
    Attempt.act (p.action v)
    return .done
  | query q v => do
    let v ← v.resolve
    return .flag (q.answer (← heap) v)
  | protectedInstances => return .values (← heap).protectedInstances
  | permanentInstances => return .values (← heap).permanentInstances
  -- collector
  | collect => return .count (← TracedHeap.collect r)
  | teardown => return .count (← TracedHeap.teardown r)
  | setCollectionEnabled on => do
    Attempt.act (.setEnabled on)
    return .done
  | collectionEnabled => return .flag (← heap).collector.enabled
  | liveCount => return .count (← heap).pool.live
  | stats => return .stats (← heap).stats
  | statsText => return .text (← heap).stats.render
  | summary => return .text (← heap).summary
  | config => return .config (← heap).config
  -- header fields
  | setProperty v key item => do
    let v ← v.resolve
    let item ← item.resolve
    Attempt.change v (.setProperty key item)
    return .done
  | property v key => do
    let v ← v.resolve
    return .value (← Attempt.ask fun h => h.property v key)
  | removeProperty v key => do
    let v ← v.resolve
    let removed ← Attempt.ask fun h => h.property? v key
    Attempt.act (.change v (.removeProperty key))
    return .optional removed
  | propertyKeys v => do
    let v ← v.resolve
    return .texts (← Attempt.ask fun h => h.propertyKeys v)
  | setDebugHook v hook => do
    let v ← v.resolve
    let hook ← hook.resolve
    Attempt.change v (.setDebugHook hook)
    return .done
  | debugHook v => do
    let v ← v.resolve
    return .optional (← Attempt.ask fun h => h.debugHook v)
  | nextCursor v len => do
    let v ← v.resolve
    let n ← Attempt.ask fun h => h.cursorIn v len
    Attempt.act (.change v (.advanceCursor len))
    return .count n
  | resetCursor v => do
    let v ← v.resolve
    Attempt.change v .resetCursor
    return .done
  | invalidateSequence v => do
    let v ← v.resolve
    Attempt.change v .invalidateSequence
    return .done
  -- dispatch
  | view w v => do
    let v ← v.resolve
    return .text (← w.run r v)
  | toSequence v => do
    let v ← v.resolve
    return .value (← TracedHeap.toSequence r v)
  | copy v => do
    let v ← v.resolve
    return .value (← TracedHeap.copy r v)
  | get v index => do
    let v ← v.resolve
    let index ← index.resolve
    return .value (← getItem r v index)
  | set v index item => do
    let v ← v.resolve
    let index ← index.resolve
    let item ← item.resolve
    return .flag (← setItem r v index item)
  | equal v other => do
    let v ← v.resolve
    let other ← other.resolve
    return .flag (← TracedHeap.equal r v other)
  | length v => do
    let v ← v.resolve
    return .count (← TracedHeap.length r v)
  | call v => do
    let v ← v.resolve
    TracedHeap.call r v
    return .done
  -- values and control
  | value v => return .facts (← v.resolve)
  | letVal v => return .value (← v.resolve)
  | raise message => throw (.raised message)
  | abort message => (Run.abort message : Run Reply)
  | malformed _ reason => throw (.raised ("bad input: " ++ reason))

end TracedHeap
