import TracedHeap.Script.Run

/-!
# How operations and scripts are put together

Everything that runs on a heap is put together from few kinds of parts.  Whatever the parts have in
common, and the ways of putting them together keep, is had by everything that runs.  This module
goes along the text of the operations, the routines and the scripts once, for every such property.

* `Idiom`              the computations that have something, and the ways of putting computations
                       together that keep it;
* `Idiom.ofParts`      the case in which frames and payloads need no care of their own;
* `Idiom.step`         what the operations of a script have, the script has;
* `Action.harmless`    the actions most operations make do with;
* `Dialect`            an idiom that has these actions, and callbacks to call;
* `Dialect.routine`, `Dialect.op`
                       what it has, the plain routines and the plain operations have.

The lemmas follow the program text, and `grind` applies them backwards along it.
-/

namespace TracedHeap

open Run

/-- Computations that have something in common, which is kept when computations are put together. -/
structure Idiom where
  has : {α : Type} → Run α → Prop
  done : ∀ {α : Type} (a : α), has (Run.done a)
  look : ∀ {α : Type} (f : World → α), has (Run.look f)
  halt : ∀ {α : Type} (why : Halt), has (Run.halt why : Run α)
  /-- Beside the heap all may change but the container types that are known. -/
  note : ∀ {f : Context → Context}, (∀ c, (f c).containers = c.containers) → has (Run.note f)
  bind : ∀ {α β : Type} {x : Run α} {next : α → Run β},
    has x → (∀ a, has (next a)) → has (x >>= next)
  ensuring : ∀ {α : Type} {x : Run α} {f : Context → Context},
    (∀ c, (f c).containers = c.containers) → has x → has (Run.ensuring x (Run.note f))
  withFrame : ∀ {α : Type} (caller : Value) {x : Run α},
    has x → has (TracedHeap.withFrame caller x)
  withPayload : ∀ {α : Type} (v : Value) (k : Kind) {x : k.Content → Attempt α},
    (∀ c, has (x c).run) → has (TracedHeap.withPayload v k x).run

def Action.brackets : {α : Type} → Action α → Bool
  | _, pushFrame _ | _, popFrame | _, startUse .read _ | _, stopUse .read _ => true
  | _, _ => false

theorem Context.containers_record (c : Context) (e : Entry) :
    (c.record e).containers = c.containers := by
  unfold record
  split <;> rfl

/-- Frames and payloads need no care of their own where these actions have what is asked, and
whatever runs at the end of something else keeps it. -/
def Idiom.ofParts (has : {α : Type} → Run α → Prop) (done : ∀ {α : Type} (a : α), has (Run.done a))
    (look : ∀ {α : Type} (f : World → α), has (Run.look f))
    (halt : ∀ {α : Type} (why : Halt), has (Run.halt why : Run α))
    (note : ∀ {f : Context → Context}, (∀ c, (f c).containers = c.containers) → has (Run.note f))
    (bind : ∀ {α β : Type} {x : Run α} {next : α → Run β},
      has x → (∀ a, has (next a)) → has (x >>= next))
    (ensuring : ∀ {α : Type} {x : Run α} {last : Run Unit},
      has x → has last → has (Run.ensuring x last))
    (brackets : ∀ {α : Type} {a : Action α}, a.brackets = true → has (Run.act a)) : Idiom where
  has := has
  done := done
  look := look
  halt := halt
  note := note
  bind := bind
  ensuring hf hx := ensuring hx (note hf)
  withFrame {_} caller {x} hx := by
    have report : ∀ e, has (Run.report e) := fun e => note fun c => c.containers_record _
    refine bind (bind (look _) fun h => bind (brackets rfl) fun _ => ?_) fun _ =>
      ensuring hx (bind (look _) fun depth => bind (brackets rfl) fun _ => ?_)
    · split
      · exact report _
      · exact done _
    · split
      · exact report _
      · exact done _
  withPayload {_} v k {x} hx := by
    refine bind (look _) fun found => ?_
    cases found with
    | error e => exact done _
    | ok found =>
      refine bind (bind (brackets rfl) fun _ => done _) fun started => ?_
      cases started with
      | error e => exact done _
      | ok _ => exact ensuring (hx _) (brackets rfl)

namespace Idiom

attribute [grind ←] look halt note bind ensuring withFrame withPayload

section
variable (K : Idiom) {α β : Type}

@[grind ←]
theorem pure (a : α) : K.has (Pure.pure a : Run α) := K.done a

@[grind ←]
theorem heap : K.has Run.heap := K.look _

@[grind ←]
theorem world : K.has Run.world := K.look _

@[grind ←]
theorem record (e : Entry) : K.has (Run.record e) := K.note fun c => c.containers_record e

@[grind ←]
theorem report (e : Event) : K.has (Run.report e) := K.record _

@[grind ←]
theorem abort (message : String) : K.has (Run.abort message : Run α) := K.halt _

@[grind ←]
theorem exhausted : K.has (Run.exhausted : Run α) := K.halt _

@[grind ←]
theorem attempt_pure (a : α) : K.has (Pure.pure a : Attempt α).run := K.done _

@[grind ←]
theorem throw (e : Error) : K.has (MonadExcept.throw e : Attempt α).run := K.done _

@[grind ←]
theorem attempt_bind {x : Attempt α} {next : α → Attempt β} (hx : K.has x.run)
    (hnext : ∀ a, K.has (next a).run) : K.has (x >>= next).run := by
  refine K.bind hx fun outcome => ?_
  cases outcome with
  | error e => exact K.done _
  | ok a => exact hnext a

@[grind ←]
theorem lift {x : Run α} (hx : K.has x) : K.has (liftM x : Attempt α).run :=
  K.bind hx fun a => K.pure (Except.ok a)

@[grind ←]
theorem ofRun {x : Run (Except Error α)} (hx : K.has x) : K.has (Attempt.ofRun x).run := hx

@[grind ←]
theorem ask (f : Heap → Except Error α) : K.has (Attempt.ask f).run := K.look _

@[grind ←]
theorem attempt_act {a : Action α} (ha : K.has (act a)) : K.has (Attempt.act a).run := K.lift ha

/-! ## Scripts -/

@[grind ←]
theorem operand (o : Operand) : K.has o.resolve.run := by
  unfold Operand.resolve
  grind

@[grind ←]
theorem operands (os : List Operand) : K.has (Operand.resolveAll os).run := by
  induction os with
  | nil => exact K.attempt_pure _
  | cons o os ih =>
    unfold Operand.resolveAll
    grind

@[grind ←]
theorem operandPairs (os : List (Operand × Operand)) : K.has (Operand.resolvePairs os).run := by
  induction os with
  | nil => exact K.attempt_pure _
  | cons o os ih =>
    unfold Operand.resolvePairs
    grind

@[grind ←]
theorem typeRef (type : TypeRef) : K.has type.resolve.run := by
  unfold TypeRef.resolve
  grind

@[grind ←]
theorem literal (l : Literal) : K.has l.resolve.run := by
  unfold Literal.resolve
  grind

@[grind ←]
theorem edit (e : Edit) (k : Kind) (c : k.Content) : K.has (e.apply k c).run := by
  cases k <;> simp only [Edit.apply] <;> grind [Edit.applyList, Edit.applyEntries]

@[grind ←]
theorem containerTypes : K.has TracedHeap.containerTypes.run := by
  unfold TracedHeap.containerTypes
  grind

@[grind ←]
theorem hushed (quiet : Bool) {x : Attempt α} (hx : K.has x.run) :
    K.has (TracedHeap.hushed quiet x).run := by
  unfold TracedHeap.hushed
  refine K.attempt_bind (K.lift K.world) fun w => ?_
  exact K.attempt_bind (K.lift (K.note fun _ => rfl)) fun _ => K.ensuring (fun _ => rfl) hx

@[grind ←]
theorem bindGlobal (name : String) (v : Value) : K.has (TracedHeap.bindGlobal name v) :=
  K.note fun _ => rfl

@[grind ←]
theorem bindReply (name : String) (reply : Reply) : K.has (TracedHeap.bindReply name reply) := by
  unfold TracedHeap.bindReply
  grind

@[grind ←]
theorem loopFrom {x : Nat → Attempt Unit} (hx : ∀ i, K.has (x i).run) (n i : Nat) :
    K.has (TracedHeap.loopFrom x n i).run := by
  induction n generalizing i with
  | zero => exact K.attempt_pure _
  | succ n ih => exact K.attempt_bind (hx i) fun _ => ih (i + 1)

end

end Idiom

mutual

/-- The step and all steps inside it are as `p` says.  What it installs is not looked at. -/
def Step.everywhere (p : Step → Bool) : Step → Bool
  | s@(.payloadRead _ _ body) | s@(.payloadWrite _ _ body _) | s@(.withFrame _ body)
  | s@(.loop _ body _) => p s && Step.everyStep p body
  | s@(.branch _ yes no) => p s && Step.everyStep p yes && Step.everyStep p no
  | s@(.bind _ inner) | s@(.strict inner) => p s && inner.everywhere p
  | s@(.op _) | s@(.install ..) => p s

def Step.everyStep (p : Step → Bool) : List Step → Bool
  | [] => true
  | s :: rest => s.everywhere p && Step.everyStep p rest

end

section
variable {K : Idiom} {r : Runner} {p : Step → Bool}

mutual

theorem Step.everywhere_of_forall (hp : ∀ s, p s = true) : ∀ s : Step, s.everywhere p = true
  | .payloadRead _ _ body | .payloadWrite _ _ body _ | .withFrame _ body | .loop _ body _ =>
    Bool.and_eq_true_iff.mpr ⟨hp _, Step.everyStep_of_forall hp body⟩
  | .branch _ yes no => Bool.and_eq_true_iff.mpr ⟨Bool.and_eq_true_iff.mpr
    ⟨hp _, Step.everyStep_of_forall hp yes⟩, Step.everyStep_of_forall hp no⟩
  | .bind _ s | .strict s => Bool.and_eq_true_iff.mpr ⟨hp _, Step.everywhere_of_forall hp s⟩
  | .op _ | .install .. => hp _

theorem Step.everyStep_of_forall (hp : ∀ s, p s = true) :
    ∀ steps : List Step, Step.everyStep p steps = true
  | [] => rfl
  | s :: rest => Bool.and_eq_true_iff.mpr
    ⟨Step.everywhere_of_forall hp s, Step.everyStep_of_forall hp rest⟩

end

mutual

/-- What the operations of a step have, and its writing of payloads and its installing, if it does
any, the step has. -/
theorem Idiom.step (hop : ∀ o, p (.op o) = true → K.has (o.run r).run)
    (hinstall : ∀ type b id body answer, p (.install type b id body answer) = true →
      ∀ d, K.has (installCallback d b (.script { id, body, answer })))
    (hwrite : ∀ v kind body edit, p (.payloadWrite v kind body edit) = true →
      K.has (Step.runAll r body).run → K.has ((Step.payloadWrite v kind body edit).run r).run) :
    ∀ s : Step, s.everywhere p = true → K.has (s.run r).run
  | .op o => by
    intro hp
    unfold Step.run
    exact hop o hp
  | .install type b id body answer => by
    intro hp
    have := hinstall type b id body answer hp
    unfold Step.run
    grind
  | .payloadRead v kind body => by
    intro hp
    have hbody := Idiom.steps hop hinstall hwrite body (Bool.and_eq_true_iff.mp hp).2
    unfold Step.run
    grind
  | .payloadWrite v kind body edit => by
    intro hp
    obtain ⟨here, inside⟩ := Bool.and_eq_true_iff.mp hp
    exact hwrite v kind body edit here (Idiom.steps hop hinstall hwrite body inside)
  | .withFrame caller body => by
    intro hp
    have hbody := Idiom.steps hop hinstall hwrite body (Bool.and_eq_true_iff.mp hp).2
    unfold Step.run
    grind
  | .branch v yes no => by
    intro hp
    obtain ⟨hp, hno⟩ := Bool.and_eq_true_iff.mp hp
    have hyes := Idiom.steps hop hinstall hwrite yes (Bool.and_eq_true_iff.mp hp).2
    have hno := Idiom.steps hop hinstall hwrite no hno
    unfold Step.run
    grind
  | .loop n body quiet => by
    intro hp
    have hbody := Idiom.steps hop hinstall hwrite body (Bool.and_eq_true_iff.mp hp).2
    unfold Step.run
    grind
  | .bind name s => by
    intro hp
    have hs := Idiom.step hop hinstall hwrite s (Bool.and_eq_true_iff.mp hp).2
    unfold Step.run
    grind
  | .strict s => by
    intro hp
    unfold Step.run
    exact Idiom.step hop hinstall hwrite s (Bool.and_eq_true_iff.mp hp).2

theorem Idiom.steps (hop : ∀ o, p (.op o) = true → K.has (o.run r).run)
    (hinstall : ∀ type b id body answer, p (.install type b id body answer) = true →
      ∀ d, K.has (installCallback d b (.script { id, body, answer })))
    (hwrite : ∀ v kind body edit, p (.payloadWrite v kind body edit) = true →
      K.has (Step.runAll r body).run → K.has ((Step.payloadWrite v kind body edit).run r).run) :
    ∀ steps : List Step, Step.everyStep p steps = true → K.has (Step.runAll r steps).run
  | [] => by
    intro _
    unfold Step.runAll
    exact K.attempt_pure _
  | s :: rest => by
    intro hp
    obtain ⟨hs, hrest⟩ := Bool.and_eq_true_iff.mp hp
    have hs := Idiom.step hop hinstall hwrite s hs
    have hrest := Idiom.steps hop hinstall hwrite rest hrest
    unfold Step.runAll
    grind

end

end

/-! ## Harmless actions -/

def Change.harmless : Change → Bool
  | write _ | unmark | remember _ => false
  | protect | unprotect | makePermanent | setProperty .. | removeProperty _ | setDebugHook _
  | advanceCursor _ | resetCursor | invalidateSequence => true

def Action.harmless : {α : Type} → Action α → Bool
  | _, change _ c => c.harmless
  | _, register .. | _, mark .. | _, push .. | _, pop | _, truncateStack .. | _, attach ..
  | _, setEnabled .. => true
  | _, _ => false

attribute [grind =] Change.harmless Action.harmless

/-- The behaviors whose callbacks leave payloads as they are and make no instances, if they are
those of the containers. -/
def Behavior.plain : Behavior → Bool
  | inspect | toText | dump | get | equal | length | call => true
  | toSequence | copy | set | mark | free => false

attribute [grind =] Behavior.plain

/-- An idiom that has the harmless actions.  The callbacks that types have are among those it
`calls`. -/
structure Dialect extends Idiom where
  calls : {b : Behavior} → Callback b → Prop
  act : ∀ {α : Type} {a : Action α}, a.harmless = true → has (Run.act a)
  heap_bind : ∀ {α : Type} {next : Heap → Run α},
    (∀ h, (∀ b v (c : Callback b), h.callback b v = .ok (some c) → calls c) → has (next h)) →
    has (Run.heap >>= next)
  ask_callback : ∀ {α : Type} {b : Behavior} {v : Value} {next : Option (Callback b) → Attempt α},
    has (next none).run → (∀ c, calls c → has (next (some c)).run) →
    has (Attempt.ask (fun h => h.callback b v) >>= next).run

/-- The callbacks that leave payloads as they are, run by `r`, have what the dialect has. -/
def Dialect.Runs (K : Dialect) (r : Runner) : Prop :=
  ∀ {b : Behavior}, b.plain = true → ∀ c, K.calls c → ∀ args, K.has (r.run b c args)

namespace Dialect

attribute [grind ←] act

section
variable {K : Dialect} {r : Runner}

@[grind ←]
theorem change (v : Value) {c : Change} (hc : c.harmless = true) :
    K.has (Attempt.change v c).run := by
  unfold Attempt.change
  grind

@[grind ←]
theorem markAll (vs : List Value) : K.has (Run.markAll vs) := by
  induction vs with
  | nil => exact K.pure _
  | cons v vs ih => exact K.bind (K.act rfl) fun _ => ih

@[grind ←]
theorem registerType (name : String) (tag : Option Tag) (base : Option Descriptor) :
    K.has (TracedHeap.registerType name tag base).run := by
  unfold TracedHeap.registerType
  grind

/-! ## Callbacks -/

@[grind ←]
theorem inspect (hr : K.Runs r) (v : Value) : K.has (TracedHeap.inspect r v) := by
  refine K.heap_bind fun h known => ?_
  split
  · next c hc => exact hr rfl c (known _ _ c hc) _
  · exact K.pure _
  · exact K.pure _

@[grind ←]
theorem view (hr : K.Runs r) (w : View) (v : Value) : K.has (w.run r v) := by
  have hinspect := inspect hr v
  cases w with
  | inspect => exact hinspect
  | stringify | dump =>
    refine K.heap_bind fun h known => ?_
    split
    · next c hc => exact hr rfl c (known _ _ c hc) _
    · exact hinspect

@[grind ←]
theorem getItem (hr : K.Runs r) (v index : Value) : K.has (TracedHeap.getItem r v index).run :=
  K.ask_callback (K.attempt_pure _) fun c hc => hr rfl c hc (v, index)

@[grind ←]
theorem equal (hr : K.Runs r) (v other : Value) : K.has (TracedHeap.equal r v other) := by
  refine K.heap_bind fun h known => ?_
  split
  · next c hc => exact hr rfl c (known _ _ c hc) (v, other)
  · exact K.pure _

@[grind ←]
theorem length (hr : K.Runs r) (v : Value) : K.has (TracedHeap.length r v) := by
  refine K.heap_bind fun h known => ?_
  split
  · next c hc => exact hr rfl c (known _ _ c hc) _
  · exact K.pure _

@[grind ←]
theorem call (hr : K.Runs r) (v : Value) : K.has (TracedHeap.call r v).run :=
  K.ask_callback (K.attempt_act (K.act rfl)) fun c hc => K.withFrame v (hr rfl c hc v)

/-! ## Containers -/

@[grind ←]
theorem guardInspect (v : Value) (placeholder : String) {x : Run String} (hx : K.has x) :
    K.has (TracedHeap.guardInspect v placeholder x) := by
  refine K.bind K.world fun w => ?_
  split
  · exact K.pure _
  · exact K.bind (K.note fun _ => rfl) fun _ => K.ensuring (fun _ => rfl) hx

@[grind ←]
theorem guardCompare (v other : Value) {x : Run Bool} (hx : K.has x) :
    K.has (TracedHeap.guardCompare v other x) := by
  refine K.bind K.world fun w => ?_
  split
  · exact K.pure _
  · exact K.bind (K.note fun _ => rfl) fun _ => K.ensuring (fun _ => rfl) hx

@[grind ←]
theorem inspectEach (hr : K.Runs r) (vs : List Value) : K.has (TracedHeap.inspectEach r vs) := by
  induction vs with
  | nil => exact K.pure _
  | cons v vs ih =>
    unfold TracedHeap.inspectEach
    grind

@[grind ←]
theorem inspectAll (hr : K.Runs r) (vs : List Value) : K.has (TracedHeap.inspectAll r vs) := by
  unfold TracedHeap.inspectAll
  grind

@[grind ←]
theorem inspectEntries (hr : K.Runs r) (es : List (Value × Value)) :
    K.has (TracedHeap.inspectEntries r es) := by
  induction es with
  | nil => exact K.pure _
  | cons e es ih =>
    unfold TracedHeap.inspectEntries
    grind

@[grind ←]
theorem allEqual (hr : K.Runs r) (es : List (Value × Value)) :
    K.has (TracedHeap.allEqual r es) := by
  induction es with
  | nil => exact K.pure _
  | cons e es ih =>
    unfold TracedHeap.allEqual
    grind

@[grind ←]
theorem findKey (hr : K.Runs r) (key : Value) (es : List (Value × Value)) :
    K.has (TracedHeap.findKey r key es) := by
  induction es with
  | nil => exact K.pure _
  | cons e es ih =>
    unfold TracedHeap.findKey
    grind

@[grind ←]
theorem markParts (container : Traced) (v : Value) (parts : Heap → Except Error (List Value)) :
    K.has (TracedHeap.markParts container v parts) := by
  unfold TracedHeap.markParts
  grind

@[grind ←]
theorem callEach (hr : K.Runs r) (vs : List Value) : K.has (TracedHeap.callEach r vs).run := by
  induction vs with
  | nil => exact K.attempt_pure _
  | cons v vs ih => exact K.attempt_bind (call hr v) fun _ => ih

end

end Dialect

def Routine.plain : {b : Behavior} → Routine b → Bool
  | _, stringSequence _ | _, tableSequence _ | _, arrayCopy _ | _, stringCopy _ | _, tableCopy _
  | _, arraySet | _, tableSet => false
  | _, _ => true

theorem Dialect.routine {K : Dialect} {r : Runner} (hr : K.Runs r) {b : Behavior} (k : Routine b)
    (hk : k.plain = true) (args : b.Args) : K.has (k.run r args) := by
  cases k with
  | stringSequence | tableSequence | arrayCopy | stringCopy | tableCopy | arraySet | tableSet =>
    cases hk
  | _ =>
    simp only [Routine.run]
    grind [sequenceText, stringInspect, tableInspect, quotationInspect, stringText, arrayGet,
      stringGet, tableGet, quotationGet, arrayEqual, stringEqual, arrayLength, stringLength,
      tableLength, quotationLength, arrayMark, tableMark, quotationMark, quotationCall]

/-- The operations that do nothing but harmless actions, and call no callbacks but those that leave
payloads as they are. -/
def Op.plain : Op → Bool
  | alloc .. | array _ | list _ | string _ | table | quotation _ | pushFrame _ | popFrame
  | resyncFrames _ | pin .unmark _ | collect | teardown | toSequence _ | copy _ | set .. => false
  | _ => true

theorem Dialect.op {K : Dialect} {r : Runner} (hr : K.Runs r) (o : Op) (ho : o.plain = true) :
    K.has (o.run r).run := by
  cases o with
  | alloc | array | list | string | table | quotation | pushFrame | popFrame | resyncFrames
  | collect | teardown | toSequence | copy | set => cases ho
  | pin p v =>
    have pinned : ∀ u, K.has (Run.act (p.action u)) := by
      intro u
      cases p with
      | unmark => cases ho
      | _ => exact K.act rfl
    simp only [Op.run]
    grind
  | _ =>
    simp only [Op.run]
    grind

end TracedHeap
