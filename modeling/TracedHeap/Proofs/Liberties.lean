import TracedHeap.Proofs.Conduct
import TracedHeap.Proofs.Idiom

/-!
# The liberties of a script

Everything that runs on a heap, an operation, a routine or a script inside it, is put together from
few kinds of parts.  This module names the parts that change the heap and shows once that no others
are used, so that what every part has is had by everything that runs.  A few parts are used only
where a script asks for them by name; a property that one of them would break holds of the scripts
that do without it.

* `Action.ordinary`   the actions that stand alone.  The others come in groups: the turns of a
                      collection, the beginning and the end of the use of a payload, the check of a
                      payload and its writing, a release and its free callback;
* `Liberty`           what is done only where a script asks for it;
* `Step.avoids`       the steps that ask for none of the given liberties;
* `Transition.avoids` if a callback is called here, its script asks for none of them either;
* `Run.Avoids`        computations made of ordinary actions and of such groups, that take none of
                      the given liberties as long as no callback does;
* `avoids_step`, `Runner.avoids_ofDepth`
                      scripts, and callbacks to whatever depth, are such computations;
* `Conduct.Admits`    what has to be shown of the parts, so that all such computations follow a
                      conduct.

The text of operations and scripts is gone along as `Idiom` and `Dialect` say; only the parts that
are not plain are gone through here, and `grind` applies their lemmas backwards.
-/

namespace TracedHeap

open Run

def Change.ordinary : Change → Bool
  | write _ => false
  | unmark | protect | unprotect | makePermanent | setProperty .. | removeProperty _
  | setDebugHook _ | advanceCursor _ | resetCursor | invalidateSequence | remember _ => true

def Action.ordinary : {α : Type} → Action α → Bool
  | _, change _ c => c.ordinary
  | _, invoke b _ _ => b != .free
  | _, register .. | _, install .. | _, mark .. | _, push .. | _, pop | _, truncateStack ..
  | _, pushFrame .. | _, popFrame | _, resyncFrames .. | _, attach .. | _, nextGray | _, schedule
  | _, setEnabled .. => true
  | _, place .. | _, evict .. | _, startUse .. | _, stopUse .. | _, startMarking | _, startSweep
  | _, startTeardown | _, finishCollection .. | _, setPhase .. => false

def Action.traces : {α : Type} → Action α → Bool
  | _, nextGray => true
  | _, invoke b _ _ => b == .mark
  | _, register .. | _, install .. | _, change .. | _, mark .. | _, push .. | _, pop
  | _, truncateStack .. | _, pushFrame .. | _, popFrame | _, resyncFrames .. | _, attach ..
  | _, schedule | _, setEnabled .. | _, place .. | _, evict .. | _, startUse .. | _, stopUse ..
  | _, startMarking | _, startSweep | _, startTeardown | _, finishCollection .. | _, setPhase .. =>
    false

abbrev Runner.Body := (b : Behavior) → Callback b → b.Args → Run b.Reply

/-- Every callback says that it starts, and then does what `body` says. -/
def Runner.Announces (r : Runner) (body : Runner.Body) : Prop :=
  ∀ b c args, r.run b c args = act (.invoke b c args) >>= fun _ => body b c args

/-! ## Liberties -/

/-- What is done only where a script asks for it. -/
inductive Liberty where
  /-- To push or pop a frame other than by running something inside it. -/
  | pushFrame
  | popFrame
  | resyncFrames
  | teardown
  | unmark
  /-- To make other container types known; no step of a script does. -/
  | adopt
  /-- To trace an instance other than by a collection; no step of a script does. -/
  | trace
deriving DecidableEq

section
variable (F : List Liberty)

def Change.avoids : Change → Bool
  | unmark => .unmark ∉ F
  | protect | unprotect | makePermanent | setProperty .. | removeProperty _ | setDebugHook _
  | advanceCursor _ | resetCursor | invalidateSequence | remember _ | write _ => true

def Action.avoids : {α : Type} → Action α → Bool
  | _, pushFrame _ => .pushFrame ∉ F
  | _, popFrame => .popFrame ∉ F
  | _, resyncFrames _ => .resyncFrames ∉ F
  | _, startTeardown => .teardown ∉ F
  | _, change _ c => c.avoids F
  | _, register .. | _, install .. | _, mark .. | _, push .. | _, pop | _, truncateStack ..
  | _, attach .. | _, nextGray | _, schedule | _, setEnabled .. | _, invoke .. | _, place ..
  | _, evict .. | _, startUse .. | _, stopUse .. | _, startMarking | _, startSweep
  | _, finishCollection .. | _, setPhase .. => true

def Op.avoids : Op → Bool
  | pushFrame _ => .pushFrame ∉ F
  | popFrame => .popFrame ∉ F
  | resyncFrames _ => .resyncFrames ∉ F
  | teardown => .teardown ∉ F
  | pin .unmark _ => .unmark ∉ F
  | _ => true

def Step.avoidsHere : Step → Bool
  | op o => o.avoids F
  | _ => true

/-- The step takes none of the liberties `F`.  What it installs runs where it is called, and is not
looked at. -/
def Step.avoids (s : Step) : Bool := s.everywhere (Step.avoidsHere F)

def Step.allAvoid (steps : List Step) : Bool := Step.everyStep (Step.avoidsHere F) steps

def Answer.avoids : Answer Step → Bool
  | result step => step.avoids F
  | _ => true

def Callback.avoids {b : Behavior} : Callback b → Bool
  | routine _ => true
  | script s => Step.allAvoid F s.body && s.answer.avoids F

def Transition.avoids : Transition → Bool
  | ⟨.invoke _ c _, _⟩ => c.avoids F
  | _ => true

/-- A change beside the heap that leaves the container types known as they are, or need not. -/
def Liberty.Beside (f : Context → Context) : Prop :=
  .adopt ∉ F ∨ ∀ c, (f c).containers = c.containers

/-- Computations made of ordinary actions, of payloads used and written as they should be, and of
whole collections, teardowns and allocations, whose callbacks announce themselves and go on in the
same way.  None of the liberties `F` is taken, unless a callback is called that takes it. -/
inductive Run.Avoids : {α : Type} → Run α → Prop where
  | done {α : Type} (a : α) : Avoids (done a)
  | look {α : Type} (f : World → α) : Avoids (look f)
  | note (f : Context → Context) : Liberty.Beside F f → Avoids (note f)
  | halt {α : Type} (why : Halt) : Avoids (halt why : Run α)
  | act {α : Type} {a : Action α} :
      a.ordinary = true → a.avoids F = true → (.trace ∈ F → a.traces = false) → Avoids (act a)
  | andThen {α β : Type} {x : Run α} {next : α → Run β} :
      Avoids x → (∀ a, Avoids (next a)) → Avoids (andThen x next)
  | ensuring {α : Type} {x : Run α} (f : Context → Context) :
      Liberty.Beside F f → Avoids x → Avoids (ensuring x (note f))
  | invoke {α : Type} {b : Behavior} (c : Callback b) (args : b.Args) {x : Run α} :
      b ≠ .free → b ≠ .mark → (c.avoids F = true → Avoids x) →
      Avoids (Run.act (.invoke b c args) >>= fun _ => x)
  | withFrame {α : Type} (caller : Value) {x : Run α} : Avoids x → Avoids (withFrame caller x)
  | withPayload {α : Type} (v : Value) (k : Kind) {x : k.Content → Attempt α} :
      (∀ c, Avoids (x c).run) → Avoids (withPayload v k x).run
  | withPayloadMut {α : Type} (v : Value) (k : Kind) {x : k.Content → Attempt (α × k.Content)} :
      (∀ c, Avoids (x c).run) → Avoids (withPayloadMut v k x).run
  | writePayload (v : Value) (k : Kind) (f : k.Content → Except Error k.Content) :
      Avoids (writePayload v k f).run
  | collect {r : Runner} {body : Runner.Body} :
      r.Announces body → (∀ b (c : Callback b) args, c.avoids F = true → Avoids (body b c args)) →
      Avoids (collect r)
  | teardown {r : Runner} {body : Runner.Body} :
      .teardown ∉ F → r.Announces body →
      (∀ b (c : Callback b) args, c.avoids F = true → Avoids (body b c args)) → Avoids (teardown r)
  | allocate {r : Runner} {body : Runner.Body} (d : Descriptor) (p : Payload) :
      r.Announces body → (∀ b (c : Callback b) args, c.avoids F = true → Avoids (body b c args)) →
      Avoids (allocate r d p).run

/-- The callbacks of a runner announce themselves and then take no liberty of `F` that their script
does not ask for. -/
def Runner.Avoids (r : Runner) : Prop :=
  ∃ body, r.Announces body ∧
    ∀ b (c : Callback b) args, c.avoids F = true → (body b c args).Avoids F

end

/-! ## Operations -/

def Liberty.dialect (F : List Liberty) : Dialect where
  has := Run.Avoids F
  done := .done
  look := .look
  halt := .halt
  note hf := .note _ (.inr hf)
  bind := .andThen
  ensuring hf hx := .ensuring _ (.inr hf) hx
  withFrame := .withFrame
  withPayload := .withPayload
  calls _ := True
  act {_ a} ha := by
    cases a with
    | change v c =>
      cases c with
      | write | unmark | remember => cases ha
      | _ => exact .act rfl rfl fun _ => rfl
    | register | mark | push | pop | truncateStack | attach | setEnabled =>
      exact .act rfl rfl fun _ => rfl
    | _ => cases ha
  heap_bind hnext := .andThen (.look _) fun h => hnext h fun _ _ _ _ => trivial
  ask_callback hnone hsome := by
    refine .andThen (.look _) fun outcome => ?_
    rcases outcome with _ | _ | c
    · exact .done _
    · exact hnone
    · exact hsome c trivial

section
variable {F : List Liberty} {r : Runner} {α : Type}

attribute [grind =] Action.ordinary Change.ordinary Action.avoids Change.avoids Action.traces

@[grind ←]
theorem avoids_act {a : Action α} (h : a.ordinary = true) (free : a.avoids F = true)
    (untraced : a.traces = false) : (Liberty.dialect F).has (act a) := .act h free fun _ => untraced

@[grind ←]
theorem avoids_withPayloadMut (v : Value) (k : Kind) {x : k.Content → Attempt (α × k.Content)}
    (hx : ∀ c, (Liberty.dialect F).has (x c).run) :
    (Liberty.dialect F).has (withPayloadMut v k x).run := .withPayloadMut v k hx

@[grind ←]
theorem avoids_writePayload (v : Value) (k : Kind) (f : k.Content → Except Error k.Content) :
    (Liberty.dialect F).has (writePayload v k f).run := .writePayload v k f

@[grind ←]
theorem Runner.Avoids.run (hr : r.Avoids F) {b : Behavior} (hfree : b ≠ .free) (hmark : b ≠ .mark)
    (c : Callback b) (args : b.Args) : (Liberty.dialect F).has (r.run b c args) := by
  obtain ⟨body, announces, hbody⟩ := hr
  rw [announces]
  exact .invoke c args hfree hmark (hbody b c args)

@[grind ←]
theorem Runner.Avoids.runs (hr : r.Avoids F) : (Liberty.dialect F).Runs r := by
  intro b plain c _ args
  refine hr.run ?_ ?_ c args
  · rintro rfl
    cases plain
  · rintro rfl
    cases plain

@[grind ←]
theorem avoids_collect (hr : r.Avoids F) : (Liberty.dialect F).has (collect r) := by
  obtain ⟨body, announces, hbody⟩ := hr
  exact .collect announces hbody

@[grind ←]
theorem avoids_teardown (free : .teardown ∉ F) (hr : r.Avoids F) :
    (Liberty.dialect F).has (teardown r) := by
  obtain ⟨body, announces, hbody⟩ := hr
  exact .teardown free announces hbody

@[grind ←]
theorem avoids_allocate (hr : r.Avoids F) (d : Descriptor) (p : Payload) :
    (Liberty.dialect F).has (allocate r d p).run := by
  obtain ⟨body, announces, hbody⟩ := hr
  exact .allocate d p announces hbody

@[grind ←]
theorem avoids_pushFrame (free : .pushFrame ∉ F) (caller : Value) :
    (Liberty.dialect F).has (pushFrame caller) := by
  unfold pushFrame
  grind

@[grind ←]
theorem avoids_popFrame (free : .popFrame ∉ F) : (Liberty.dialect F).has popFrame := by
  unfold popFrame
  grind

@[grind ←]
theorem avoids_change (v : Value) {c : Change} (hc : c.ordinary = true)
    (free : c.avoids F = true) : (Liberty.dialect F).has (Attempt.change v c).run := by
  unfold Attempt.change
  grind

@[grind ←]
theorem avoids_installCallback (d : Descriptor) (b : Behavior) (c : Callback b) :
    (Liberty.dialect F).has (installCallback d b c) := by
  unfold installCallback
  grind

@[grind ←]
theorem avoids_convert (hr : r.Avoids F) (c : Callback .toSequence) (v : Value) :
    (Liberty.dialect F).has (convert r c v).run := by
  unfold convert
  grind

@[grind ←]
theorem avoids_toSequence (hr : r.Avoids F) (v : Value) :
    (Liberty.dialect F).has (toSequence r v).run := by
  refine (Liberty.dialect F).ask_callback (Idiom.attempt_pure _ _) fun c _ => ?_
  refine Idiom.attempt_bind _ (Idiom.ask _ _) fun e => ?_
  grind

@[grind ←]
theorem avoids_copy (hr : r.Avoids F) (v : Value) : (Liberty.dialect F).has (copy r v).run := by
  unfold copy
  grind

@[grind ←]
theorem avoids_setItem (hr : r.Avoids F) (v index item : Value) :
    (Liberty.dialect F).has (setItem r v index item).run := by
  unfold setItem
  grind

theorem avoids_routine (hr : r.Avoids F) {b : Behavior} (k : Routine b) (args : b.Args) :
    (Liberty.dialect F).has (k.run r args) := by
  cases k with
  | stringSequence | tableSequence | arrayCopy | stringCopy | tableCopy | arraySet | tableSet =>
    simp only [Routine.run]
    grind [stringSequence, tableSequence, arrayCopy, stringCopy, tableCopy, arraySet, tableSet]
  | _ => exact Dialect.routine hr.runs _ rfl args

theorem avoids_op (hr : r.Avoids F) (o : Op) (free : o.avoids F = true) :
    (Liberty.dialect F).has (o.run r).run := by
  cases o with
  | alloc | array | list | string | table | quotation | pushFrame | popFrame | resyncFrames
  | collect | teardown | toSequence | copy | set =>
    simp only [Op.run]
    grind [Op.avoids]
  | pin p v =>
    cases p with
    | unmark =>
      have unmark : ∀ u, (Liberty.dialect F).has (act (.change u .unmark)) :=
        fun _ => avoids_act rfl free rfl
      simp only [Op.run, Pin.action]
      grind
    | _ => exact Dialect.op hr.runs _ rfl
  | _ => exact Dialect.op hr.runs _ rfl

/-! ## Scripts -/

theorem avoids_payloadWrite (v : Operand) (kind : Kind) {body : List Step} (edit : Edit)
    (hbody : (Liberty.dialect F).has (Step.runAll r body).run) :
    (Liberty.dialect F).has ((Step.payloadWrite v kind body edit).run r).run := by
  unfold Step.run
  grind

theorem avoids_step (hr : r.Avoids F) (s : Step) (free : s.avoids F = true) :
    (Liberty.dialect F).has (s.run r).run :=
  Idiom.step (avoids_op hr) (fun _ _ _ _ _ _ d => avoids_installCallback d _ _)
    (fun v kind _ edit _ hbody => avoids_payloadWrite v kind edit hbody) s free

theorem avoids_steps (hr : r.Avoids F) (steps : List Step) (free : Step.allAvoid F steps = true) :
    (Liberty.dialect F).has (Step.runAll r steps).run :=
  Idiom.steps (avoids_op hr) (fun _ _ _ _ _ _ d => avoids_installCallback d _ _)
    (fun v kind _ edit _ hbody => avoids_payloadWrite v kind edit hbody) steps free

@[grind ←]
theorem avoids_part (hr : r.Avoids F) (p : Part) : (Liberty.dialect F).has (p.run r) := by
  unfold Part.run
  grind

@[grind ←]
theorem avoids_parts (hr : r.Avoids F) (ps : List Part) :
    (Liberty.dialect F).has (Part.runAll r ps) := by
  induction ps with
  | nil => exact Idiom.pure _ _
  | cons p ps ih =>
    unfold Part.runAll
    grind

@[grind ←]
theorem avoids_asText (hr : r.Avoids F) (a : Answer Step) :
    (Liberty.dialect F).has (a.asText r) := by
  unfold Answer.asText
  grind

@[grind ←]
theorem avoids_asVerdict (hr : r.Avoids F) {a : Answer Step} (free : a.avoids F = true) :
    (Liberty.dialect F).has (a.asVerdict r) := by
  cases a with
  | result step =>
    have hstep := avoids_step hr step free
    unfold Answer.asVerdict
    grind
  | _ => exact Idiom.pure _ _

@[grind ←]
theorem avoids_asCount (hr : r.Avoids F) {a : Answer Step} (free : a.avoids F = true) :
    (Liberty.dialect F).has (a.asCount r) := by
  cases a with
  | result step =>
    have hstep := avoids_step hr step free
    unfold Answer.asCount
    grind
  | _ => exact Idiom.pure _ _

@[grind ←]
theorem avoids_valueUnlessFailed (s : Script) (ended : Except Error Unit) :
    (Liberty.dialect F).has (s.valueUnlessFailed ended) := by
  unfold Script.valueUnlessFailed Answer.asValue
  grind

@[grind ←]
theorem avoids_runBody (hr : r.Avoids F) {s : Script} (free : Step.allAvoid F s.body = true)
    (args : Arguments) (scope : Bindings) {answer : Except Error Unit → Run α}
    (ha : ∀ ended, (Liberty.dialect F).has (answer ended)) :
    (Liberty.dialect F).has (s.runBody r args scope answer) := by
  have hbody := avoids_steps hr s.body free
  have inside : (Liberty.dialect F).has (ensuring (do answer (← (Step.runAll r s.body).run))
      (note fun c => { c with scopes := c.scopes.tail })) :=
    Idiom.ensuring _ (fun _ => rfl) (Idiom.bind _ hbody ha)
  have entered : (Liberty.dialect F).has (note fun c => { c with scopes := scope :: c.scopes }) :=
    Idiom.note _ fun _ => rfl
  unfold Script.runBody
  grind

theorem avoids_script (hr : r.Avoids F) {s : Script} (body : Step.allAvoid F s.body = true)
    (answer : s.answer.avoids F = true) (b : Behavior) (args : b.Args) :
    (Liberty.dialect F).has (s.run r b args) := by
  cases b <;> simp only [Script.run, Script.runOn] <;>
    grind

end

/-- Callbacks take no liberty their script does not ask for, and neither does what they call, to
whatever depth. -/
theorem Runner.avoids_ofDepth (F : List Liberty) (n : Nat) : (Runner.ofDepth n).Avoids F := by
  induction n with
  | zero => exact ⟨fun _ _ _ => exhausted, fun _ _ _ => rfl, fun _ _ _ _ => .halt _⟩
  | succ n ih =>
    refine ⟨fun _ c args => c.run (ofDepth n) args, fun _ _ _ => rfl, fun b c args free => ?_⟩
    cases c with
    | routine k => exact avoids_routine ih k args
    | script s =>
      obtain ⟨body, answer⟩ := Bool.and_eq_true_iff.mp free
      exact avoids_script ih body answer b args

/-! ## What follows of them -/

/-- What is asked of computations as long as the callbacks called take no liberty of `F`. -/
def Conduct.heeding (C : Conduct) (F : List Liberty) : Conduct where
  pre _ := True
  rel h ts h' := Path h ts h' ∧ ((∀ t ∈ ts, t.avoids F = true) → C.pre h → C.rel h ts h')
  nil _ := ⟨.nil _, fun _ hp => C.nil hp⟩
  append := by
    rintro h h' h'' ts us ⟨path, first⟩ ⟨path', second⟩
    refine ⟨path.append path', fun heeds hp => ?_⟩
    obtain ⟨hfirst, hsecond⟩ := List.forall_mem_append.mp heeds
    have here := first hfirst hp
    exact C.append here (second hsecond (C.keeps path hp here))
  keeps _ _ _ := trivial

section
variable {C : Conduct} {F : List Liberty} {α : Type}

theorem heeding_of_follows {x : Run α} (hx : x.Follows C) : x.Follows (C.heeding F) :=
  fun w _ => ⟨x.path_trace w, fun _ hp => hx w hp⟩

theorem heeding_invoke (hact : ∀ {β : Type} {a : Action β}, a.avoids F = true → (act a).Follows C)
    {b : Behavior} {c : Callback b} {args : b.Args} {x : Run α}
    (hx : c.avoids F = true → x.Follows (C.heeding F)) :
    (act (.invoke b c args) >>= fun _ => x).Follows (C.heeding F) := by
  intro w _
  refine ⟨Run.path_trace _ w, fun heeds hp => ?_⟩
  have called : c.avoids F = true := heeds ⟨.invoke b c args, w.heap⟩ List.mem_cons_self
  have whole : (act (.invoke b c args) >>= fun _ => x).Follows (C.heeding F) :=
    follows_bind (heeding_of_follows (hact rfl)) fun _ => hx called
  exact (whole w trivial).2 heeds hp

/-- What a conduct has to say of frames: it can be asked for inside a frame, and what holds inside a
frame holds from the entry of the frame to its exit. -/
structure Conduct.Nests (C : Conduct) : Prop where
  enter : ∀ {h : Heap} (caller : Value), C.pre h → C.pre (h.pushFrame caller)
  leave : ∀ {h h' : Heap} (caller : Value) {ts : List Transition}, C.pre h →
    Path (h.pushFrame caller) ts h' → C.rel (h.pushFrame caller) ts h' →
    C.rel h (⟨.pushFrame caller, h⟩ :: (ts ++ [⟨.popFrame, h'⟩])) h'.popFrame

theorem heeding_withFrame (nests : C.Nests) (caller : Value) {x : Run α}
    (hx : x.Follows (C.heeding F)) : (withFrame caller x).Follows (C.heeding F) := by
  intro w _
  refine ⟨Run.path_trace _ w, fun heeds hp => ?_⟩
  obtain ⟨path, inside⟩ := hx (w.inFrame caller) trivial
  rw [World.heap_inFrame] at path inside
  rw [trace_withFrame] at heeds ⊢
  rw [(exec_withFrame caller x w).2]
  refine nests.leave caller hp path (inside (fun t ht => heeds t ?_) (nests.enter caller hp))
  exact List.mem_cons_of_mem _ (List.mem_append_left _ ht)

/-- What a conduct has to admit so that every computation follows it that takes no liberty
of `F`. -/
structure Conduct.Admits (C : Conduct) (F : List Liberty) : Prop where
  act : ∀ {β : Type} {a : Action β}, a.ordinary = true → a.avoids F = true →
    (.trace ∈ F → a.traces = false) → (Run.act a).Follows C
  handles : ∀ {β : Type} {a : Action β}, a.handles = true → (Run.act a).Follows C
  invoke : ∀ {β : Type} {b : Behavior} (c : Callback b) (args : b.Args) {x : Run β}, b ≠ .free →
    b ≠ .mark → (c.avoids F = true → x.Follows C) →
    (Run.act (.invoke b c args) >>= fun _ => x).Follows C
  withFrame : ∀ {β : Type} (caller : Value) {x : Run β}, x.Follows C →
    (withFrame caller x).Follows C
  collect : ∀ {r : Runner} {body : Runner.Body}, r.Announces body →
    (∀ b (c : Callback b) args, c.avoids F = true → (body b c args).Follows C) →
    (collect r).Follows C
  teardown : ∀ {r : Runner} {body : Runner.Body}, .teardown ∉ F → r.Announces body →
    (∀ b (c : Callback b) args, c.avoids F = true → (body b c args).Follows C) →
    (teardown r).Follows C
  allocate : ∀ {r : Runner} {body : Runner.Body} (d : Descriptor) (p : Payload), r.Announces body →
    (∀ b (c : Callback b) args, c.avoids F = true → (body b c args).Follows C) →
    (allocate r d p).run.Follows C

theorem Run.Avoids.follows_of_admits (admits : C.Admits F) {x : Run α} (h : x.Avoids F) :
    x.Follows C := by
  induction h with
  | done a => exact follows_pure a
  | look f => exact follows_look f
  | note f _ => exact follows_note f
  | halt why => exact follows_halt why
  | act ordinary free untraced => exact admits.act ordinary free untraced
  | andThen _ _ hx hnext => exact follows_bind hx hnext
  | ensuring f _ _ hx => exact follows_ensuring hx (follows_note f)
  | invoke c args hfree hmark _ hx => exact admits.invoke c args hfree hmark hx
  | withFrame caller _ hx => exact admits.withFrame caller hx
  | withPayload v k _ hx => exact follows_withPayload admits.handles v k hx
  | withPayloadMut v k _ hx => exact follows_withPayloadMut admits.handles v k hx
  | writePayload v k f => exact follows_writePayload admits.handles v k f
  | collect announces _ hbody => exact admits.collect announces hbody
  | teardown free announces _ hbody => exact admits.teardown free announces hbody
  | allocate d p announces _ hbody => exact admits.allocate d p announces hbody

/-- What every action that takes no liberty of `F` follows, all computations follow that take no
liberty of `F`, if frames can be nested. -/
theorem Run.Avoids.follows
    (hact : ∀ {β : Type} {a : Action β}, a.avoids F = true → (Run.act a).Follows C)
    (nests : C.Nests) {x : Run α} (h : x.Avoids F) : x.Follows (C.heeding F) := by
  have hplain : ∀ {β : Type} {a : Action β}, a.avoids F = true →
      (Run.act a).Follows (C.heeding F) := fun ha => heeding_of_follows (hact ha)
  have hcollects : ∀ {β : Type} {a : Action β}, a.collects = true →
      (Run.act a).Follows (C.heeding F) := by
    intro β a ha
    cases a with
    | mark | nextGray | startMarking | startSweep | evict | finishCollection | setPhase | schedule =>
      exact hplain rfl
    | _ => cases ha
  have hcallbacks : ∀ {r : Runner} {body : Runner.Body} (b : Behavior), r.Announces body →
      (∀ b (c : Callback b) args, c.avoids F = true →
        (body b c args).Follows (C.heeding F)) → r.FollowsOn (C.heeding F) b := by
    intro r body b announces hbody _ _ _ c _ args
    rw [announces]
    exact heeding_invoke hact (hbody b c args)
  refine h.follows_of_admits
    { act := fun _ free _ => hplain free
      handles := ?_
      invoke := ?_
      withFrame := heeding_withFrame nests
      collect := ?_
      teardown := ?_
      allocate := ?_ }
  · intro β a ha
    cases a with
    | change v c =>
      cases c with
      | write => exact hplain rfl
      | _ => cases ha
    | startUse | stopUse => exact hplain rfl
    | _ => cases ha
  · intro β b c args x _ _ hx
    exact heeding_invoke hact hx
  · intro r body announces hbody
    exact follows_collect hcollects (hcallbacks .mark announces hbody)
      (hcallbacks .free announces hbody)
  · intro r body free announces hbody
    exact follows_teardown hcollects (hplain (decide_eq_true free))
      (hcallbacks .free announces hbody)
  · intro r body d p announces hbody
    have hdue := follows_collectIfDue hcollects (hcallbacks .mark announces hbody)
      (hcallbacks .free announces hbody)
    exact follows_allocate hdue (hplain rfl)

def Conduct.each (P : Transition → Prop) : Conduct where
  pre _ := True
  rel _ ts _ := ∀ t ∈ ts, P t
  nil _ := by simp
  append first second := List.forall_mem_append.mpr ⟨first, second⟩
  keeps _ _ _ := trivial

/-- What holds of the actions that take no liberty of `F`, and of entering and leaving a frame, holds
of every transition of a computation that takes none. -/
theorem Run.Avoids.each {P : Transition → Prop} {x : Run α} (h : x.Avoids F)
    (hact : ∀ {β : Type} {a : Action β}, a.avoids F = true → ∀ heap, P ⟨a, heap⟩)
    (hpush : ∀ caller heap, P ⟨.pushFrame caller, heap⟩) (hpop : ∀ heap, P ⟨.popFrame, heap⟩)
    {w : World} (heeds : ∀ t ∈ x.trace w, t.avoids F = true) : ∀ t ∈ x.trace w, P t := by
  have plain : ∀ {β : Type} {a : Action β}, a.avoids F = true →
      (Run.act a).Follows (Conduct.each P) :=
    fun free => follows_act fun heap _ => List.forall_mem_singleton.mpr (hact free heap)
  have nests : (Conduct.each P).Nests := by
    refine ⟨fun _ _ => trivial, fun caller ts _ _ inside => ?_⟩
    refine List.forall_mem_cons.mpr ⟨hpush caller _, List.forall_mem_append.mpr ⟨inside, ?_⟩⟩
    exact List.forall_mem_singleton.mpr (hpop _)
  exact (h.follows plain nests w trivial).2 heeds trivial

end

end TracedHeap
