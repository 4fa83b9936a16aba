import TracedHeap.Proofs.Trace

/-!
# Conduct

Many properties of computations are of one form: on heaps of some kind, the transitions of the
computation are of some kind, and the heap that they leave is again one on which the same can be
asked of what follows.  Such a property passes from the parts of a computation to the whole.

* `Conduct`        which heaps, and which transitions;
* `Run.Follows`    the computation conducts itself so, wherever it starts;
* `Session.follows_history`
                   so does a session if its parts do.

The lemmas on `Follows` go along the program text, and `grind` applies them backwards.
-/

namespace TracedHeap

open Run

/-- What is asked of computations: on heaps that satisfy `pre`, the transitions `ts` from `h` to
`h'` satisfy `rel h ts h'`. -/
structure Conduct where
  pre : Heap → Prop
  rel : Heap → List Transition → Heap → Prop
  nil : ∀ {h}, pre h → rel h [] h
  append : ∀ {h h' h'' ts us}, rel h ts h' → rel h' us h'' → rel h (ts ++ us) h''
  keeps : ∀ {h ts h'}, Path h ts h' → pre h → rel h ts h' → pre h'

/-- The computation conducts itself so on every heap on which this is asked for. -/
def Run.Follows {α : Type} (C : Conduct) (x : Run α) : Prop :=
  ∀ w, C.pre w.heap → C.rel w.heap (x.trace w) (x.exec w).2.heap

section
variable {C : Conduct} {α β : Type}

@[grind ←]
theorem follows_pure (a : α) : (pure a : Run α).Follows C := fun _ => C.nil

@[grind ←]
theorem follows_look (f : World → α) : (look f).Follows C := fun _ => C.nil

@[grind ←]
theorem follows_note (f : Context → Context) : (note f).Follows C := fun _ => C.nil

@[grind ←]
theorem follows_halt (why : Halt) : (halt why : Run α).Follows C := fun _ => C.nil

theorem follows_act {a : Action α} (h : ∀ heap, C.pre heap → C.rel heap [⟨a, heap⟩] (a.apply heap).2) :
    (act a).Follows C := fun w => h w.heap

@[grind ←]
theorem follows_bind {x : Run α} {next : α → Run β} (hx : x.Follows C)
    (hnext : ∀ a, (next a).Follows C) : (x >>= next).Follows C := by
  intro w hw
  have first := hx w hw
  have kept := C.keeps (x.path_trace w) hw first
  rw [exec_bind, trace_bind]
  rcases hexec : x.exec w with ⟨_ | a, w'⟩
  · rw [hexec] at first kept
    exact C.append first (C.nil kept)
  · rw [hexec] at first kept
    exact C.append first (hnext a w' kept)

@[grind ←]
theorem follows_ensuring {x : Run α} {last : Run Unit} (hx : x.Follows C)
    (hlast : last.Follows C) : (ensuring x last).Follows C := by
  intro w hw
  have first := hx w hw
  rw [exec_ensuring_snd]
  exact C.append first (hlast _ (C.keeps (x.path_trace w) hw first))

@[grind ←]
theorem follows_heap : heap.Follows C := follows_look _

theorem follows_heap_bind {next : Heap → Run α} (hnext : ∀ h, C.pre h → (next h).Follows C) :
    (heap >>= next).Follows C :=
  fun w hw => hnext w.heap hw w hw

@[grind ←]
theorem follows_report (e : Event) : (report e).Follows C := follows_note _

@[grind ←]
theorem follows_exhausted : (exhausted : Run α).Follows C := follows_halt _

@[grind ←]
theorem follows_attempt_pure (a : α) : (pure a : Attempt α).run.Follows C := follows_pure _

@[grind ←]
theorem follows_lift {x : Run α} (hx : x.Follows C) : (liftM x : Attempt α).run.Follows C :=
  follows_bind hx fun a => follows_pure (Except.ok a)

@[grind ←]
theorem follows_ask (f : Heap → Except Error α) : (Attempt.ask f).run.Follows C := follows_look _

@[grind ←]
theorem follows_attempt_bind {x : Attempt α} {next : α → Attempt β} (hx : x.run.Follows C)
    (hnext : ∀ a, (next a).run.Follows C) : (x >>= next).run.Follows C := by
  refine follows_bind hx fun outcome => ?_
  cases outcome with
  | error e => exact follows_pure _
  | ok a => exact hnext a

@[grind ←]
theorem follows_attempt_ensuring {x : Attempt α} {last : Run Unit} (hx : x.run.Follows C)
    (hlast : last.Follows C) : (Attempt.ensuring x last).run.Follows C :=
  follows_ensuring hx hlast

theorem follows_withFrame (hpush : ∀ caller, (act (.pushFrame caller)).Follows C)
    (hpop : (act .popFrame).Follows C) (caller : Value) {x : Run α} (hx : x.Follows C) :
    (withFrame caller x).Follows C := by
  unfold withFrame pushFrame popFrame
  have := hpush caller
  grind

/-- The actions by which a payload is used and written. -/
def Action.handles : {α : Type} → Action α → Bool
  | _, startUse .. | _, stopUse .. | _, change _ (.write _) => true
  | _, _ => false

section
variable (hact : ∀ {γ : Type} {a : Action γ}, a.handles = true → (act a).Follows C) (v : Value)
  (k : Kind)
include hact

theorem follows_withPayload {x : k.Content → Attempt α} (hx : ∀ c, (x c).run.Follows C) :
    (withPayload v k x).run.Follows C := by
  refine follows_attempt_bind (follows_ask _) fun (id, c) => ?_
  refine follows_attempt_bind (follows_lift (hact rfl)) fun _ => ?_
  exact follows_attempt_ensuring (hx c) (hact rfl)

theorem follows_withPayloadMut {x : k.Content → Attempt (α × k.Content)}
    (hx : ∀ c, (x c).run.Follows C) : (withPayloadMut v k x).run.Follows C := by
  refine follows_attempt_bind (follows_ask _) fun (id, c) => ?_
  refine follows_attempt_bind (follows_lift (hact rfl)) fun _ => ?_
  refine follows_attempt_ensuring (follows_attempt_bind (hx c) fun (a, c) => ?_) (hact rfl)
  exact follows_attempt_bind (follows_lift (hact rfl)) fun _ => follows_attempt_pure a

theorem follows_writePayload (f : k.Content → Except Error k.Content) :
    (writePayload v k f).run.Follows C :=
  follows_attempt_bind (follows_ask _) fun (_, _) => follows_lift (hact rfl)

end

theorem follows_markAll (hmark : ∀ v, (act (.mark v)).Follows C) (vs : List Value) :
    (markAll vs).Follows C := by
  induction vs with
  | nil => exact follows_pure _
  | cons v vs ih => exact follows_bind (hmark v) fun _ => ih

/-! ## Collection -/

/-- The callbacks for `b` that types have, run by `r`, follow the conduct. -/
def Runner.FollowsOn (C : Conduct) (r : Runner) (b : Behavior) : Prop :=
  ∀ h, C.pre h → ∀ d c, h.registry.callback? d b = some c → ∀ args, (r.run b c args).Follows C

def Action.collects : {α : Type} → Action α → Bool
  | _, mark .. | _, nextGray | _, startMarking | _, startSweep | _, evict .. | _, finishCollection ..
  | _, setPhase .. | _, schedule => true
  | _, _ => false

section
variable {r : Runner}

theorem follows_traceInstance (hmark : ∀ v, (act (.mark v)).Follows C)
    (hrun : r.FollowsOn C .mark) (id : InstanceId) : (traceInstance r id).Follows C := by
  refine follows_bind follows_heap fun h => ?_
  split
  · exact follows_pure ()
  · refine follows_bind (follows_markAll hmark _) fun _ => follows_heap_bind fun h hh => ?_
    split
    · next c hc => exact hrun h hh _ c hc _
    · exact follows_pure ()

theorem follows_drain_of_trace (hgray : (act .nextGray).Follows C)
    (htrace : ∀ id, (traceInstance r id).Follows C) (rounds : Nat) :
    (drain r rounds).Follows C := by
  induction rounds with
  | zero =>
    unfold drain
    grind
  | succ n ih =>
    unfold drain
    grind

theorem follows_drain (hmark : ∀ v, (act (.mark v)).Follows C) (hgray : (act .nextGray).Follows C)
    (hrun : r.FollowsOn C .mark) (rounds : Nat) : (drain r rounds).Follows C :=
  follows_drain_of_trace hgray (follows_traceInstance hmark hrun) rounds

/-- Releasing consists of evictions and of free callbacks. -/
theorem follows_releaseAll (hevict : ∀ slot, (act (.evict slot)).Follows C)
    (hrun : r.FollowsOn C .free) (slots : List Nat) : (releaseAll r slots).Follows C := by
  induction slots with
  | nil => exact follows_pure ()
  | cons slot slots ih =>
    refine follows_bind (follows_bind (hevict slot) fun evicted => ?_) fun _ => ih
    cases evicted with
    | none => exact follows_pure ()
    | some x =>
      refine follows_heap_bind fun h hh => ?_
      split
      · next c hc => exact hrun h hh _ c hc _
      · exact follows_pure ()

/-- A collection consists of the actions of the collector, of tracing, and of free callbacks. -/
theorem follows_collect_of_trace
    (hact : ∀ {β : Type} {a : Action β}, a.collects = true → (act a).Follows C)
    (htrace : ∀ id, (traceInstance r id).Follows C) (hfree : r.FollowsOn C .free) :
    (collect r).Follows C := by
  have hnow : (collectNow r).Follows C := by
    refine follows_bind (hact rfl) fun _ => ?_
    refine follows_bind (follows_drain_of_trace (hact rfl) htrace _) fun _ => ?_
    refine follows_bind (hact rfl) fun doomed => ?_
    refine follows_bind (follows_releaseAll (fun _ => hact rfl) hfree doomed) fun _ => ?_
    refine follows_bind (hact rfl) fun _ => follows_bind follows_heap fun h => ?_
    exact follows_bind (follows_report _) fun _ => follows_pure _
  have hidle : (act (.setPhase .idle)).Follows C := hact rfl
  unfold collect
  grind

theorem follows_collect (hact : ∀ {β : Type} {a : Action β}, a.collects = true → (act a).Follows C)
    (hmark : r.FollowsOn C .mark) (hfree : r.FollowsOn C .free) : (collect r).Follows C :=
  follows_collect_of_trace hact (follows_traceInstance (fun _ => hact rfl) hmark) hfree

theorem follows_teardown (hact : ∀ {β : Type} {a : Action β}, a.collects = true → (act a).Follows C)
    (hstart : (act .startTeardown).Follows C) (hfree : r.FollowsOn C .free) :
    (teardown r).Follows C := by
  have hrelease := follows_releaseAll (fun _ => hact rfl) hfree
  refine follows_bind follows_heap fun h => ?_
  split
  · exact follows_bind (follows_report _) fun _ => follows_pure _
  · refine follows_ensuring ?_ (hact rfl)
    refine follows_bind hstart fun doomed => ?_
    exact follows_bind (hrelease doomed) fun _ =>
      follows_bind (follows_report _) fun _ => follows_pure _

theorem follows_collectIfDue_of_collect (hcollect : (collect r).Follows C)
    (hschedule : (act .schedule).Follows C) : (collectIfDue r).Follows C := by
  unfold collectIfDue
  grind

theorem follows_collectIfDue
    (hact : ∀ {β : Type} {a : Action β}, a.collects = true → (act a).Follows C)
    (hmark : r.FollowsOn C .mark) (hfree : r.FollowsOn C .free) : (collectIfDue r).Follows C :=
  follows_collectIfDue_of_collect (follows_collect hact hmark hfree) (hact rfl)

/-- An allocation consists of a collection, if one is due, and of the placing of the instance. -/
theorem follows_allocate {d : Descriptor} {p : Payload} (hdue : (collectIfDue r).Follows C)
    (hplace : (act (.place d p)).Follows C) : (allocate r d p).run.Follows C := by
  have hnow : (allocateNow r d p).Follows C := by
    refine follows_bind hdue fun _ => follows_bind (follows_look _) fun before => ?_
    refine follows_bind hplace fun id => follows_bind (follows_look _) fun after => ?_
    split
    · exact follows_bind (follows_report _) fun _ => follows_pure _
    · exact follows_pure _
  refine follows_attempt_bind (follows_lift follows_heap) fun h => ?_
  split
  · exact follows_attempt_bind (follows_pure _) fun _ => follows_lift hnow
  · exact follows_lift hnow

end

/-! ## Sessions -/

namespace Session

theorem follows_stepsTrace (s : Session) {r : Runner} (hstep : ∀ step, (Step.run r step).run.Follows C)
    (steps : List Step) : ∀ w : World, C.pre w.heap →
      C.rel w.heap (s.stepsTrace r steps w) (s.runSteps r steps w).2.heap := by
  induction steps with
  | nil => exact fun _ => C.nil
  | cons step rest ih =>
    intro w hw
    have first := hstep step w hw
    exact C.append first (ih (s.runStep r step w).2 (C.keeps (Run.path_trace _ w) hw first))

/-- What its parts follow, a session follows from the fresh heap to its release. -/
theorem follows_history (s : Session) {r : Runner} (start : C.pre (Heap.new s.config))
    (hopening : s.opening.Follows C) (hstep : ∀ step, (Step.run r step).run.Follows C)
    (hteardown : (teardown r).Follows C) :
    ∃ h, C.rel (Heap.new s.config) (s.history r) h := by
  have opening := hopening (s.start (Heap.new s.config)) start
  have opened : C.pre s.opened.heap := C.keeps (Run.path_trace _ _) start opening
  have steps := s.follows_stepsTrace hstep s.steps s.opened opened
  have closing : C.pre (s.closing r).heap :=
    C.keeps (s.path_stepsTrace r s.steps s.opened) opened steps
  exact ⟨_, C.append opening (C.append steps (hteardown (s.closing r) closing))⟩

end Session

end

end TracedHeap
