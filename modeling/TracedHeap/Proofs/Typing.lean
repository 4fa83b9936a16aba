import TracedHeap.Proofs.Conduct
import TracedHeap.Proofs.Lawful
import TracedHeap.Proofs.Slots

/-!
# Every instance has a registered type

An allocation checks the type before it collects, and puts the instance into the pool after that.
Types are never removed, so the type is still there, whatever the callbacks of the collection did.

* `Transition.Typed`   a transition that puts no instance of an unknown type into the pool;
* `Run.Lawful.typed`   every transition of a lawful computation is typed;
* `Session.typed_history`
                       every transition of a session is typed.
-/

namespace TracedHeap

open Run

/-! ## Typed transitions -/

/-- A transition that puts no instance of an unknown type into the pool. -/
def Transition.Typed (t : Transition) : Prop :=
  ∀ d ∈ t.action.placedType?, d.index < t.before.registry.size

def Conduct.typed : Conduct where
  pre _ := True
  rel _ ts _ := ∀ t ∈ ts, t.Typed
  nil _ := by simp
  append h h' := List.forall_mem_append.mpr ⟨h, h'⟩
  keeps _ _ _ := trivial

attribute [grind =] Action.placedType?

@[grind ←]
theorem typed_act {α : Type} {a : Action α} (h : a.placedType? = none) :
    (act a).Follows .typed := by
  refine follows_act fun heap _ => List.forall_mem_singleton.mpr fun d hd => ?_
  rw [h] at hd
  cases hd

@[grind ←]
theorem typed_attempt_act {α : Type} {a : Action α} (h : a.placedType? = none) :
    (Attempt.act a).run.Follows .typed :=
  follows_lift (typed_act h)

def Runner.Typed (r : Runner) : Prop :=
  ∀ (b : Behavior) (c : Callback b) (args : b.Args), (r.run b c args).Follows .typed

section
variable {r : Runner}

theorem Runner.Typed.followsOn (hr : r.Typed) (b : Behavior) : r.FollowsOn .typed b :=
  fun _ _ _ c _ args => hr b c args

@[grind ←]
theorem Runner.Typed.run (hr : r.Typed) {b : Behavior} (c : Callback b) (args : b.Args) :
    (r.run b c args).Follows .typed := hr b c args

/-! ## Collection and allocation -/

theorem placedType?_of_collects {α : Type} {a : Action α} (h : a.collects = true) :
    a.placedType? = none := by
  cases a with
  | place => cases h
  | _ => rfl

@[grind ←]
theorem typed_collect (hr : r.Typed) : (collect r).Follows .typed :=
  follows_collect (fun h => typed_act (placedType?_of_collects h)) (hr.followsOn .mark)
    (hr.followsOn .free)

@[grind ←]
theorem typed_teardown (hr : r.Typed) : (teardown r).Follows .typed :=
  follows_teardown (fun h => typed_act (placedType?_of_collects h)) (typed_act rfl)
    (hr.followsOn .free)

theorem typed_collectIfDue (hr : r.Typed) : (collectIfDue r).Follows .typed :=
  follows_collectIfDue (fun h => typed_act (placedType?_of_collects h)) (hr.followsOn .mark)
    (hr.followsOn .free)

/-- What an allocation does is typed.  The type is checked first; then a collection may run any
callback, but no callback can take the type away. -/
@[grind ←]
theorem typed_allocate (hr : r.Typed) (d : Descriptor) (p : Payload) :
    (allocate r d p).run.Follows .typed := by
  intro w _
  rcases Nat.lt_or_ge d.index w.heap.registry.size with known | unknown
  · rw [(allocate_of_known known).1]
    have collecting := typed_collectIfDue hr w trivial
    have kept := ((collectIfDue r).path_trace w).keepsTypes.size
    rcases hdue : (collectIfDue r).exec w with ⟨why | _, w'⟩
    · rw [(allocateNow_of_error hdue).1]
      exact collecting
    · rw [(allocateNow_of_ok hdue).1]
      refine List.forall_mem_append.mpr ⟨collecting, List.forall_mem_singleton.mpr ?_⟩
      rw [hdue] at kept
      rintro _ ⟨⟩
      exact Nat.lt_of_lt_of_le known kept
  · rw [(allocate_of_unknown unknown).1]
    exact Conduct.typed.nil (h := w.heap) trivial

end

/-! ## Lawful computations -/

theorem Runner.Announces.typed {r : Runner} {body : Runner.Body} (announces : r.Announces body)
    (hbody : ∀ b c args, (body b c args).Follows .typed) : r.Typed := by
  intro b c args
  rw [announces]
  exact follows_bind (typed_act rfl) fun _ => hbody b c args

theorem Action.placedType?_of_ordinary {α : Type} {a : Action α} (h : a.ordinary = true) :
    a.placedType? = none := by
  cases a with
  | place => cases h
  | _ => rfl

/-- Every transition of a lawful computation is typed. -/
theorem Run.Lawful.typed {α : Type} {x : Run α} (h : x.Lawful) : x.Follows .typed := by
  induction h with
  | done a => exact follows_pure a
  | look f => exact follows_look f
  | note f => exact follows_note f
  | halt why => exact follows_halt why
  | act ha => exact typed_act (Action.placedType?_of_ordinary ha)
  | andThen _ _ hx hnext => exact follows_bind hx hnext
  | ensuring f _ hx => exact follows_ensuring hx (follows_note f)
  | withFrame caller _ hx => exact follows_withFrame (fun _ => typed_act rfl) (typed_act rfl) caller hx
  | withPayload v k _ hx =>
    unfold TracedHeap.withPayload
    grind
  | withPayloadMut v k _ hx =>
    unfold TracedHeap.withPayloadMut
    grind
  | writePayload v k f =>
    unfold TracedHeap.writePayload
    grind
  | collect announces _ hbody => exact typed_collect (announces.typed hbody)
  | teardown announces _ hbody => exact typed_teardown (announces.typed hbody)
  | allocate d p announces _ hbody => exact typed_allocate (announces.typed hbody) d p

/-! ## Sessions -/

/-- All transitions of a session are typed. -/
theorem Session.typed_history (s : Session) {r : Runner} (hr : r.Lawful) :
    ∀ t ∈ s.history r, t.Typed := by
  obtain ⟨_, typed⟩ := s.follows_history (C := .typed) trivial s.lawful_opening.typed
    (fun step => (lawful_step hr step).typed) (lawful_teardown hr).typed
  exact typed

end TracedHeap
