import TracedHeap.Proofs.Interlude
import TracedHeap.Proofs.Lifetime

/-!
# Sweeps

A sweep is given the instances it has to release and goes through them in order.  Each release is
followed at once by the start of the free callback that the type of the instance has then.  While
such a callback runs the heap is busy, so nothing else is released and no other sweep begins.

* `Sweep`                how far a sweep has got: the instances that are left, and the free callback
                         that is due;
* `Sweep.Leads`          the transitions do what a sweep has to do, and nothing a sweep must not do;
* `Releasing`            some instances of a list are released in order, the rest is left;
* `Collecting`           what a collection does, from its start to its end;
* `Proceeds`             interludes, collections and teardowns one after the other;
* `Run.Lawful.orderly`   a lawful computation proceeds so, if the heap is not busy;
* `Session.orderly_history`
                         no sweep of a session is left unfinished.
-/

namespace TracedHeap

open Run

namespace Transition

/-- The free callback a transition starts, with the payload it gets. -/
def starts? : Transition → Option (Callback .free × Payload)
  | ⟨.invoke .free c p, _⟩ => some (c, p)
  | _ => none

/-- The free callback a release calls for: the one that the type of the instance has at that
moment, with the payload of the instance. -/
def calls? : Transition → Option (Callback .free × Payload)
  | ⟨.evict slot, h⟩ => (h.pool.occupant? slot).bind fun x =>
      (h.registry.callback? x.descriptor .free).map fun c => (c, x.payload)
  | _ => none

end Transition

structure Sweep where
  /-- The instances that are to be released, in order. -/
  left : List InstanceId := []
  /-- The free callback that has to start now. -/
  due : Option (Callback .free × Payload) := none

namespace Sweep

/-- The instances that are left after a transition.  When the collector stops, whatever the reason,
nothing is left to do. -/
def leftAfter (left : List InstanceId) : Transition → List InstanceId
  | ⟨.startSweep, h⟩ => h.pool.namesOf fun x => !x.pinned
  | ⟨.startTeardown, h⟩ => h.pool.namesOf fun _ => true
  | ⟨.evict _, _⟩ => left.tail
  | ⟨.setPhase _, _⟩ => []
  | _ => left

def next (s : Sweep) (t : Transition) : Sweep := ⟨leftAfter s.left t, t.calls?⟩

/-- Whether the instances that are left allow a transition: they go in order, and a sweep begins and
a collection is finished only when none is left. -/
def InTurn (left : List InstanceId) : Transition → Prop
  | ⟨.startSweep, _⟩ | ⟨.startTeardown, _⟩ | ⟨.finishCollection _, _⟩ => left = []
  | ⟨.evict slot, h⟩ => ∃ id, left.head? = some id ∧ Transition.released? ⟨.evict slot, h⟩ = some id
  | _ => True

/-- Whether a sweep that has got so far allows a transition: a free callback starts when it is due,
and only then. -/
structure Allows (s : Sweep) (t : Transition) : Prop where
  starts : t.starts? = s.due
  inTurn : InTurn s.left t

/-- The transitions `ts` are allowed, one after the other, and lead from `s` to `s'`. -/
inductive Leads : Sweep → List Transition → Sweep → Prop where
  | nil (s : Sweep) : Leads s [] s
  | cons {s s' : Sweep} {t : Transition} {ts : List Transition} :
      s.Allows t → Leads (s.next t) ts s' → Leads s (t :: ts) s'

namespace Leads

variable {s s' s'' : Sweep} {ts us : List Transition}

theorem append (l : Leads s ts s') (l' : Leads s' us s'') : Leads s (ts ++ us) s'' := by
  induction l with
  | nil => exact l'
  | cons allowed _ ih => exact .cons allowed (ih l')

theorem split (l : Leads s (ts ++ us) s'') : ∃ s', Leads s ts s' ∧ Leads s' us s'' := by
  induction ts generalizing s with
  | nil => exact ⟨s, .nil s, l⟩
  | cons t ts ih =>
    cases l with
    | cons allowed l =>
      obtain ⟨s', l, l'⟩ := ih l
      exact ⟨s', .cons allowed l, l'⟩

theorem single {t : Transition} (allowed : s.Allows t) : Leads s [t] (s.next t) :=
  .cons allowed (.nil _)

end Leads

theorem of_calm {t : Transition} (ht : t.action.calm = true) (left : List InstanceId) :
    Allows ⟨left, none⟩ t ∧ next ⟨left, none⟩ t = ⟨left, none⟩ := by
  obtain ⟨a, h⟩ := t
  cases a with
  | invoke b c args =>
    cases b with
    | free => cases ht
    | _ => exact ⟨⟨rfl, trivial⟩, rfl⟩
  | evict | startMarking | startSweep | startTeardown | finishCollection | setPhase => cases ht
  | _ => exact ⟨⟨rfl, trivial⟩, rfl⟩

theorem Leads.of_calm {ts : List Transition} (calm : ∀ t ∈ ts, t.action.calm = true)
    (left : List InstanceId) : Leads ⟨left, none⟩ ts ⟨left, none⟩ := by
  induction ts with
  | nil => exact .nil _
  | cons t ts ih =>
    obtain ⟨ht, hts⟩ := List.forall_mem_cons.mp calm
    obtain ⟨allowed, hnext⟩ := Sweep.of_calm ht left
    refine .cons allowed ?_
    rw [hnext]
    exact ih hts

end Sweep

theorem filterMap_released?_of_calm {ts : List Transition}
    (calm : ∀ t ∈ ts, t.action.calm = true) : ts.filterMap Transition.released? = [] :=
  List.filterMap_eq_nil_iff.mpr fun t ht => Transition.released?_of_calm (calm t ht)

/-! ## Releasing one instance after the other -/

/-- The actions that leave the collector as it is, so that they can come in the middle of a sweep. -/
def Action.sweeps : {α : Type} → Action α → Bool
  | _, startMarking | _, startSweep | _, startTeardown | _, finishCollection .. | _, setPhase .. =>
    false
  | _, _ => true

theorem Action.sweeps_of_calm {α : Type} {a : Action α} (ha : a.calm = true) : a.sweeps = true := by
  cases a with
  | startMarking | startSweep | startTeardown | finishCollection | setPhase => cases ha
  | _ => rfl

/-- From `h` to `h'` the transitions `ts` release instances of the list `ids` in order; those on
the list `left` are left. -/
structure Releasing (h : Heap) (ids : List InstanceId) (ts : List Transition)
    (left : List InstanceId) (h' : Heap) : Prop where
  path : Path h ts h'
  leads : Sweep.Leads ⟨ids, none⟩ ts ⟨left, none⟩
  released : ids = ts.filterMap Transition.released? ++ left
  sweeps : ∀ t ∈ ts, t.action.sweeps = true
  phase : h'.collector.phase = h.collector.phase
  borrows : h'.borrows = h.borrows

namespace Releasing

theorem nil (h : Heap) (ids : List InstanceId) : Releasing h ids [] ids h :=
  ⟨.nil _, .nil _, rfl, List.forall_mem_nil _, rfl, rfl⟩

theorem append {h h' h'' : Heap} {ids left left' : List InstanceId} {ts us : List Transition}
    (first : Releasing h ids ts left h') (second : Releasing h' left us left' h'') :
    Releasing h ids (ts ++ us) left' h'' where
  path := first.path.append second.path
  leads := first.leads.append second.leads
  released := by
    rw [List.filterMap_append, List.append_assoc, ← second.released]
    exact first.released
  sweeps := List.forall_mem_append.mpr ⟨first.sweeps, second.sweeps⟩
  phase := second.phase.trans first.phase
  borrows := second.borrows.trans first.borrows

theorem of_interlude {h h' : Heap} {ts : List Transition} (i : Interlude h ts h')
    (ids : List InstanceId) : Releasing h ids ts ids h' where
  path := i.path
  leads := .of_calm i.calm ids
  released := by rw [filterMap_released?_of_calm i.calm, List.nil_append]
  sweeps t ht := Action.sweeps_of_calm (i.calm t ht)
  phase := i.phase
  borrows := i.borrows

end Releasing

theorem Heap.evict_of_get? {h : Heap} {id : InstanceId} {x : Instance}
    (hx : h.pool.get? id = some x) :
    (h.evict id.index).1 = some x ∧
      ∃ q, h.pool.evict id.index = some (x, q) ∧ (h.evict id.index).2 = { h with pool := q } := by
  have hevict : ∃ q, h.pool.evict id.index = some (x, q) := by
    unfold Pool.evict
    rw [Pool.occupant?_of_get? hx]
    exact ⟨_, rfl⟩
  obtain ⟨q, hq⟩ := hevict
  unfold Heap.evict
  rw [hq]
  exact ⟨rfl, q, rfl, rfl⟩

theorem Transition.released?_evict {h : Heap} {id : InstanceId} {x : Instance}
    (hx : h.pool.get? id = some x) : released? ⟨.evict id.index, h⟩ = some id := by
  obtain ⟨s, hs, hg, hsx⟩ := Pool.get?_eq_some_iff.mp hx
  simp only [released?, Slot.named, hs, hsx, hg, Option.bind_some, Option.map_some]

theorem Transition.calls?_evict {h : Heap} {id : InstanceId} {x : Instance}
    (hx : h.pool.get? id = some x) : calls? ⟨.evict id.index, h⟩ =
      (h.registry.callback? x.descriptor .free).map fun c => (c, x.payload) := by
  rw [calls?, Pool.occupant?_of_get? hx]
  rfl

section
variable {r : Runner} {body : Runner.Body} {w : World}

theorem release_eq (announces : r.Announces body) {id : InstanceId} {x : Instance}
    (hx : w.heap.pool.get? id = some x) :
    let freed := { w with heap := (w.heap.evict id.index).2 }
    match w.heap.registry.callback? x.descriptor .free with
    | none =>
      (release r id.index).trace w = [⟨.evict id.index, w.heap⟩] ∧
        (release r id.index).exec w = (.ok (), freed)
    | some c =>
      (release r id.index).trace w = ⟨.evict id.index, w.heap⟩ ::
          ⟨.invoke .free c x.payload, freed.heap⟩ :: (body .free c x.payload).trace freed ∧
        (release r id.index).exec w = (body .free c x.payload).exec freed := by
  intro freed
  obtain ⟨hfst, q, _, hsnd⟩ := Heap.evict_of_get? hx
  have hregistry : freed.heap.registry = w.heap.registry := by
    show (w.heap.evict id.index).2.registry = _
    rw [hsnd]
  have hexec : (act (.evict id.index)).exec w = (.ok (some x), freed) := by
    rw [exec_act]
    show (Except.ok (w.heap.evict id.index).1, _) = _
    rw [hfst]
    rfl
  unfold release
  rw [exec_bind, trace_bind, hexec]
  simp only
  rw [exec_bind, trace_bind, heap, exec_look]
  simp only
  rw [hregistry]
  cases hc : w.heap.registry.callback? x.descriptor .free with
  | none => exact ⟨rfl, rfl⟩
  | some c =>
    simp only
    rw [announces]
    exact ⟨rfl, rfl⟩

theorem Sweep.Leads.evict {h : Heap} {id : InstanceId} {x : Instance}
    (hx : h.pool.get? id = some x) (left : List InstanceId) :
    Leads ⟨id :: left, none⟩ [⟨.evict id.index, h⟩]
      ⟨left, (h.registry.callback? x.descriptor .free).map fun c => (c, x.payload)⟩ := by
  rw [← Transition.calls?_evict hx]
  exact .single ⟨rfl, id, rfl, Transition.released?_evict hx⟩

theorem Heap.phase_and_borrows_evict (h : Heap) (slot : Nat) :
    (h.evict slot).2.collector = h.collector ∧ (h.evict slot).2.borrows = h.borrows := by
  unfold evict
  split <;> exact ⟨rfl, rfl⟩

theorem releasing_release (announces : r.Announces body)
    (hbody : ∀ b c args, (body b c args).Follows .inside) {id : InstanceId} {x : Instance}
    (hx : w.heap.pool.get? id = some x) (busy : w.heap.Busy) (left : List InstanceId) :
    Releasing w.heap (id :: left) ((release r id.index).trace w) left
      ((release r id.index).exec w).2.heap := by
  obtain ⟨hcollector, hborrows⟩ := w.heap.phase_and_borrows_evict id.index
  have hphase := congrArg Collector.phase hcollector
  have hevict := Sweep.Leads.evict hx left
  have hreleased := Transition.released?_evict hx
  have heq := release_eq announces hx
  cases hc : w.heap.registry.callback? x.descriptor .free with
  | none =>
    rw [hc] at heq hevict
    rw [heq.1, heq.2]
    refine ⟨.single (.evict id.index) w.heap, hevict, ?_, List.forall_mem_singleton.mpr rfl, hphase,
      hborrows⟩
    rw [List.filterMap_cons_some hreleased]
    rfl
  | some c =>
    rw [hc] at heq hevict
    rw [heq.1, heq.2]
    have busy' : (w.heap.evict id.index).2.Busy := by
      rw [Heap.busy_iff] at busy ⊢
      rw [hphase, hborrows]
      exact busy
    have start : Releasing w.heap (id :: left)
        [⟨.evict id.index, w.heap⟩, ⟨.invoke .free c x.payload, (w.heap.evict id.index).2⟩]
        left (w.heap.evict id.index).2 := by
      refine ⟨?_, hevict.append (.single ⟨rfl, trivial⟩), ?_, ?_, hphase, hborrows⟩
      · exact .cons ⟨.evict id.index, w.heap⟩ (Path.single (.invoke .free c x.payload) _)
      · rw [List.filterMap_cons_some hreleased]
        rfl
      · exact List.forall_mem_cons.mpr ⟨rfl, List.forall_mem_singleton.mpr rfl⟩
    have inside := hbody .free c x.payload { w with heap := (w.heap.evict id.index).2 } busy'
    exact start.append (.of_interlude inside left)

/-- All instances of a list are released, unless a free callback is cut short. -/
theorem releasing_releaseAll (announces : r.Announces body)
    (hbody : ∀ b c args, (body b c args).Follows .inside) (ids : List InstanceId)
    (sound : w.heap.SoundPool) (busy : w.heap.Busy)
    (live : ∀ id ∈ ids, ∃ x, w.heap.pool.get? id = some x) (nodup : ids.Nodup) :
    ∃ left, Releasing w.heap ids ((releaseAll r (ids.map InstanceId.index)).trace w) left
        ((releaseAll r (ids.map InstanceId.index)).exec w).2.heap ∧
      ∀ a, ((releaseAll r (ids.map InstanceId.index)).exec w).1 = .ok a → left = [] := by
  induction ids generalizing w with
  | nil => exact ⟨[], .nil _ _, fun _ _ => rfl⟩
  | cons id ids ih =>
    obtain ⟨⟨x, hx⟩, hrest⟩ := List.forall_mem_cons.mp live
    obtain ⟨hid, nodup⟩ := List.nodup_cons.mp nodup
    have first := releasing_release announces hbody hx busy ids
    have path := (release r id.index).path_trace w
    rw [List.map_cons, releaseAll, exec_bind, trace_bind]
    rcases hexec : (release r id.index).exec w with ⟨why | a, w'⟩
    · rw [hexec] at first
      refine ⟨ids, ?_, fun _ h => by cases h⟩
      rw [List.append_nil]
      exact first
    · rw [hexec] at first path
      have busy' : w'.heap.Busy := by
        rw [Heap.busy_iff] at busy ⊢
        rw [first.phase, first.borrows]
        exact busy
      -- only `id` went, so the others are still there
      have hreleased : ((release r id.index).trace w).filterMap Transition.released? = [id] := by
        have heq : [id] ++ ids = _ := first.released
        exact (List.append_cancel_right heq).symm
      have live' : ∀ other ∈ ids, ∃ y, w'.heap.pool.get? other = some y := by
        intro other hother
        refine path.contains sound (hrest other hother) fun t ht hgone => ?_
        have hmem := List.mem_filterMap.mpr ⟨t, ht, hgone⟩
        rw [hreleased, List.mem_singleton] at hmem
        exact hid (hmem ▸ hother)
      have sound' := path.soundPool sound
      obtain ⟨left, second, hleft⟩ := ih sound' busy' live' nodup
      exact ⟨left, first.append second, hleft⟩

/-! ## Collections and teardowns -/

/-- What a collection that starts on `h` does until it ends so on `h'`. -/
inductive Collecting (h : Heap) : List Transition → Except Halt Nat → Heap → Prop where
  /-- The marking is cut short. -/
  | marking {h' : Heap} {ts : List Transition} (why : Halt) :
      Interlude h.startMarking ts h' → Collecting h (⟨.startMarking, h⟩ :: ts) (.error why) h'
  /-- The sweep is cut short. -/
  | sweeping {h₁ h' : Heap} {ts us : List Transition} {left : List InstanceId} (why : Halt) :
      Interlude h.startMarking ts h₁ →
      Releasing h₁.startSweep.2 (h₁.pool.namesOf fun x => !x.pinned) us left h' →
      Collecting h (⟨.startMarking, h⟩ :: (ts ++ ⟨.startSweep, h₁⟩ :: us)) (.error why) h'
  /-- The collection comes to its end. -/
  | finished {h₁ h' : Heap} {ts us : List Transition} (n : Nat) :
      Interlude h.startMarking ts h₁ →
      Releasing h₁.startSweep.2 (h₁.pool.namesOf fun x => !x.pinned) us [] h' →
      n = (h₁.pool.namesOf fun x => !x.pinned).length →
      Collecting h
        (⟨.startMarking, h⟩ :: (ts ++ ⟨.startSweep, h₁⟩ :: (us ++ [⟨.finishCollection n, h'⟩])))
        (.ok n) (h'.finishCollection n)

theorem Runner.Announces.inside {b : Behavior} (announces : r.Announces body)
    (hbody : ∀ b c args, (body b c args).Follows .inside) (hb : b ≠ .free) (c : Callback b)
    (args : b.Args) : (r.run b c args).Follows .inside := by
  rw [announces]
  exact follows_bind (inside_act (bne_iff_ne.mpr hb)) fun _ => hbody b c args

theorem Runner.Announces.inside_drain (announces : r.Announces body)
    (hbody : ∀ b c args, (body b c args).Follows .inside) (rounds : Nat) :
    (drain r rounds).Follows .inside :=
  follows_drain (fun _ => inside_act rfl) (inside_act rfl)
    (fun _ _ _ c _ => announces.inside hbody (by decide) c) rounds

theorem Heap.borrows_startMarking (h : Heap) : h.startMarking.borrows = h.borrows :=
  (eq_of_unmarked_eq h.markRoots_spec.1).2.2.2.2

theorem Heap.soundPool_startSweep {h : Heap} (sound : h.SoundPool) :
    h.startSweep.2.SoundPool := Transition.soundPool ⟨.startSweep, h⟩ sound

def conclude (n : Nat) : Run Nat := do
  act (.finishCollection n)
  let pool := (← heap).pool
  report (.collectionFinished n pool.live pool.recycling)
  return n

def sweepNow (r : Runner) : Run Nat := do
  let doomed ← act .startSweep
  releaseAll r doomed
  conclude doomed.length

theorem collectNow_eq (r : Runner) : collectNow r = (do
    act .startMarking
    drain r r.rounds
    sweepNow r) := rfl

/-- After the marking, what no pin holds is released in the order of the slots. -/
theorem releasing_sweepNow (announces : r.Announces body)
    (hbody : ∀ b c args, (body b c args).Follows .inside) (sound : w.heap.SoundPool) :
    let ids := w.heap.pool.namesOf fun x => !x.pinned
    ∃ us left h', Releasing w.heap.startSweep.2 ids us left h' ∧
      (((∃ why, ((sweepNow r).exec w).1 = .error why) ∧ ((sweepNow r).exec w).2.heap = h' ∧
          (sweepNow r).trace w = ⟨.startSweep, w.heap⟩ :: us) ∨
        left = [] ∧ ((sweepNow r).exec w).1 = .ok ids.length ∧
          ((sweepNow r).exec w).2.heap = h'.finishCollection ids.length ∧
          (sweepNow r).trace w =
            ⟨.startSweep, w.heap⟩ :: (us ++ [⟨.finishCollection ids.length, h'⟩])) := by
  intro ids
  have live : ∀ id ∈ ids, ∃ x, w.heap.startSweep.2.pool.get? id = some x := by
    intro id hid
    obtain ⟨x, hx, _⟩ := Pool.mem_namesOf.mp hid
    refine ⟨{ x with marked := false }, ?_⟩
    show (w.heap.pool.modifyAll _).get? id = _
    rw [Pool.get?_modifyAll, hx]
    rfl
  have busy : w.heap.startSweep.2.Busy := Heap.busy_iff.mpr (Or.inl Phase.noConfusion)
  obtain ⟨left, releasing, hleft⟩ := releasing_releaseAll
    (w := { w with heap := w.heap.startSweep.2 }) announces hbody ids
    (Heap.soundPool_startSweep sound) busy live (w.heap.pool.nodup_namesOf _)
  have start := bind_of_ok (exec_act .startSweep w) fun doomed => do
    releaseAll r doomed
    conclude doomed.length
  refine ⟨_, left, _, releasing, ?_⟩
  rw [sweepNow, start.1, start.2]
  rcases hall : (releaseAll r (ids.map InstanceId.index)).exec
    { w with heap := w.heap.startSweep.2 } with ⟨why | a, w'⟩
  · have cut := bind_of_error hall fun _ => conclude (ids.map InstanceId.index).length
    exact Or.inl ⟨⟨why, congrArg Prod.fst cut.1⟩, congrArg (·.2.heap) cut.1, congrArg _ cut.2⟩
  · have done := bind_of_ok hall fun _ => conclude (ids.map InstanceId.index).length
    refine Or.inr ⟨hleft a (congrArg Prod.fst hall), ?_⟩
    rw [← List.length_map (f := InstanceId.index)]
    exact ⟨congrArg Prod.fst done.1, congrArg (·.2.heap) done.1, congrArg _ done.2⟩

theorem collecting_collectNow (announces : r.Announces body)
    (hbody : ∀ b c args, (body b c args).Follows .inside) (sound : w.heap.SoundPool) :
    Collecting w.heap ((collectNow r).trace w) ((collectNow r).exec w).1
      ((collectNow r).exec w).2.heap := by
  have busy : w.heap.startMarking.Busy := Heap.busy_iff.mpr (Or.inl Phase.noConfusion)
  have marking := announces.inside_drain hbody r.rounds { w with heap := w.heap.startMarking } busy
  have path := (drain r r.rounds).path_trace { w with heap := w.heap.startMarking }
  have hstart : (act .startMarking).exec w = (.ok (), { w with heap := w.heap.startMarking }) := rfl
  have start := bind_of_ok hstart fun _ => do
    drain r r.rounds
    sweepNow r
  rw [collectNow_eq, start.1, start.2]
  rcases hexec : (drain r r.rounds).exec { w with heap := w.heap.startMarking } with ⟨why | _, w₁⟩
  · have cut := bind_of_error hexec fun _ => sweepNow r
    rw [hexec] at marking
    have collecting := Collecting.marking why marking
    rw [← cut.2] at collecting
    rw [cut.1]
    exact collecting
  · have rest := bind_of_ok hexec fun _ => sweepNow r
    rw [hexec] at marking path
    have sound₁ : w₁.heap.SoundPool :=
      path.soundPool (Transition.soundPool ⟨.startMarking, w.heap⟩ sound)
    obtain ⟨us, left, h', releasing, hends⟩ := releasing_sweepNow announces hbody sound₁
    rcases hends with ⟨⟨why, hwhy⟩, hheap, htrace⟩ | ⟨rfl, hok, hheap, htrace⟩
    · have collecting := Collecting.sweeping why marking releasing
      rw [← htrace, ← rest.2, ← hwhy, ← hheap, ← rest.1] at collecting
      exact collecting
    · have collecting := Collecting.finished _ marking releasing rfl
      rw [← htrace, ← rest.2, ← hok, ← hheap, ← rest.1] at collecting
      exact collecting

theorem Collecting.leads {h h' : Heap} {ts : List Transition} {ended : Except Halt Nat}
    (c : Collecting h ts ended h') : ∃ left, Sweep.Leads {} ts ⟨left, none⟩ := by
  have start : Sweep.Leads {} [⟨.startMarking, h⟩] {} := .single ⟨rfl, trivial⟩
  have sweep : ∀ h₁ : Heap, Sweep.Leads {} [⟨.startSweep, h₁⟩]
      ⟨h₁.pool.namesOf fun x => !x.pinned, none⟩ := fun h₁ => .single ⟨rfl, rfl⟩
  cases c with
  | marking why i => exact ⟨[], start.append (.of_calm i.calm [])⟩
  | @sweeping h₁ _ _ _ left why i releasing =>
    exact ⟨left, start.append ((Sweep.Leads.of_calm i.calm []).append
      ((sweep h₁).append releasing.leads))⟩
  | @finished h₁ h₂ _ _ n i releasing _ =>
    have finish : Sweep.Leads {} [⟨.finishCollection n, h₂⟩] {} := .single ⟨rfl, rfl⟩
    exact ⟨[], start.append ((Sweep.Leads.of_calm i.calm []).append
      ((sweep h₁).append (releasing.leads.append finish)))⟩

theorem Collecting.path {h h' : Heap} {ts : List Transition} {ended : Except Halt Nat}
    (c : Collecting h ts ended h') : Path h ts h' := by
  have start : Path h [⟨.startMarking, h⟩] h.startMarking := .single .startMarking h
  have sweep : ∀ h₁ : Heap, Path h₁ [⟨.startSweep, h₁⟩] h₁.startSweep.2 := Path.single .startSweep
  cases c with
  | marking why i => exact start.append i.path
  | @sweeping h₁ _ _ _ _ why i releasing =>
    exact start.append (i.path.append ((sweep h₁).append releasing.path))
  | @finished h₁ h₂ _ _ n i releasing =>
    have finish := Path.single (.finishCollection n) h₂
    exact start.append (i.path.append ((sweep h₁).append (releasing.path.append finish)))

/-- What a collection releases was held by no pin when its sweep began. -/
theorem Collecting.unpinned_of_released {h h' : Heap} {ts : List Transition}
    {ended : Except Halt Nat} (c : Collecting h ts ended h') {id : InstanceId}
    (gone : id ∈ ts.filterMap Transition.released?) :
    ∃ marking h₁ rest x, ts = ⟨.startMarking, h⟩ :: (marking ++ ⟨.startSweep, h₁⟩ :: rest) ∧
      Interlude h.startMarking marking h₁ ∧ h₁.pool.get? id = some x ∧ x.pinned = false := by
  -- the list of the sweep has what is not pinned
  have swept : ∀ {h₁ h₂ : Heap} {us : List Transition} {left : List InstanceId},
      Releasing h₁.startSweep.2 (h₁.pool.namesOf fun x => !x.pinned) us left h₂ →
      id ∈ us.filterMap Transition.released? →
      ∃ x, h₁.pool.get? id = some x ∧ x.pinned = false := by
    intro h₁ h₂ us left releasing gone
    have doomed : id ∈ h₁.pool.namesOf fun x => !x.pinned := by
      rw [releasing.released]
      exact List.mem_append_left _ gone
    obtain ⟨x, hx, unpinned⟩ := Pool.mem_namesOf.mp doomed
    exact ⟨x, hx, Bool.not_eq_eq_eq_not.mp unpinned⟩
  cases c with
  | marking why i =>
    rw [List.filterMap_cons_none rfl, filterMap_released?_of_calm i.calm] at gone
    cases gone
  | @sweeping h₁ _ ts us _ why i releasing =>
    rw [List.filterMap_cons_none rfl, List.filterMap_append, filterMap_released?_of_calm i.calm,
      List.nil_append, List.filterMap_cons_none rfl] at gone
    obtain ⟨x, hx, unpinned⟩ := swept releasing gone
    exact ⟨ts, h₁, us, x, rfl, i, hx, unpinned⟩
  | @finished h₁ h₂ ts us n i releasing =>
    rw [List.filterMap_cons_none rfl, List.filterMap_append, filterMap_released?_of_calm i.calm,
      List.nil_append, List.filterMap_cons_none rfl, List.filterMap_append] at gone
    have gone : id ∈ us.filterMap Transition.released? ++ [] := gone
    rw [List.append_nil] at gone
    obtain ⟨x, hx, unpinned⟩ := swept releasing gone
    exact ⟨ts, h₁, _, x, rfl, i, hx, unpinned⟩

theorem Collecting.borrows {h h' : Heap} {ts : List Transition} {ended : Except Halt Nat}
    (c : Collecting h ts ended h') : h'.borrows = h.borrows := by
  cases c with
  | marking why i => exact i.borrows.trans h.borrows_startMarking
  | sweeping why i releasing =>
    exact releasing.borrows.trans (i.borrows.trans h.borrows_startMarking)
  | finished n i releasing =>
    exact releasing.borrows.trans (i.borrows.trans h.borrows_startMarking)

theorem releasing_teardownNow (announces : r.Announces body)
    (hbody : ∀ b c args, (body b c args).Follows .inside) (sound : w.heap.SoundPool) :
    let ids := w.heap.pool.namesOf fun _ => true
    ∃ us left, (teardownNow r).trace w = ⟨.startTeardown, w.heap⟩ :: us ∧
      Releasing w.heap.startTeardown.2 ids us left ((teardownNow r).exec w).2.heap ∧
      ∀ n, ((teardownNow r).exec w).1 = .ok n → left = [] ∧ n = ids.length := by
  intro ids
  have live : ∀ id ∈ ids, ∃ x, w.heap.startTeardown.2.pool.get? id = some x := by
    intro id hid
    obtain ⟨x, hx, _⟩ := Pool.mem_namesOf.mp hid
    exact ⟨x, hx⟩
  have busy : w.heap.startTeardown.2.Busy := Heap.busy_iff.mpr (Or.inl Phase.noConfusion)
  obtain ⟨left, releasing, hleft⟩ := releasing_releaseAll
    (w := { w with heap := w.heap.startTeardown.2 }) announces hbody ids
    (Transition.soundPool ⟨.startTeardown, w.heap⟩ sound) busy live (w.heap.pool.nodup_namesOf _)
  have start := bind_of_ok (exec_act .startTeardown w) fun doomed => do
    releaseAll r doomed
    report (.tornDown doomed.length)
    return doomed.length
  have rest := bind_of_silent (releaseAll r (ids.map InstanceId.index))
    (fun _ => do
      report (.tornDown (ids.map InstanceId.index).length)
      return (ids.map InstanceId.index).length)
    (fun _ _ => ⟨rfl, rfl⟩) { w with heap := w.heap.startTeardown.2 }
  refine ⟨_, left, start.2, ?_⟩
  rw [teardownNow, start.1]
  rw [← rest.1, ← rest.2] at releasing
  refine ⟨releasing, fun n hn => ?_⟩
  rcases hall : (releaseAll r (ids.map InstanceId.index)).exec
    { w with heap := w.heap.startTeardown.2 } with ⟨why | a, w'⟩
  · have cut := bind_of_error hall fun _ => do
      report (.tornDown (ids.map InstanceId.index).length)
      return (ids.map InstanceId.index).length
    cases (congrArg Prod.fst cut.1).symm.trans hn
  · have done := bind_of_ok hall fun _ => do
      report (.tornDown (ids.map InstanceId.index).length)
      return (ids.map InstanceId.index).length
    have hok : Except.ok (ids.map InstanceId.index).length = Except.ok n :=
      (congrArg Prod.fst done.1).symm.trans hn
    refine ⟨hleft a (congrArg Prod.fst hall), ?_⟩
    rw [← Except.ok.inj hok, List.length_map]

end

/-! ## What happens on a heap that is not busy -/

/-- From `h` to `h'` there are interludes, and collections and teardowns from their start to their
end, one after the other.  These start on a heap that is not busy. -/
inductive Proceeds : Heap → List Transition → Heap → Prop where
  | interlude {h h' : Heap} {ts : List Transition} : Interlude h ts h' → Proceeds h ts h'
  | append {h h' h'' : Heap} {ts us : List Transition} :
      Proceeds h ts h' → Proceeds h' us h'' → Proceeds h (ts ++ us) h''
  | collection {h h' : Heap} {ts : List Transition} {ended : Except Halt Nat} :
      h.refusal? = none → Collecting h ts ended h' →
      Proceeds h (ts ++ [⟨.setPhase .idle, h'⟩]) (h'.setPhase .idle)
  | teardown {h h' : Heap} {us : List Transition} {left : List InstanceId} :
      h.refusal? = none → Releasing h.startTeardown.2 (h.pool.namesOf fun _ => true) us left h' →
      Proceeds h (⟨.startTeardown, h⟩ :: us ++ [⟨.setPhase .idle, h'⟩]) (h'.setPhase .idle)

theorem Sweep.Leads.stop (left : List InstanceId) (h : Heap) :
    Leads ⟨left, none⟩ [⟨.setPhase .idle, h⟩] {} := .single ⟨rfl, trivial⟩

namespace Proceeds

variable {h h' : Heap} {ts : List Transition}

theorem path (p : Proceeds h ts h') : Path h ts h' := by
  induction p with
  | interlude i => exact i.path
  | append _ _ first second => exact first.append second
  | collection _ collecting => exact collecting.path.append (.single (.setPhase .idle) _)
  | @teardown h _ _ _ _ releasing =>
    exact (Path.cons ⟨.startTeardown, h⟩ releasing.path).append (.single (.setPhase .idle) _)

theorem leads (p : Proceeds h ts h') : Sweep.Leads {} ts {} := by
  induction p with
  | interlude i => exact .of_calm i.calm []
  | append _ _ first second => exact first.append second
  | collection _ collecting =>
    obtain ⟨left, leads⟩ := collecting.leads
    exact leads.append (.stop left _)
  | @teardown h _ _ left _ releasing =>
    have begins : Sweep.Leads {} [⟨.startTeardown, h⟩] ⟨h.pool.namesOf fun _ => true, none⟩ :=
      .single ⟨rfl, rfl⟩
    exact (begins.append releasing.leads).append (.stop left _)

end Proceeds

/-! ## Lawful computations -/

/-- Started when no collection and no use of a payload goes on, a computation proceeds so, and leaves
no collection and no use going on. -/
def Conduct.orderly : Conduct where
  pre h := h.SoundPool ∧ h.refusal? = none
  rel h ts h' := Proceeds h ts h' ∧ h'.refusal? = none
  nil ready := ⟨.interlude (.nil _), ready.2⟩
  append first second := ⟨first.1.append second.1, second.2⟩
  keeps path start rel := ⟨(path.invariant (fun t _ => t.soundPool) start.1).1, rel.2⟩

section
variable {α : Type}

theorem Interlude.orderly {h h' : Heap} {ts : List Transition} (i : Interlude h ts h')
    (start : h.SoundPool ∧ h.refusal? = none) : Conduct.orderly.rel h ts h' := by
  refine ⟨.interlude i, ?_⟩
  have ready := start.2
  rw [Heap.refusal?_eq_none_iff] at ready ⊢
  rw [i.phase, i.borrows]
  exact ready

theorem orderly_act {a : Action α} (ha : a.ordinary = true) : (act a).Follows .orderly :=
  fun w start => (Interlude.act w.heap ha).orderly start

section
variable {r : Runner} {body : Runner.Body}

theorem orderly_collect (announces : r.Announces body)
    (hbody : ∀ b c args, (body b c args).Follows .inside) : (collect r).Follows .orderly := by
  intro w start
  obtain ⟨htrace, _, hheap⟩ := collect_ready r start.2
  have collecting := collecting_collectNow announces hbody start.1
  rw [htrace, hheap]
  refine ⟨.collection start.2 collecting, ?_⟩
  rw [Heap.refusal?_eq_none_iff]
  exact ⟨rfl, collecting.borrows.trans (Heap.refusal?_eq_none_iff.mp start.2).2⟩

theorem orderly_teardown (announces : r.Announces body)
    (hbody : ∀ b c args, (body b c args).Follows .inside) : (teardown r).Follows .orderly := by
  intro w start
  obtain ⟨htrace, _, hheap⟩ := teardown_ready r start.2
  obtain ⟨us, left, hnow, releasing, _⟩ := releasing_teardownNow announces hbody start.1
  rw [htrace, hheap, hnow]
  refine ⟨.teardown start.2 releasing, ?_⟩
  rw [Heap.refusal?_eq_none_iff]
  exact ⟨rfl, releasing.borrows.trans (Heap.refusal?_eq_none_iff.mp start.2).2⟩

theorem orderly_allocate (hcollect : (collect r).Follows .orderly) (d : Descriptor) (p : Payload) :
    (allocate r d p).run.Follows .orderly :=
  follows_allocate (follows_collectIfDue_of_collect hcollect (orderly_act rfl))
    fun w start => (Interlude.place d p w.heap).orderly start

end

/-- A lawful computation leaves no collection or teardown unfinished. -/
theorem Run.Lawful.orderly {x : Run α} (h : x.Lawful) : x.Follows .orderly := by
  induction h with
  | done a => exact follows_pure a
  | look f => exact follows_look f
  | note f => exact follows_note f
  | halt why => exact follows_halt why
  | act ha => exact orderly_act ha
  | andThen _ _ hx hnext => exact follows_bind hx hnext
  | ensuring f _ hx => exact follows_ensuring hx (follows_note f)
  | withFrame caller _ hx =>
    exact follows_withFrame (fun _ => orderly_act rfl) (orderly_act rfl) caller hx
  | withPayload v k hx =>
    exact fun w start => (interlude_withPayload v k (fun c => (hx c).inside) w).orderly start
  | withPayloadMut v k hx =>
    exact fun w start => (interlude_withPayloadMut v k (fun c => (hx c).inside) w).orderly start
  | writePayload v k f => exact fun w start => (interlude_writePayload v k f w).orderly start
  | collect announces hbody =>
    exact orderly_collect announces fun b c args => (hbody b c args).inside
  | teardown announces hbody =>
    exact orderly_teardown announces fun b c args => (hbody b c args).inside
  | allocate d p announces hbody =>
    exact orderly_allocate (orderly_collect announces fun b c args => (hbody b c args).inside) d p

end

theorem Heap.refusal?_new (c : Config) : (Heap.new c).refusal? = none := rfl

theorem Session.proceeds_history (s : Session) {r : Runner} (hr : r.Lawful)
    (valid : s.config.fault? = none) : ∃ h, Proceeds (Heap.new s.config) (s.history r) h := by
  obtain ⟨h, proceeds, _⟩ := s.follows_history (C := .orderly)
    ⟨Heap.soundPool_new valid, Heap.refusal?_new s.config⟩ s.lawful_opening.orderly
    (fun step => (lawful_step hr step).orderly) (lawful_teardown hr).orderly
  exact ⟨h, proceeds⟩

/-- No sweep of a session is left unfinished. -/
theorem Session.orderly_history (s : Session) {r : Runner} (hr : r.Lawful)
    (valid : s.config.fault? = none) : Sweep.Leads {} (s.history r) {} := by
  obtain ⟨_, proceeds⟩ := s.proceeds_history hr valid
  exact proceeds.leads

theorem Session.soundPool_moments (s : Session) (r : Runner) (valid : s.config.fault? = none) :
    ∀ h ∈ s.moments r, h.SoundPool :=
  s.forall_moments r (Heap.soundPool_new valid) fun t _ => t.soundPool

end TracedHeap
