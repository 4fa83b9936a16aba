import TracedHeap.Proofs.Permanence

/-!
# When collections begin and stop

A collection or a teardown begins on a heap that is not busy, and from then on the collector is not
idle until it stops.  So no other one begins in between, and what a sweep had to release is released
or given up before the next one begins.

* `Transition.begins`       a collection or a teardown begins;
* `Proceeds.ready_of_begins`
                            it does so only if none is under way and no payload is in use;
* `Path.stops_of_idle`      what has begun has stopped when the collector is idle;
* `Session.unbegun_until_stops`
                            from the beginning of a collection to its stop no other one begins;
* `Session.doomed_of_begins`
                            nothing is left of earlier sweeps when a collection begins.
-/

namespace TracedHeap

namespace Transition

def startsMarking : Transition → Bool
  | ⟨.startMarking, _⟩ => true
  | _ => false

def begins (t : Transition) : Bool := t.startsMarking || t.tearsDown

variable {t : Transition}

theorem begins_of_sweeps (ht : t.action.sweeps = true) : t.begins = false := by
  obtain ⟨a, h⟩ := t
  cases a with
  | startMarking | startTeardown => cases ht
  | _ => rfl

theorem phase_of_begins (ht : t.begins = true) : t.after.collector.phase ≠ .idle := by
  obtain ⟨a, h⟩ := t
  cases a with
  | startMarking | startTeardown => exact Phase.noConfusion
  | _ => cases ht

theorem phase_ne_idle (goes : t.stops = false) (under : t.before.collector.phase ≠ .idle) :
    t.after.collector.phase ≠ .idle := by
  obtain ⟨a, h⟩ := t
  cases a with
  | setPhase phase => cases goes
  | startMarking | startSweep | startTeardown => exact Phase.noConfusion
  | finishCollection n => exact under
  | evict slot =>
    show (h.evict slot).2.collector.phase ≠ .idle
    rw [(h.phase_and_borrows_evict slot).1]
    exact under
  | invoke b c args => exact under
  | _ =>
    rw [phase_of_calm rfl]
    exact under

end Transition

/-! ## Beginning -/

theorem Collecting.not_begins {h h' : Heap} {ts : List Transition} {ended : Except Halt Nat}
    (c : Collecting h ts ended h') :
    ∃ us, ts = ⟨.startMarking, h⟩ :: us ∧ ∀ t ∈ us, t.begins = false := by
  have marking : ∀ {us : List Transition} {h₁ : Heap}, Interlude h.startMarking us h₁ →
      ∀ t ∈ us, t.begins = false := fun i t ht =>
    Transition.begins_of_sweeps (Action.sweeps_of_calm (i.calm t ht))
  have sweeping : ∀ {h₁ h₂ : Heap} {ids left : List InstanceId} {us : List Transition},
      Releasing h₁ ids us left h₂ → ∀ t ∈ us, t.begins = false := fun releasing t ht =>
    Transition.begins_of_sweeps (releasing.sweeps t ht)
  cases c with
  | marking why i => exact ⟨_, rfl, marking i⟩
  | sweeping why i releasing =>
    exact ⟨_, rfl, List.forall_mem_append.mpr
      ⟨marking i, List.forall_mem_cons.mpr ⟨rfl, sweeping releasing⟩⟩⟩
  | finished n i releasing =>
    exact ⟨_, rfl, List.forall_mem_append.mpr ⟨marking i, List.forall_mem_cons.mpr
      ⟨rfl, List.forall_mem_append.mpr ⟨sweeping releasing, List.forall_mem_singleton.mpr rfl⟩⟩⟩⟩

/-- Collections and teardowns begin only if none is under way and no payload is in use. -/
theorem Proceeds.ready_of_begins {h h' : Heap} {ts : List Transition} (p : Proceeds h ts h') :
    ∀ t ∈ ts, t.begins = true → t.before.refusal? = none := by
  have never : ∀ {us : List Transition}, (∀ t ∈ us, t.begins = false) →
      ∀ t ∈ us, t.begins = true → t.before.refusal? = none := by
    intro us hus t ht begins
    rw [hus t ht] at begins
    cases begins
  induction p with
  | interlude i =>
    exact never fun t ht => Transition.begins_of_sweeps (Action.sweeps_of_calm (i.calm t ht))
  | append _ _ ih ih' => exact List.forall_mem_append.mpr ⟨ih, ih'⟩
  | collection ready collecting =>
    obtain ⟨us, rfl, hus⟩ := collecting.not_begins
    exact List.forall_mem_append.mpr ⟨List.forall_mem_cons.mpr ⟨fun _ => ready, never hus⟩,
      never (List.forall_mem_singleton.mpr rfl)⟩
  | teardown ready releasing =>
    refine List.forall_mem_append.mpr ⟨List.forall_mem_cons.mpr ⟨fun _ => ready, ?_⟩,
      never (List.forall_mem_singleton.mpr rfl)⟩
    exact never fun t ht => Transition.begins_of_sweeps (releasing.sweeps t ht)

theorem Session.ready_of_begins (s : Session) {r : Runner} (hr : r.Lawful)
    (valid : s.config.fault? = none) :
    ∀ t ∈ s.history r, t.begins = true → t.before.refusal? = none := by
  obtain ⟨_, proceeds⟩ := s.proceeds_history hr valid
  exact proceeds.ready_of_begins

/-! ## Stopping -/

namespace Path

variable {h h' : Heap} {ts : List Transition}

theorem phase_ne_idle (p : Path h ts h') (goes : ∀ t ∈ ts, t.stops = false)
    (under : h.collector.phase ≠ .idle) :
    h'.collector.phase ≠ .idle ∧ ∀ t ∈ ts, t.before.collector.phase ≠ .idle := by
  obtain ⟨last, all⟩ := p.invariant (I := fun h => h.collector.phase ≠ .idle)
    (fun t ht => Transition.phase_ne_idle (goes t ht)) under
  exact ⟨last, fun t ht => (all t ht).1⟩

/-- When the collector is idle, every collection and teardown that has begun has stopped. -/
theorem stops_of_idle (p : Path h ts h') (idle : h'.collector.phase = .idle)
    {earlier since : List Transition} {t : Transition} (heq : ts = earlier ++ t :: since)
    (begins : t.begins = true) : ∃ u ∈ since, u.stops = true := by
  subst heq
  obtain ⟨_, _, p⟩ := p.split
  cases p with
  | cons _ p =>
    by_contra never
    have goes : ∀ u ∈ since, u.stops = false := fun u hu =>
      Bool.eq_false_iff.mpr fun hstop => never ⟨u, hu, hstop⟩
    exact (p.phase_ne_idle goes (Transition.phase_of_begins begins)).1 idle

end Path

/-- From the beginning of a collection until the collector stops no other one begins. -/
theorem Session.unbegun_until_stops (s : Session) {r : Runner} (hr : r.Lawful)
    (valid : s.config.fault? = none) {past mid rest : List Transition} {b : Transition}
    (heq : s.history r = past ++ b :: (mid ++ rest)) (begins : b.begins = true)
    (goes : ∀ t ∈ mid, t.stops = false) : ∀ t ∈ mid, t.begins = false := by
  obtain ⟨_, path⟩ := s.path_history r
  have ready := s.ready_of_begins hr valid
  rw [heq] at path ready
  obtain ⟨_, _, path⟩ := path.split
  cases path with
  | cons _ path =>
    obtain ⟨_, path, _⟩ := path.split
    obtain ⟨_, under⟩ := path.phase_ne_idle goes (Transition.phase_of_begins begins)
    intro t ht
    refine Bool.eq_false_iff.mpr fun hbegins => under t ht ?_
    have there := List.mem_append_right past (List.mem_cons_of_mem b (List.mem_append_left rest ht))
    exact (Heap.refusal?_eq_none_iff.mp (ready t there hbegins)).1

/-! ## What is left of a sweep -/

theorem Sweep.Allows.sweeping {s : Sweep} {t : Transition} (allowed : s.Allows t)
    (ready : t.begins = true → t.before.refusal? = none)
    (sweeping : s.left ≠ [] → t.before.collector.phase = .sweeping) :
    (s.next t).left ≠ [] → t.after.collector.phase = .sweeping := by
  obtain ⟨a, h⟩ := t
  cases a with
  | startSweep | startTeardown => exact fun _ => rfl
  | setPhase phase => exact fun hleft => absurd rfl hleft
  | evict slot =>
    intro hleft
    have hleft : s.left.tail ≠ [] := hleft
    show (h.evict slot).2.collector.phase = .sweeping
    rw [(h.phase_and_borrows_evict slot).1]
    refine sweeping fun hnil => hleft ?_
    rw [hnil]
    rfl
  | startMarking =>
    intro hleft
    have idle := (Heap.refusal?_eq_none_iff.mp (ready rfl)).1
    cases idle.symm.trans (sweeping hleft)
  | finishCollection n | invoke b c args => exact sweeping
  | _ =>
    intro hleft
    rw [Transition.phase_of_calm rfl]
    exact sweeping hleft

theorem Sweep.Leads.sweeping {h h' : Heap} {ts : List Transition} {s s' : Sweep}
    (l : Leads s ts s') (p : Path h ts h')
    (ready : ∀ t ∈ ts, t.begins = true → t.before.refusal? = none)
    (start : s.left ≠ [] → h.collector.phase = .sweeping) :
    s'.left ≠ [] → h'.collector.phase = .sweeping := by
  induction p generalizing s with
  | nil =>
    cases l
    exact start
  | cons t _ ih =>
    obtain ⟨here, later⟩ := List.forall_mem_cons.mp ready
    cases l with
    | cons allowed l => exact ih l later (allowed.sweeping here start)

/-- When a collection begins, nothing is left of earlier sweeps. -/
theorem Session.doomed_of_begins (s : Session) {r : Runner} (hr : r.Lawful)
    (valid : s.config.fault? = none) {past rest : List Transition} {b : Transition}
    (heq : s.history r = past ++ b :: rest) (begins : b.begins = true) : doomed past = [] := by
  have leads := s.orderly_history hr valid
  have ready := s.ready_of_begins hr valid
  rw [heq] at leads ready
  obtain ⟨_, lpast, _⟩ := leads.split
  obtain ⟨hpast, hrest⟩ := List.forall_mem_append.mp ready
  have idle := (Heap.refusal?_eq_none_iff.mp (hrest b List.mem_cons_self begins)).1
  by_contra hleft
  rw [doomed, ← lpast.left_eq] at hleft
  cases idle.symm.trans (lpast.sweeping (path_before heq) hpast (fun h => absurd rfl h) hleft)

end TracedHeap
