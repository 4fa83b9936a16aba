import TracedHeap.Proofs.Receiver
import TracedHeap.Proofs.Sifting
import TracedHeap.Proofs.Teardown

/-!
# Instances are conserved

Every instance ever allocated is there, or was released by a collection or by a teardown, and the
statistics and the answers of collections and teardowns add up to that.

* `collected`, `tornDown`    what collections and teardowns among some transitions answer, summed up;
* `Reckoned`                 the releases are as many as these answers say;
* `Run.Lawful.reckoned`      so it is when a lawful computation comes to its end;
* `collect_answer`           which instances the answer of a collection counts;
* `Session.instances_conserved`
                             the balance between any two steps of a session;
* `Session.unmarked_newborn_counted`
                             a collection counts an instance that was not there when it started.
-/

namespace TracedHeap

open Run

/-! ## Answers -/

/-- What a teardown that begins with a transition answers when it comes to its end. -/
def Transition.tornDown : Transition → Nat
  | ⟨.startTeardown, h⟩ => h.startTeardown.1.length
  | _ => 0

/-- What the collections among some transitions answer, summed up. -/
def collected (ts : List Transition) : Nat := (ts.map Transition.freed).sum

def tornDown (ts : List Transition) : Nat := (ts.map Transition.tornDown).sum

theorem collected_append (ts us : List Transition) :
    collected (ts ++ us) = collected ts + collected us := by
  unfold collected
  rw [List.map_append, List.sum_append]

theorem tornDown_append (ts us : List Transition) :
    tornDown (ts ++ us) = tornDown ts + tornDown us := by
  unfold tornDown
  rw [List.map_append, List.sum_append]

theorem Transition.answers_of_sweeps {t : Transition} (ht : t.action.sweeps = true) :
    t.freed = 0 ∧ t.tornDown = 0 := by
  obtain ⟨a, h⟩ := t
  cases a with
  | startMarking | startSweep | startTeardown | finishCollection | setPhase => cases ht
  | _ => exact ⟨rfl, rfl⟩

/-- In the middle of a sweep no collection and no teardown begins or ends. -/
theorem answers_of_sweeps {ts : List Transition} (sweeps : ∀ t ∈ ts, t.action.sweeps = true) :
    collected ts = 0 ∧ tornDown ts = 0 := by
  induction ts with
  | nil => exact ⟨rfl, rfl⟩
  | cons t ts ih =>
    obtain ⟨here, later⟩ := List.forall_mem_cons.mp sweeps
    obtain ⟨hfreed, htorn⟩ := Transition.answers_of_sweeps here
    obtain ⟨ihfreed, ihtorn⟩ := ih later
    unfold collected tornDown at *
    rw [List.map_cons, List.map_cons, List.sum_cons, List.sum_cons, hfreed, htorn, ihfreed, ihtorn]
    exact ⟨rfl, rfl⟩

theorem answers_of_calm {ts : List Transition} (calm : ∀ t ∈ ts, t.action.calm = true) :
    collected ts = 0 ∧ tornDown ts = 0 :=
  answers_of_sweeps fun t ht => Action.sweeps_of_calm (calm t ht)

/-- The releases are as many as the answers of collections and teardowns say. -/
def Reckoned (ts : List Transition) : Prop :=
  (ts.filterMap Transition.released?).length = collected ts + tornDown ts

namespace Reckoned

theorem nil : Reckoned [] := rfl

theorem append {ts us : List Transition} (first : Reckoned ts) (second : Reckoned us) :
    Reckoned (ts ++ us) := by
  unfold Reckoned at *
  rw [List.filterMap_append, List.length_append, collected_append, tornDown_append]
  omega

theorem of_calm {ts : List Transition} (calm : ∀ t ∈ ts, t.action.calm = true) : Reckoned ts := by
  obtain ⟨hcollected, htorn⟩ := answers_of_calm calm
  rw [Reckoned, filterMap_released?_of_calm calm, hcollected, htorn]
  rfl

end Reckoned

/-! ## Collections and teardowns -/

theorem Releasing.released_finished {h h₁ h₂ : Heap} {ts us : List Transition}
    (i : Interlude h.startMarking ts h₁)
    (releasing : Releasing h₁.startSweep.2 (h₁.pool.namesOf fun x => !x.pinned) us [] h₂) (n : Nat) :
    (⟨.startMarking, h⟩ :: (ts ++ ⟨.startSweep, h₁⟩ ::
      (us ++ [⟨.finishCollection n, h₂⟩]))).filterMap Transition.released? =
        h₁.pool.namesOf fun x => !x.pinned := by
  rw [List.filterMap_cons_none rfl, List.filterMap_append, filterMap_released?_of_calm i.calm,
    List.nil_append, List.filterMap_cons_none rfl, List.filterMap_append, releasing.released]
  rfl

theorem Collecting.answers {h h' : Heap} {ts : List Transition} {n : Nat}
    (c : Collecting h ts (.ok n) h') :
    collected ts = n ∧ tornDown ts = 0 ∧ (ts.filterMap Transition.released?).length = n := by
  cases c with
  | @finished h₁ h₂ ts us _ i releasing hn =>
    obtain ⟨hmarking, hmarking'⟩ := answers_of_calm i.calm
    obtain ⟨hsweeping, hsweeping'⟩ := answers_of_sweeps releasing.sweeps
    refine ⟨?_, ?_, by rw [releasing.released_finished i, hn]⟩
    · show 0 + collected (ts ++ ([⟨.startSweep, h₁⟩] ++ (us ++ [⟨.finishCollection n, h₂⟩]))) = n
      rw [collected_append, collected_append, collected_append, hmarking, hsweeping]
      show 0 + (0 + (0 + (0 + (n + 0)))) = n
      omega
    · show 0 + tornDown (ts ++ ([⟨.startSweep, h₁⟩] ++ (us ++ [⟨.finishCollection n, h₂⟩]))) = 0
      rw [tornDown_append, tornDown_append, tornDown_append, hmarking', hsweeping']
      rfl

section
variable {r : Runner} {w w' : World} {n : Nat}

theorem Collecting.of_collect (hr : r.Lawful) (sound : w.heap.SoundPool)
    (ready : w.heap.refusal? = none) (done : (collect r).exec w = (.ok n, w')) :
    ∃ ts h, Collecting w.heap ts (.ok n) h ∧
      (collect r).trace w = ts ++ [⟨.setPhase .idle, h⟩] := by
  obtain ⟨body, announces, hbody⟩ := hr
  obtain ⟨htrace, hended, _⟩ := collect_ready r ready
  have collecting := collecting_collectNow announces (fun b c args => (hbody b c args).inside) sound
  have hok : ((collectNow r).exec w).1 = .ok n := by rw [← hended, done]
  rw [hok] at collecting
  exact ⟨_, _, collecting, htrace⟩

/-- A collection that comes to its end answers how many instances it released, whether it was
refused or not; and it is no teardown. -/
theorem collect_answers (hr : r.Lawful) (sound : w.heap.SoundPool)
    (done : (collect r).exec w = (.ok n, w')) :
    collected ((collect r).trace w) = n ∧ tornDown ((collect r).trace w) = 0 ∧
      (((collect r).trace w).filterMap Transition.released?).length = n := by
  by_cases ready : w.heap.refusal? = none
  · obtain ⟨ts, h, collecting, htrace⟩ := Collecting.of_collect hr sound ready done
    obtain ⟨hcollected, htorn, hreleased⟩ := collecting.answers
    rw [htrace, collected_append, tornDown_append, List.filterMap_append, List.length_append,
      hcollected, htorn, hreleased]
    exact ⟨rfl, rfl, rfl⟩
  · have hzero : ((collect r).exec w).1 = .ok 0 := (exec_refused r ready).1
    rw [done] at hzero
    cases hzero
    rw [(collect_refused r ready).2]
    exact ⟨rfl, rfl, rfl⟩

theorem teardown_answers (hr : r.Lawful) (sound : w.heap.SoundPool)
    (done : (teardown r).exec w = (.ok n, w')) :
    tornDown ((teardown r).trace w) = n ∧ collected ((teardown r).trace w) = 0 ∧
      (((teardown r).trace w).filterMap Transition.released?).length = n := by
  by_cases ready : w.heap.refusal? = none
  · obtain ⟨hall, hn⟩ := teardown_released hr sound ready done
    obtain ⟨body, announces, hbody⟩ := hr
    obtain ⟨htrace, _, _⟩ := teardown_ready r ready
    obtain ⟨us, left, hnow, releasing, _⟩ := releasing_teardownNow announces
      (fun b c args => (hbody b c args).inside) sound
    obtain ⟨hsweeping, hsweeping'⟩ := answers_of_sweeps releasing.sweeps
    have hlength : (w.heap.pool.namesOf fun _ => true).length = n := by
      rw [hn, Pool.length_namesOf_true, sound.sound.live_eq]
    have hbegin : Transition.tornDown ⟨.startTeardown, w.heap⟩ = n :=
      (List.length_map InstanceId.index).trans hlength
    refine ⟨?_, ?_, by rw [hall, hlength]⟩
    · rw [htrace, hnow, List.cons_append, tornDown, List.map_cons, List.sum_cons, hbegin]
      show n + tornDown (us ++ _) = n
      rw [tornDown_append, hsweeping']
      rfl
    · rw [htrace, hnow, collected_append]
      show 0 + collected us + 0 = 0
      rw [hsweeping]
  · have hzero : ((teardown r).exec w).1 = .ok 0 := (exec_refused r ready).2
    rw [done] at hzero
    cases hzero
    rw [(teardown_refused r ready).2]
    exact ⟨rfl, rfl, rfl⟩

end

/-! ## Lawful computations -/

/-- If the computation starts on a heap that is not busy and comes to its end, the releases are as
many as the answers say. -/
def Run.Reckons {α : Type} (x : Run α) : Prop :=
  ∀ ⦃w : World⦄, Conduct.orderly.pre w.heap → ∀ ⦃a w'⦄, x.exec w = (.ok a, w') →
    Reckoned (x.trace w)

section
variable {α β : Type}

theorem reckons_of_calm {x : Run α} (calm : ∀ w, ∀ t ∈ x.trace w, t.action.calm = true) :
    x.Reckons :=
  fun w _ _ _ _ => .of_calm (calm w)

theorem reckons_bind {x : Run α} {next : α → Run β} (hx : x.Reckons) (orderly : x.Follows .orderly)
    (hnext : ∀ a, (next a).Reckons) : (x >>= next).Reckons := by
  intro w start b w' done
  rcases hexec : x.exec w with ⟨why | a, w₁⟩
  · rw [(bind_of_error hexec next).1] at done
    cases done
  · obtain ⟨hrun, htrace⟩ := bind_of_ok hexec next
    rw [hrun] at done
    have middle : Conduct.orderly.pre w₁.heap := by
      have ended := Conduct.orderly.keeps (x.path_trace w) start (orderly w start)
      rwa [hexec] at ended
    rw [htrace]
    exact (hx start hexec).append (hnext a middle done)

section
variable {r : Runner}

theorem reckons_collect (hr : r.Lawful) : (collect r).Reckons := by
  intro w start n w' done
  obtain ⟨hcollected, htorn, hreleased⟩ := collect_answers hr start.1 done
  rw [Reckoned, hcollected, htorn, hreleased]
  rfl

theorem reckons_teardown (hr : r.Lawful) : (teardown r).Reckons := by
  intro w start n w' done
  obtain ⟨htorn, hcollected, hreleased⟩ := teardown_answers hr start.1 done
  rw [Reckoned, hcollected, htorn, hreleased]
  exact (Nat.zero_add n).symm

theorem reckons_collectIfDue (hr : r.Lawful) : (collectIfDue r).Reckons := by
  have hcollect : (collect r).Follows .orderly := by
    obtain ⟨body, announces, hbody⟩ := hr
    exact orderly_collect announces fun b c args => (hbody b c args).inside
  have hschedule : (act .schedule).Reckons :=
    reckons_of_calm fun _ => List.forall_mem_singleton.mpr rfl
  refine reckons_bind (reckons_of_calm fun _ => List.forall_mem_nil _) (follows_look _) fun h => ?_
  split
  · exact reckons_bind (reckons_collect hr) hcollect fun _ => hschedule
  · exact reckons_of_calm fun _ => List.forall_mem_nil _

theorem reckons_allocate (hr : r.Lawful) (d : Descriptor) (p : Payload) :
    (allocate r d p).run.Reckons := by
  intro w start a w' done
  rcases Nat.lt_or_ge d.index w.heap.registry.size with known | unknown
  · obtain ⟨htrace, hexec⟩ := allocate_of_known (r := r) (p := p) known
    rw [hexec, Attempt.exec_lift] at done
    rcases hdue : (collectIfDue r).exec w with ⟨why | _, w₁⟩
    · rw [(allocateNow_of_error hdue).2] at done
      cases done
    · rw [htrace, (allocateNow_of_ok hdue).1]
      have placing : Reckoned [⟨.place d p, w₁.heap⟩] :=
        .of_calm (List.forall_mem_singleton.mpr rfl)
      exact (reckons_collectIfDue hr start hdue).append placing
  · rw [(allocate_of_unknown unknown).1]
    exact .nil

end

theorem reckons_withFrame (caller : Value) {x : Run α} (hx : x.Reckons) :
    (withFrame caller x).Reckons := by
  intro w start a w' done
  have inside : Conduct.orderly.pre (w.inFrame caller).heap := by
    rw [w.heap_inFrame caller]
    exact ⟨Transition.soundPool ⟨.pushFrame caller, w.heap⟩ start.1, start.2⟩
  have hended : (x.exec (w.inFrame caller)).1 = .ok a := by
    rw [← (exec_withFrame caller x w).1, done]
  have entering : Reckoned [⟨.pushFrame caller, w.heap⟩] :=
    .of_calm (List.forall_mem_singleton.mpr rfl)
  have leaving : Reckoned [⟨.popFrame, (x.exec (w.inFrame caller)).2.heap⟩] :=
    .of_calm (List.forall_mem_singleton.mpr rfl)
  rw [trace_withFrame]
  exact entering.append ((hx inside (Prod.ext hended rfl)).append leaving)

theorem reckons_ensuring {x : Run α} (f : Context → Context) (hx : x.Reckons) :
    (ensuring x (note f)).Reckons := by
  intro w start a w' done
  have hfst := exec_ensuring_fst x (note f) w
  have htrace : (ensuring x (note f)).trace w = x.trace w ++ [] := rfl
  rw [htrace, List.append_nil]
  rcases hexec : x.exec w with ⟨why | b, w₁⟩
  · rw [hexec, done] at hfst
    cases hfst
  · exact hx start hexec

/-- When a lawful computation comes to its end, the releases are as many as the answers of the
collections and teardowns in it say. -/
theorem Run.Lawful.reckoned {x : Run α} (h : x.Lawful) : x.Reckons := by
  induction h with
  | done a => exact reckons_of_calm fun _ => List.forall_mem_nil _
  | look f => exact reckons_of_calm fun _ => List.forall_mem_nil _
  | note f => exact reckons_of_calm fun _ => List.forall_mem_nil _
  | halt why => exact reckons_of_calm fun _ => List.forall_mem_nil _
  | act ha =>
    exact reckons_of_calm fun _ => List.forall_mem_singleton.mpr (Action.calm_of_ordinary ha)
  | andThen lawful _ hx hnext => exact reckons_bind hx lawful.orderly hnext
  | ensuring f _ hx => exact reckons_ensuring f hx
  | withFrame caller _ hx => exact reckons_withFrame caller hx
  | withPayload v k hx _ =>
    exact reckons_of_calm fun w => (interlude_withPayload v k (fun c => (hx c).inside) w).calm
  | withPayloadMut v k hx _ =>
    exact reckons_of_calm fun w => (interlude_withPayloadMut v k (fun c => (hx c).inside) w).calm
  | writePayload v k f => exact reckons_of_calm fun w => (interlude_writePayload v k f w).calm
  | collect announces hbody _ => exact reckons_collect ⟨_, announces, hbody⟩
  | teardown announces hbody _ => exact reckons_teardown ⟨_, announces, hbody⟩
  | allocate d p announces hbody _ => exact reckons_allocate ⟨_, announces, hbody⟩ d p

end

/-! ## What the answer of a collection counts -/

theorem Transition.marked_of_placed {t : Transition} {id : InstanceId} (sound : t.before.SoundPool)
    (marking : t.before.collector.phase = .marking) (placed : t.placed? = some id) :
    ∃ y, t.after.pool.get? id = some y ∧ y.marked = true := by
  obtain ⟨a, h⟩ := t
  cases a with
  | place d p =>
    cases placed
    obtain ⟨y, hy, _⟩ := Heap.get?_place_self sound d p
    refine ⟨y, hy, ?_⟩
    unfold Heap.place at hy
    simp only at hy
    rw [if_pos marking] at hy
    exact (Heap.marked_mark (h := h.enroll _ _) marking _ hy).1 rfl
  | _ => cases placed

/-- What is placed during a marking in which no mark is taken away is marked at its end. -/
theorem Path.marked_of_placed {h h' : Heap} {ts : List Transition} (p : Path h ts h')
    (sound : h.SoundPool) (marking : h.collector.phase = .marking)
    (calm : ∀ t ∈ ts, t.action.calm = true) (keeps : ∀ t ∈ ts, t.unmarks = false)
    {t : Transition} (ht : t ∈ ts) {id : InstanceId} (placed : t.placed? = some id) :
    ∃ y, h'.pool.get? id = some y ∧ y.marked = true := by
  obtain ⟨past, rest, rfl⟩ := List.append_of_mem ht
  obtain ⟨hpast, hrest⟩ := List.forall_mem_append.mp calm
  obtain ⟨_, hkeeps⟩ := List.forall_mem_append.mp keeps
  obtain ⟨_, before, after⟩ := p.split
  have sound₁ := before.soundPool sound
  have marking₁ := (before.invariant (I := fun h => h.collector.phase = .marking)
    (fun t ht hm => (Transition.phase_of_calm (hpast t ht)).trans hm) marking).1
  cases after with
  | cons _ after =>
    obtain ⟨y, hy, hmarked⟩ := Transition.marked_of_placed sound₁ marking₁ placed
    exact after.marked (t.soundPool sound₁) (List.forall_mem_cons.mp hrest).2
      (List.forall_mem_cons.mp hkeeps).2 hy hmarked

/-- A collection in which no mark is taken away releases only what was there when it started. -/
theorem Collecting.old_of_released {h h' : Heap} {ts : List Transition} {ended : Except Halt Nat}
    (c : Collecting h ts ended h') (sound : h.SoundPool) (keeps : ∀ t ∈ ts, t.unmarks = false)
    {id : InstanceId} (gone : id ∈ ts.filterMap Transition.released?) :
    ∃ x, h.pool.get? id = some x := by
  obtain ⟨marking, h₁, rest, x, rfl, i, hx, unpinned⟩ := c.unpinned_of_released gone
  obtain ⟨hkeeps, _⟩ := List.forall_mem_append.mp (List.forall_mem_cons.mp keeps).2
  rcases i.path.came ⟨x, hx⟩ with there | ⟨t, ht, placed⟩
  · exact (Path.single .startMarking h).came there |>.resolve_right (by
      rintro ⟨t, ht, placed⟩
      cases List.mem_singleton.mp ht
      cases placed)
  · obtain ⟨y, hy, hmarked⟩ := i.path.marked_of_placed
      (Transition.soundPool ⟨.startMarking, h⟩ sound) rfl i.calm hkeeps ht placed
    rw [hx] at hy
    cases hy
    rw [Instance.pinned, hmarked] at unpinned
    cases unpinned

section
variable {r : Runner} {w w' : World} {n : Nat}

theorem nodup_released_collect (hr : r.Lawful) (sound : w.heap.SoundPool) :
    ((((collect r).trace w).filterMap Transition.released?).map InstanceId.index).Nodup := by
  by_cases ready : w.heap.refusal? = none
  · rcases collect_swept hr sound ready with ⟨hnone, _⟩ | ⟨marking, h, sweeping, heq, hnone, swept⟩
    · rw [hnone]
      exact .nil
    · have hreleased : ((collect r).trace w).filterMap Transition.released? =
          sweeping.filterMap Transition.released? := by
        rw [heq, List.filterMap_append, hnone]
        rfl
      rw [hreleased]
      exact (swept.ascending.imp Nat.ne_of_lt).sublist (swept.inOrder.sublist.map _)
  · rw [(collect_refused r ready).2]
    exact .nil

theorem contains_of_released_collect (hr : r.Lawful) (sound : w.heap.SoundPool)
    (keeps : ∀ t ∈ (collect r).trace w, t.unmarks = false) {id : InstanceId}
    (gone : id ∈ ((collect r).trace w).filterMap Transition.released?) :
    w.heap.contains (.ref id) = true := by
  by_cases ready : w.heap.refusal? = none
  · obtain ⟨body, announces, hbody⟩ := hr
    have collecting :=
      collecting_collectNow announces (fun b c args => (hbody b c args).inside) sound
    rw [(collect_ready r ready).1] at gone keeps
    rw [List.filterMap_append] at gone
    have gone : id ∈ ((collectNow r).trace w).filterMap Transition.released? ++ [] := gone
    rw [List.append_nil] at gone
    exact Option.isSome_iff_exists.mpr
      (collecting.old_of_released sound (List.forall_mem_append.mp keeps).1 gone)
  · rw [(collect_refused r ready).2] at gone
    cases gone

/-- The answer of a collection counts the instances that were there when it started or were placed
while it went on, and that are not there when it ends; and only instances of the first kind if no
mark was taken away. -/
theorem collect_answer (hr : r.Lawful) (sound : w.heap.SoundPool)
    (done : (collect r).exec w = (.ok n, w')) :
    ∃ gone : List InstanceId, gone.Nodup ∧ gone.length = n ∧
      (∀ id, id ∈ gone ↔ (w.heap.contains (.ref id) = true ∨
          ∃ t ∈ (collect r).trace w, t.placed? = some id) ∧
        w'.heap.contains (.ref id) = false) ∧
      ((∀ t ∈ (collect r).trace w, t.unmarks = false) →
        ∀ id ∈ gone, w.heap.contains (.ref id) = true) := by
  have path := (collect r).path_of_exec done
  have once := nodup_released_collect hr sound
  exact ⟨((collect r).trace w).filterMap Transition.released?, once.of_map,
    (collect_answers hr sound done).2.2,
    fun id => path.mem_released sound (releases_lt_of_nodup once),
    fun keeps id hid => contains_of_released_collect hr sound keeps hid⟩

end

/-! ## Sessions -/

def Outcome.completed : Outcome → Bool
  | halted _ => false
  | ok _ | refused _ => true

namespace Session

theorem exec_opening (s : Session) :
    ∃ w, s.opening.exec (s.start (Heap.new s.config)) = (.ok (), w) := by
  unfold opening
  split
  · obtain ⟨w, hexec, _⟩ := exec_registerContainers (w := s.start (Heap.new s.config)) rfl
    exact ⟨w, (bind_of_ok hexec _).1⟩
  · exact ⟨_, rfl⟩

theorem reckoned_stepsTrace (s : Session) {r : Runner} (hr : r.Lawful) (steps : List Step) :
    ∀ w : World, Conduct.orderly.pre w.heap →
      (∀ report ∈ (s.runSteps r steps w).1, report.outcome.completed = true) →
      Reckoned (s.stepsTrace r steps w) := by
  induction steps with
  | nil => exact fun _ _ _ => .nil
  | cons step rest ih =>
    intro w start completed
    obtain ⟨here, later⟩ := List.forall_mem_cons.mp completed
    have here : (outcomeOf ((step.run r).run.exec w).1).completed = true := here
    have lawful := lawful_step hr step
    have next : Conduct.orderly.pre (s.runStep r step w).2.heap :=
      Conduct.orderly.keeps (Run.path_trace _ w) start (lawful.orderly w start)
    have first : Reckoned ((step.run r).run.trace w) := by
      rcases hexec : (step.run r).run.exec w with ⟨why | a, w₁⟩
      · rw [hexec] at here
        cases here
      · exact lawful.reckoned start hexec
    exact first.append (ih _ next later)

/-- Instances are conserved, whatever the callbacks do.

Let no step of a session be cut short; the steps of a session are all those up to some point of a
longer one, so the following holds between any two steps.  Every instance ever allocated is there,
or was released by a collection or a teardown: the number of allocations is the number of instances,
plus what was released by collections, plus what teardowns answered.  What the statistics show as
released by collections is what collections answered.  At whatever moment a teardown or a collection
is asked for, inside callbacks too and whether it is refused or not, its part of these sums is its
answer.  And the answer of a collection counts the instances that were there when it started or were
allocated while it went on, and that are not there when it ends; if no mark was taken away meanwhile,
all of them were there when it started. -/
theorem instances_conserved (s : Session) (n : Nat) (valid : s.config.fault? = none)
    (completed : ∀ report ∈ (s.runSteps (.ofDepth n) s.steps s.opened).1,
      report.outcome.completed = true) :
    let past := s.opening.trace (s.start (Heap.new s.config)) ++
      s.stepsTrace (.ofDepth n) s.steps s.opened
    let h := (s.closing (.ofDepth n)).heap
    h.stats.allocations = h.pool.live + h.stats.totalFreed + tornDown past ∧
      h.stats.totalFreed = collected past ∧
      (∀ (w w' : World) (m k : Nat), w.heap ∈ s.moments (.ofDepth n) →
        (teardown (.ofDepth m)).exec w = (.ok k, w') →
        tornDown ((teardown (.ofDepth m)).trace w) = k ∧
          collected ((teardown (.ofDepth m)).trace w) = 0) ∧
      ∀ (w w' : World) (m k : Nat), w.heap ∈ s.moments (.ofDepth n) →
        (collect (.ofDepth m)).exec w = (.ok k, w') →
        collected ((collect (.ofDepth m)).trace w) = k ∧
          tornDown ((collect (.ofDepth m)).trace w) = 0 ∧
          ∃ gone : List InstanceId, gone.Nodup ∧ gone.length = k ∧
            (∀ id, id ∈ gone ↔ (w.heap.contains (.ref id) = true ∨
                ∃ t ∈ (collect (.ofDepth m)).trace w, t.placed? = some id) ∧
              w'.heap.contains (.ref id) = false) ∧
            ((∀ t ∈ (collect (.ofDepth m)).trace w, t.unmarks = false) →
              ∀ id ∈ gone, w.heap.contains (.ref id) = true) := by
  intro past h
  have hr := Runner.lawful_ofDepth n
  have sound := s.soundPool_moments (.ofDepth n) valid
  have start := s.ready_new valid
  have path : Path (Heap.new s.config) past h := s.path_closing (.ofDepth n)
  have reckoned : Reckoned past := by
    obtain ⟨w, hexec⟩ := s.exec_opening
    exact (s.lawful_opening.reckoned start hexec).append
      (s.reckoned_stepsTrace hr s.steps s.opened (s.ready_opened valid) completed)
  have tally := path.tally
  have hallocations : h.stats.allocations = 0 + (past.filterMap Transition.placed?).length :=
    congrArg Prod.fst tally
  have hfreed : h.stats.totalFreed = 0 + collected past := congrArg Prod.snd tally
  have live : h.pool.live + _ = 0 + _ := path.live start.1
  refine ⟨?_, by omega, fun w w' m k hw done => ?_, fun w w' m k hw done => ?_⟩
  · unfold Reckoned at reckoned
    omega
  · obtain ⟨htorn, hcollected, _⟩ := teardown_answers (Runner.lawful_ofDepth m) (sound _ hw) done
    exact ⟨htorn, hcollected⟩
  · obtain ⟨hcollected, htorn, _⟩ := collect_answers (Runner.lawful_ofDepth m) (sound _ hw) done
    exact ⟨hcollected, htorn, collect_answer (Runner.lawful_ofDepth m) (sound _ hw) done⟩

end Session

def ledger : Session where
  containers := false
  steps := [.op (.register "cell" none),
    .install (.index ⟨0⟩) .free "free" [.op .collect, .op .teardown] .nothing,
    .op (.alloc .unit (.index ⟨0⟩)), .op .collect, .op (.alloc .unit (.index ⟨0⟩)),
    .op (.alloc .unit (.index ⟨0⟩)), .op .teardown, .op (.alloc .unit (.index ⟨0⟩))]

theorem Session.instances_conserved_ledger :
    (ledger.closing (.ofDepth 3)).heap.stats.allocations = 4 ∧
      (ledger.closing (.ofDepth 3)).heap.pool.live = 1 ∧
      collected (ledger.opening.trace (ledger.start (Heap.new ledger.config)) ++
        ledger.stepsTrace (.ofDepth 3) ledger.steps ledger.opened) = 1 ∧
      tornDown (ledger.opening.trace (ledger.start (Heap.new ledger.config)) ++
        ledger.stepsTrace (.ofDepth 3) ledger.steps ledger.opened) = 2 := by
  have completed : ∀ report ∈ (ledger.runSteps (.ofDepth 3) ledger.steps ledger.opened).1,
      report.outcome.completed = true := by
    rw [← List.all_eq_true]
    decide +kernel
  obtain ⟨balance, freed, _⟩ := ledger.instances_conserved 3 rfl completed
  have hallocations : (ledger.closing (.ofDepth 3)).heap.stats.allocations = 4 := by decide +kernel
  have hlive : (ledger.closing (.ofDepth 3)).heap.pool.live = 1 := by decide +kernel
  have hfreed : (ledger.closing (.ofDepth 3)).heap.stats.totalFreed = 1 := by decide +kernel
  refine ⟨hallocations, hlive, freed.symm.trans hfreed, ?_⟩
  rw [hallocations, hlive, hfreed] at balance
  omega

/-- A session with an instance on the stack whose mark callback allocates another one and takes the
mark of that one away. -/
def stillborn : Session where
  containers := false
  steps := [.op (.register "cell" none), .op (.register "husk" none),
    .install (.index ⟨0⟩) .mark "mark"
      [.bind "b" (.op (.alloc .unit (.index ⟨1⟩))), .op (.pin .unmark (.var "b"))] .nothing,
    .bind "a" (.op (.alloc .unit (.index ⟨0⟩))), .op (.push (.var "a"))]

/-- A collection counts an instance that was not there when it started: all instances that were
there are still there when it ends, and it answers that it released one. -/
theorem Session.unmarked_newborn_counted :
    ((stillborn.runSteps (.ofDepth 3) stillborn.steps stillborn.opened).1.all
        fun report => report.outcome.completed) = true ∧
      ((collect (.ofDepth 3)).exec (stillborn.closing (.ofDepth 3))).1.toOption = some 1 ∧
      ((stillborn.closing (.ofDepth 3)).heap.pool.namesOf fun _ => true) = [⟨0, 0⟩] ∧
      ((collect (.ofDepth 3)).exec (stillborn.closing (.ofDepth 3))).2.heap.contains
        (.ref ⟨0, 0⟩) = true := by
  decide +kernel

end TracedHeap
