import TracedHeap.Proofs.Census

/-!
# What a teardown leaves

A teardown fixes the list of the instances it releases before the first free callback runs.  So it
releases what was there when it started, and leaves what its free callbacks allocate.

* `teardown_released`   a teardown that comes to its end releases every instance there was;
* `teardown_left`       and what is left is what was placed meanwhile;
* `Session.teardown_leaves_newcomers`
                        this at every moment of a session, and what it means for the instances ever
                        allocated when the heap is given up;
* `Session.newcomer_left`
                        an instance that a free callback allocates is never released.
-/

namespace TracedHeap

open Run

section
variable {r : Runner} {w w' : World} {n : Nat}

/-- A teardown that comes to its end releases every instance there was, and tells how many. -/
theorem teardown_released (hr : r.Lawful) (sound : w.heap.SoundPool)
    (ready : w.heap.refusal? = none) (done : (teardown r).exec w = (.ok n, w')) :
    ((teardown r).trace w).filterMap Transition.released? = (w.heap.pool.namesOf fun _ => true) ∧
      n = w.heap.pool.live := by
  obtain ⟨body, announces, hbody⟩ := hr
  obtain ⟨htrace, hended, _⟩ := teardown_ready r ready
  obtain ⟨us, left, hnow, releasing, complete⟩ := releasing_teardownNow announces
    (fun b c args => (hbody b c args).inside) sound
  have hok : ((teardownNow r).exec w).1 = .ok n := by rw [← hended, done]
  obtain ⟨rfl, hn⟩ := complete n hok
  constructor
  · rw [htrace, hnow, List.filterMap_append, releasing.released]
    rfl
  · rw [hn, w.heap.pool.length_namesOf_true, sound.sound.live_eq]

theorem mem_released_teardown (hr : r.Lawful) (sound : w.heap.SoundPool)
    (ready : w.heap.refusal? = none) (done : (teardown r).exec w = (.ok n, w')) (id : InstanceId) :
    (∃ t ∈ (teardown r).trace w, t.released? = some id) ↔ w.heap.contains (.ref id) = true := by
  rw [← List.mem_filterMap, (teardown_released hr sound ready done).1, Pool.mem_namesOf]
  simp only [and_true]
  exact Option.isSome_iff_exists.symm

/-- What is there after a teardown is what was placed while it went on. -/
theorem teardown_left (hr : r.Lawful) (sound : w.heap.SoundPool) (ready : w.heap.refusal? = none)
    (done : (teardown r).exec w = (.ok n, w')) :
    (∀ id, w'.heap.contains (.ref id) = true ↔
        ∃ t ∈ (teardown r).trace w, t.placed? = some id) ∧
      w'.heap.pool.live = (((teardown r).trace w).filterMap Transition.placed?).length := by
  have path := (teardown r).path_of_exec done
  obtain ⟨hall, _⟩ := teardown_released hr sound ready done
  have released := mem_released_teardown hr sound ready done
  have few : ∀ i, releases ((teardown r).trace w) i < UInt32.size := by
    refine releases_lt_of_nodup ?_
    rw [hall]
    exact w.heap.pool.nodup_index_namesOf _
  refine ⟨fun id => ?_, ?_⟩
  · rw [path.contains_end sound few]
    constructor
    · rintro ⟨here | placed, kept⟩
      · obtain ⟨t, ht, gone⟩ := (released id).mpr here
        exact absurd gone (kept t ht)
      · exact placed
    · rintro ⟨t, ht, placed⟩
      refine ⟨Or.inr ⟨t, ht, placed⟩, fun u hu gone => ?_⟩
      -- what is released was there at the start, so its name is not given again
      have here := (released id).mp ⟨u, hu, gone⟩
      exact path.placed?_ne sound (few id.index) (Option.isSome_iff_exists.mp here) t ht placed
  · have balance := path.live sound
    rw [hall, Pool.length_namesOf_true, ← sound.sound.live_eq] at balance
    omega

end

namespace Session

theorem ready_new (s : Session) (valid : s.config.fault? = none) :
    Conduct.orderly.pre (Heap.new s.config) :=
  ⟨Heap.soundPool_new valid, Heap.refusal?_new s.config⟩

theorem ready_opened (s : Session) (valid : s.config.fault? = none) :
    Conduct.orderly.pre s.opened.heap :=
  Conduct.orderly.keeps (Run.path_trace _ _) (s.ready_new valid)
    (s.lawful_opening.orderly _ (s.ready_new valid))

theorem ready_closing (s : Session) {r : Runner} (hr : r.Lawful) (valid : s.config.fault? = none) :
    Conduct.orderly.pre (s.closing r).heap := by
  have opened := s.ready_opened valid
  have steps := s.follows_stepsTrace (fun step => (lawful_step hr step).orderly) s.steps s.opened
    opened
  exact Conduct.orderly.keeps (s.path_stepsTrace r s.steps s.opened) opened steps

theorem path_history_end (s : Session) (r : Runner) :
    Path (Heap.new s.config) (s.history r) ((teardown r).exec (s.closing r)).2.heap := by
  unfold history
  rw [← List.append_assoc]
  exact (s.path_closing r).append ((teardown r).path_trace (s.closing r))

/-- An instance that is placed and is not there at the end is released in between, and the free
callback that its type has then starts next, with its payload. -/
theorem released_of_not_contains (s : Session) {r : Runner} (hr : r.Lawful)
    (valid : s.config.fault? = none) {past rest : List Transition} {t : Transition}
    {id : InstanceId} (heq : s.history r = past ++ t :: rest) (placed : t.placed? = some id)
    (gone : ((teardown r).exec (s.closing r)).2.heap.contains (.ref id) = false) :
    ∃ mid u later x, rest = mid ++ u :: later ∧ u.released? = some id ∧
      u.before.pool.get? id = some x ∧
      later.head?.bind Transition.starts? =
        (u.after.registry.callback? x.descriptor .free).map fun c => (c, x.payload) := by
  have path := s.path_history_end r
  have leads := s.orderly_history hr valid
  rw [heq] at path leads
  obtain ⟨_, before, after⟩ := path.split
  have sound := before.soundPool (Heap.soundPool_new valid)
  cases after with
  | cons _ after =>
    have step := t.poolStep
    rw [placed] at step
    have there := (step.of_placed sound.sound).2.1
    have hreleased : ∃ u ∈ rest, u.released? = some id := by
      by_contra kept
      have kept : ∀ u ∈ rest, u.released? ≠ some id := fun u hu hid => kept ⟨u, hu, hid⟩
      have still := Option.isSome_iff_exists.mpr (after.contains (t.soundPool sound) there kept)
      cases gone.symm.trans still
    obtain ⟨u, hu, hid⟩ := hreleased
    obtain ⟨mid, later, rfl⟩ := List.append_of_mem hu
    obtain ⟨x, hx, _, hcalls⟩ := Transition.calls?_of_released hid
    refine ⟨mid, u, later, x, rfl, hid, hx, ?_⟩
    rw [← hcalls]
    have split : past ++ t :: (mid ++ u :: later) = (past ++ t :: mid) ++ u :: later := by simp
    rw [split] at leads
    exact leads.calls rfl

/-- A teardown leaves what its free callbacks allocate, and nothing else, whatever they do besides.

On a heap of a session on which no collection and no use of a payload goes on, a teardown that comes
to its end tells how many instances there were.  It releases just these, and what is there
afterwards are the instances placed meanwhile; the number of instances is then the number of
placements, so it is zero just if no free callback allocates.

The teardown that ends a session makes no exception.  If it comes to its end, an instance that was
placed at any moment `t` of the session was either placed by this very teardown, and is still there;
or it was released after `t`, and the transition that followed the release started the free callback
that the type of the instance had then, if it had one, with the payload of the instance. -/
theorem teardown_leaves_newcomers (s : Session) (n : Nat) (valid : s.config.fault? = none) :
    (∀ (w w' : World) (m k : Nat), w.heap ∈ s.moments (.ofDepth n) → w.heap.refusal? = none →
        (teardown (.ofDepth m)).exec w = (.ok k, w') →
        k = w.heap.pool.live ∧
          (∀ id, (∃ t ∈ (teardown (.ofDepth m)).trace w, t.released? = some id) ↔
            w.heap.contains (.ref id) = true) ∧
          (∀ id, w'.heap.contains (.ref id) = true ↔
            ∃ t ∈ (teardown (.ofDepth m)).trace w, t.placed? = some id) ∧
          w'.heap.pool.live =
            (((teardown (.ofDepth m)).trace w).filterMap Transition.placed?).length) ∧
      ∀ (w' : World) (k : Nat),
        (teardown (.ofDepth n)).exec (s.closing (.ofDepth n)) = (.ok k, w') →
        ∀ (past rest : List Transition) (t : Transition) (id : InstanceId),
          s.history (.ofDepth n) = past ++ t :: rest → t.placed? = some id →
          (w'.heap.contains (.ref id) = true ∧
              ∃ u ∈ (teardown (.ofDepth n)).trace (s.closing (.ofDepth n)),
                u.placed? = some id) ∨
            ∃ mid u later x, rest = mid ++ u :: later ∧ u.released? = some id ∧
              u.before.pool.get? id = some x ∧
              later.head?.bind Transition.starts? =
                (u.after.registry.callback? x.descriptor .free).map fun c => (c, x.payload) := by
  constructor
  · intro w w' m k hw ready done
    have hr := Runner.lawful_ofDepth m
    have sound := s.soundPool_moments _ valid _ hw
    exact ⟨(teardown_released hr sound ready done).2, mem_released_teardown hr sound ready done,
      teardown_left hr sound ready done⟩
  · intro w' k done past rest t id heq placed
    have hr := Runner.lawful_ofDepth n
    obtain ⟨sound, ready⟩ := s.ready_closing hr valid
    cases there : w'.heap.contains (.ref id) with
    | true => exact Or.inl ⟨rfl, ((teardown_left hr sound ready done).1 id).mp there⟩
    | false =>
      refine Or.inr (s.released_of_not_contains hr valid heq placed ?_)
      rw [done]
      exact there

end Session

def bequest : Session where
  containers := false
  steps := [.op (.register "cell" none), .op (.register "husk" none),
    .install (.index ⟨0⟩) .free "free" [.op (.alloc .unit (.index ⟨1⟩))] .nothing,
    .op (.alloc .unit (.index ⟨0⟩))]

theorem Session.teardown_leaves_newcomers_bequest :
    ∃ w', (teardown (.ofDepth 3)).exec (bequest.closing (.ofDepth 3)) = (.ok 1, w') ∧
      w'.heap.pool.live = 1 ∧ w'.heap.contains (.ref ⟨0, 0⟩) = false ∧
      ∀ id, w'.heap.contains (.ref id) = true ↔
        ∃ t ∈ (teardown (.ofDepth 3)).trace (bequest.closing (.ofDepth 3)),
          t.placed? = some id := by
  obtain ⟨teardowns, _⟩ := bequest.teardown_leaves_newcomers 3 rfl
  have hended : ((teardown (.ofDepth 3)).exec (bequest.closing (.ofDepth 3))).1.toOption =
      some 1 := by decide +kernel
  have ready : (bequest.closing (.ofDepth 3)).heap.refusal? = none := by decide +kernel
  have hplaced : ((teardown (.ofDepth 3)).trace (bequest.closing (.ofDepth 3))).filterMap
      Transition.placed? = [⟨1, 0⟩] := by decide +kernel
  rcases hexec : (teardown (.ofDepth 3)).exec (bequest.closing (.ofDepth 3)) with ⟨why | k, w'⟩
  · rw [hexec] at hended
    cases hended
  · rw [hexec] at hended
    cases hended
    obtain ⟨_, _, left, live⟩ :=
      teardowns _ w' 3 1 (bequest.closing_mem_moments _) ready hexec
    rw [hplaced] at live
    refine ⟨w', rfl, live, Bool.eq_false_iff.mpr fun there => ?_, left⟩
    have hmem := List.mem_filterMap.mpr ((left _).mp there)
    rw [hplaced] at hmem
    exact absurd hmem (by decide)

/-- An instance is left by a teardown that comes to its end: the free callback of another one
allocated it.  It is never released. -/
theorem Session.newcomer_left :
    (bequest.closing (.ofDepth 3)).heap.refusal? = none ∧
      ((teardown (.ofDepth 3)).exec (bequest.closing (.ofDepth 3))).1.toOption = some 1 ∧
      ((teardown (.ofDepth 3)).exec (bequest.closing (.ofDepth 3))).2.heap.pool.live = 1 ∧
      some ⟨1, 0⟩ ∈ (bequest.history (.ofDepth 3)).map Transition.placed? ∧
      some ⟨1, 0⟩ ∉ (bequest.history (.ofDepth 3)).map Transition.released? := by
  decide +kernel

end TracedHeap
