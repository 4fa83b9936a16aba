import TracedHeap.Proofs.Census
import TracedHeap.Proofs.Lending
import TracedHeap.Proofs.Phases

/-!
# Automatic collections are spaced out

An allocation collects first if the number of live instances has reached a threshold.  When such a
collection has come to its end, the threshold is set anew, half the high-water mark above what is
live, and at least to the high-water mark.

* `Heap.headroom`            how many instances can still come before a collection is due;
* `Path.headroom_le`         only what comes takes from it, one each, until it is set anew;
* `collects_allocate_iff`    when an allocation starts a collection;
* `schedule_of_collects`     what such a collection ends with;
* `Session.automatic_spaced` what all this says about the automatic collections of a session.
-/

namespace TracedHeap

open Run

/-! ## The threshold -/

/-- How many instances can still come before a collection is due. -/
def Heap.headroom (h : Heap) : Nat := h.collector.nextCollection - h.pool.live

namespace Transition

def schedules : Transition → Bool
  | ⟨.schedule, _⟩ => true
  | _ => false

variable {t : Transition}

theorem nextCollection_of_schedules (ht : t.schedules = true) :
    t.after.collector.nextCollection =
      max t.before.config.highWaterMark (t.before.pool.live + t.before.config.highWaterMark / 2) := by
  obtain ⟨a, h⟩ := t
  cases a with
  | schedule => rfl
  | _ => cases ht

theorem live_of_schedules (ht : t.schedules = true) : t.after.pool.live = t.before.pool.live := by
  obtain ⟨a, h⟩ := t
  cases a with
  | schedule => rfl
  | _ => cases ht

theorem nextCollection_of_not_schedules (ht : t.schedules = false) :
    t.after.collector.nextCollection = t.before.collector.nextCollection := by
  have hbooks := congrArg Collector.nextCollection t.books
  obtain ⟨a, h⟩ := t
  cases a with
  | schedule => cases ht
  | _ => exact hbooks

theorem highWaterMark_le (reached : t.before.config.highWaterMark ≤ t.before.collector.nextCollection) :
    t.after.config.highWaterMark ≤ t.after.collector.nextCollection := by
  rw [t.keepsTypes.config]
  cases ht : t.schedules with
  | true =>
    rw [nextCollection_of_schedules ht]
    exact Nat.le_max_left _ _
  | false =>
    rw [nextCollection_of_not_schedules ht]
    exact reached

theorem headroom_of_schedules (ht : t.schedules = true) :
    t.before.config.highWaterMark / 2 ≤ t.after.headroom := by
  unfold Heap.headroom
  rw [nextCollection_of_schedules ht, live_of_schedules ht]
  omega

/-- What comes takes one from the headroom; what goes adds to it. -/
theorem headroom_le (sound : t.before.SoundPool) :
    min (t.before.config.highWaterMark / 2) t.before.headroom ≤
      t.after.headroom + if t.placed?.isSome then 1 else 0 := by
  cases ht : t.schedules with
  | true =>
    have fresh := headroom_of_schedules ht
    omega
  | false =>
    have live := t.poolStep.live sound.sound
    unfold Heap.headroom
    rw [nextCollection_of_not_schedules ht]
    omega

end Transition

/-- As long as fewer instances come than half the high-water mark, so much of the headroom is
left. -/
theorem Path.headroom_le {h h' : Heap} {ts : List Transition} (p : Path h ts h')
    (sound : h.SoundPool) :
    min (h.config.highWaterMark / 2) h.headroom ≤
      h'.headroom + (ts.filterMap Transition.placed?).length := by
  induction p with
  | nil => exact Nat.min_le_right _ _
  | @cons t ts _ _ ih =>
    have first := Transition.headroom_le sound
    have rest := ih (t.soundPool sound)
    rw [t.keepsTypes.config] at rest
    simp only [List.length_filterMap_eq_countP, List.countP_cons] at rest ⊢
    omega

theorem Path.highWaterMark_le {c : Config} {h : Heap} {ts : List Transition}
    (p : Path (Heap.new c) ts h) : c.highWaterMark ≤ h.collector.nextCollection := by
  have hmark := (p.invariant (I := fun h => h.config.highWaterMark ≤ h.collector.nextCollection)
    (fun _ _ => Transition.highWaterMark_le) (Nat.le_refl _)).1
  rwa [p.keepsTypes.config] at hmark

/-! ## Allocations that collect -/

/-- The computation starts a collection. -/
def Run.Collects {α : Type} (x : Run α) (w : World) : Prop :=
  ∃ t ∈ x.trace w, t.startsMarking = true

section
variable {r : Runner} {w w' : World} {d : Descriptor} {p : Payload}

theorem collects_collect (ready : w.heap.refusal? = none) : (collect r).Collects w := by
  have start := bind_of_ok (exec_act .startMarking w) fun _ => do
    drain r r.rounds
    sweepNow r
  refine ⟨⟨.startMarking, w.heap⟩, ?_, rfl⟩
  rw [(collect_ready r ready).1, collectNow_eq, start.2]
  exact List.mem_append_left _ List.mem_cons_self

theorem collects_bind {α β : Type} {x : Run α} (h : x.Collects w) (next : α → Run β) :
    (x >>= next).Collects w := by
  obtain ⟨t, ht, starts⟩ := h
  rw [Run.Collects, trace_bind]
  exact ⟨t, List.mem_append_left _ ht, starts⟩

/-- An allocation starts a collection if the type is known and a collection is due, and not
otherwise. -/
theorem collects_allocate_iff :
    (allocate r d p).run.Collects w ↔
      d.index < w.heap.registry.size ∧ w.heap.collectionDue = true := by
  rcases Nat.lt_or_ge d.index w.heap.registry.size with known | unknown
  · rw [Run.Collects, (allocate_of_known known).1, and_iff_right known]
    constructor
    · rintro ⟨t, ht, starts⟩
      by_contra hdue
      obtain ⟨hexec, htrace⟩ := collectIfDue_of_not_due r (Bool.eq_false_iff.mpr hdue)
      rw [(allocateNow_of_ok hexec).1, htrace, List.nil_append, List.mem_singleton] at ht
      subst ht
      cases starts
    · intro due
      have collects := collects_bind (collects_collect (r := r) (Heap.collectionDue_iff.mp due).2.2)
        fun _ => act .schedule
      rw [Run.Collects, ← (collectIfDue_of_due r due).2] at collects
      exact collects_bind collects _
  · rw [Run.Collects, (allocate_of_unknown unknown).1]
    constructor
    · rintro ⟨t, ht, _⟩
      cases ht
    · rintro ⟨known, _⟩
      exact absurd known (Nat.not_lt.mpr unknown)

/-- An allocation that starts a collection and comes to its end sets the threshold when the
collection is over, and then places its instance. -/
theorem schedule_of_collects {ended : Except Error Value}
    (collects : (allocate r d p).run.Collects w)
    (done : (allocate r d p).run.exec w = (.ok ended, w')) :
    ∃ h, (allocate r d p).run.trace w =
      (collect r).trace w ++ [⟨.schedule, h⟩, ⟨.place d p, h.schedule⟩] := by
  obtain ⟨known, due⟩ := collects_allocate_iff.mp collects
  obtain ⟨hrun, htrace⟩ := collectIfDue_of_due r due
  obtain ⟨htrace', hrun'⟩ := allocate_of_known (r := r) (p := p) known
  rw [hrun', Attempt.exec_lift] at done
  rcases hexec : (collect r).exec w with ⟨why | n, w₁⟩
  · rw [(bind_of_error hexec _).1] at hrun
    rw [(allocateNow_of_error hrun).2] at done
    cases done
  · obtain ⟨hend, htrace₁⟩ := bind_of_ok hexec fun _ => act .schedule
    rw [hend] at hrun
    refine ⟨w₁.heap, ?_⟩
    rw [htrace', (allocateNow_of_ok hrun).1, htrace, htrace₁, List.append_assoc]
    rfl

end

/-! ## Sessions -/

/-- In 64 bits the sum does not wrap round, since the instances are counted in 32. -/
theorem toNat_threshold {mark live : Nat} (hmark : mark < UInt64.size) (hlive : live < UInt32.size) :
    (UInt64.ofNat live + UInt64.ofNat mark / 2).toNat = live + mark / 2 := by
  rw [UInt64.toNat_add, UInt64.toNat_div, UInt64.toNat_ofNat', UInt64.toNat_ofNat']
  unfold UInt64.size at hmark
  unfold UInt32.size at hlive
  show (live % _ + mark % _ / 2) % _ = _
  omega

/-- Automatic collections are spaced out, whatever else happens and whatever callbacks do.

Let an allocation start a collection after the transitions `past` of a session.  Then the number of
live instances has reached the high-water mark.  No collection or teardown is under way: what has
begun has stopped, the collector is idle, and no payload is in use.  And since any automatic
collection that has come to its end, at least half as many instances as the high-water mark have
come.  Such a collection ends with the setting of the threshold, after which the instance that it
was started for is placed, so this instance is one of them.  The threshold is computed in 64 bits
without wrapping round, if there are fewer than 2 ^ 32 instances. -/
theorem Session.automatic_spaced (s : Session) (n : Nat) (valid : s.config.fault? = none) :
    (∀ (past rest : List Transition) (w : World) (m : Nat) (d : Descriptor) (p : Payload),
      s.history (.ofDepth n) = past ++ rest → Path (Heap.new s.config) past w.heap →
      (allocate (.ofDepth m) d p).run.Collects w →
      s.config.highWaterMark ≤ w.heap.pool.live ∧
      (∀ earlier t since, past = earlier ++ t :: since → t.begins = true →
        ∃ u ∈ since, u.stops = true) ∧
      w.heap.Quiet ∧
      ∀ earlier f since, past = earlier ++ f :: since → f.schedules = true →
        s.config.highWaterMark / 2 ≤ (since.filterMap Transition.placed?).length) ∧
    (∀ (w w' : World) (m : Nat) (d : Descriptor) (p : Payload) (ended : Except Error Value),
      (allocate (.ofDepth m) d p).run.Collects w →
      (allocate (.ofDepth m) d p).run.exec w = (.ok ended, w') →
      ∃ h, (allocate (.ofDepth m) d p).run.trace w =
        (collect (.ofDepth m)).trace w ++ [⟨.schedule, h⟩, ⟨.place d p, h.schedule⟩]) ∧
    ∀ f ∈ s.history (.ofDepth n), f.schedules = true → s.config.highWaterMark < UInt64.size →
      f.before.pool.live < UInt32.size →
      f.after.collector.nextCollection < UInt64.size ∧
      f.after.collector.nextCollection = max s.config.highWaterMark
        (UInt64.ofNat f.before.pool.live + UInt64.ofNat s.config.highWaterMark / 2).toNat := by
  have start := Heap.soundPool_new valid
  refine ⟨fun past rest w m d p heq path collects => ?_, fun w w' m d p ended => schedule_of_collects,
    fun f hf schedules hmark hlive => ?_⟩
  · obtain ⟨_, due⟩ := collects_allocate_iff.mp collects
    obtain ⟨_, reached, ready⟩ := Heap.collectionDue_iff.mp due
    refine ⟨Nat.le_trans path.highWaterMark_le reached, fun earlier t since hpast => ?_, ?_, ?_⟩
    · exact path.stops_of_idle (Heap.refusal?_eq_none_iff.mp ready).1 hpast
    · exact s.quiet_moments (Runner.lawful_ofDepth n) valid w.heap (mem_moments heq path) ready
    · rintro earlier f since rfl schedules
      obtain ⟨_, hearlier, hsince⟩ := path.split
      cases hsince with
      | cons _ hsince =>
        have sound := hearlier.soundPool start
        have fresh := Transition.headroom_of_schedules schedules
        have left := hsince.headroom_le (f.soundPool sound)
        have none : w.heap.headroom = 0 := Nat.sub_eq_zero_of_le reached
        rw [f.keepsTypes.config] at left
        have hconfig : f.before.config.highWaterMark = s.config.highWaterMark :=
          congrArg Config.highWaterMark hearlier.keepsTypes.config
        omega
  · obtain ⟨past, rest, heq⟩ := List.append_of_mem hf
    have hconfig : f.before.config = s.config := (path_before heq).keepsTypes.config
    rw [Transition.nextCollection_of_schedules schedules, hconfig, toNat_threshold hmark hlive]
    refine ⟨?_, rfl⟩
    unfold UInt64.size at hmark ⊢
    unfold UInt32.size at hlive
    omega

/-- A session with a high-water mark of four.  The fifth allocation collects, and the free callback
of cells allocates a husk for each of the four cells that are released.  Two instances have come since
then, one of them while automatic collection was turned off. -/
def steadyCells : Session where
  config := { highWaterMark := 4 }
  containers := false
  steps := [.op (.register "husk" none), .op (.register "cell" none),
    .install (.index ⟨1⟩) .free "free" [.op (.alloc .unit (.index ⟨0⟩))] .nothing,
    .op (.alloc .unit (.index ⟨1⟩)), .op (.alloc .unit (.index ⟨1⟩)),
    .op (.alloc .unit (.index ⟨1⟩)), .op (.alloc .unit (.index ⟨1⟩)),
    .op (.alloc .unit (.index ⟨1⟩)), .op (.setCollectionEnabled false),
    .op (.alloc .unit (.index ⟨1⟩)), .op (.setCollectionEnabled true)]

theorem Session.automatic_spaced_steadyCells :
    let w := steadyCells.closing (.ofDepth 3)
    ∃ earlier f since,
      steadyCells.opening.trace (steadyCells.start (Heap.new steadyCells.config)) ++
        steadyCells.stepsTrace (.ofDepth 3) steadyCells.steps steadyCells.opened =
          earlier ++ f :: since ∧
      f.schedules = true ∧ (allocate (.ofDepth 3) ⟨1⟩ .unit).run.Collects w ∧
      4 ≤ w.heap.pool.live ∧ w.heap.Quiet ∧ 2 ≤ (since.filterMap Transition.placed?).length ∧
      f.before.pool.live = 4 ∧ f.after.collector.nextCollection = 6 := by
  intro w
  let past := steadyCells.opening.trace (steadyCells.start (Heap.new steadyCells.config)) ++
    steadyCells.stepsTrace (.ofDepth 3) steadyCells.steps steadyCells.opened
  have hlength : 24 < past.length := by decide +kernel
  obtain ⟨schedules, hlive⟩ : (past.get ⟨24, hlength⟩).schedules = true ∧
      (past.get ⟨24, hlength⟩).before.pool.live = 4 := by decide +kernel +revert
  have hcut : past = past.take 24 ++ past.get ⟨24, hlength⟩ :: past.drop 25 := by
    rw [List.get_eq_getElem, List.getElem_cons_drop, List.take_append_drop]
  have collects : (allocate (.ofDepth 3) ⟨1⟩ .unit).run.Collects w :=
    collects_allocate_iff.mpr ⟨by decide +kernel, by decide +kernel⟩
  have heq : steadyCells.history (.ofDepth 3) = past ++ (teardown (.ofDepth 3)).trace w :=
    (List.append_assoc _ _ _).symm
  obtain ⟨spaced, _, threshold⟩ := steadyCells.automatic_spaced 3 rfl
  obtain ⟨reached, _, quiet, apart⟩ :=
    spaced past _ w 3 ⟨1⟩ .unit heq (steadyCells.path_closing _) collects
  have there : past.get ⟨24, hlength⟩ ∈ steadyCells.history (.ofDepth 3) := by
    rw [heq]
    exact List.mem_append_left _ (List.get_mem _ _)
  obtain ⟨_, hnext⟩ := threshold _ there schedules (by decide) (by rw [hlive]; decide)
  rw [hlive] at hnext
  exact ⟨_, _, _, hcut, schedules, collects, reached, quiet, apart _ _ _ hcut schedules, hlive,
    hnext⟩

end TracedHeap
