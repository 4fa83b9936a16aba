import TracedHeap.Proofs.FreeList
import TracedHeap.Proofs.Typing

/-!
# The pool at every moment of a session

* `Heap.PoolInvariant`   what the free list, the counters, the statistics, the instances, the latch
                         and the capacity have to do with one another;
* `Session.poolInvariant_moments`
                         all of this at every moment of every session: between two actions of an
                         operation, inside callbacks, and after an abort.
-/

namespace TracedHeap

namespace Pool

/-! ## Instances one by one -/

def AllSound (known : Descriptor → Prop) (p : Pool) : Prop :=
  ∀ i x, p.occupant? i = some x → x.Sound known

section
variable {known : Descriptor → Prop} {p q : Pool}

theorem AllSound.mono {more : Descriptor → Prop} (h : p.AllSound known)
    (le : ∀ d, known d → more d) : p.AllSound more :=
  fun i x hx => ⟨le _ (h i x hx).known, (h i x hx).protected_iff⟩

theorem AllSound.edit (h : p.AllSound known) (e : p.Edited q) : q.AllSound known := by
  intro i y hy
  obtain ⟨t, ht, hty⟩ := occupant?_eq_some_iff.mp hy
  have hi : i < p.slots.size := by
    rw [← e.size]
    exact (Array.getElem?_eq_some_iff.mp ht).1
  obtain ⟨t', ht', hst⟩ := e.slots (Array.getElem?_eq_getElem hi)
  obtain rfl : t = t' := Option.some.inj (ht.symm.trans ht')
  have ho := hst.occupant
  rw [hty] at ho
  cases hx : p.slots[i].occupant with
  | none =>
    rw [hx] at ho
    cases ho
  | some x =>
    rw [hx] at ho
    cases ho with
    | some hxy =>
      exact hxy.sound (h i x (occupant?_eq_some_iff.mpr ⟨_, Array.getElem?_eq_getElem hi, hx⟩))

theorem AllSound.place {d : Descriptor} (h : p.AllSound known) (increment : Nat)
    (hd : known d) (c : Payload) : (p.place increment d c).2.AllSound known := by
  intro i y hy
  obtain ⟨s, hs, hsy⟩ := occupant?_eq_some_iff.mp hy
  by_cases hi : i = (p.place increment d c).1.index
  · obtain ⟨u, hu, _⟩ := p.getElem?_place_self increment d c
    rw [hi, hu] at hs
    cases hs
    cases hsy
    exact ⟨hd, by simp [Slot.occupy]⟩
  · rw [p.getElem?_place_of_ne increment d c hi] at hs
    exact h i y (occupant?_eq_some_iff.mpr ⟨s, hs, hsy⟩)

theorem AllSound.evict {i : Nat} {x : Instance} (h : p.AllSound known)
    (he : p.evict i = some (x, q)) : q.AllSound known := by
  intro j y hy
  obtain ⟨s, hs, hsy⟩ := occupant?_eq_some_iff.mp hy
  by_cases hj : j = i
  · obtain ⟨_, _, _, hself⟩ := getElem?_evict_self he
    rw [hj, hself] at hs
    cases hs
    cases hsy
  · rw [getElem?_evict_of_ne he hj] at hs
    exact h j y (occupant?_eq_some_iff.mpr ⟨s, hs, hsy⟩)

theorem Step.allSound {increment : Nat} {placed released : Option InstanceId}
    (t : Step increment known placed released p q) (h : p.AllSound known) : q.AllSound known := by
  cases t with
  | edit e => exact h.edit e
  | recycle _ threshold => exact h
  | place hd e => exact (h.place increment hd _).edit e
  | evict _ he => exact h.evict he

end

theorem length_instances (p : Pool) :
    p.instances.length = p.slots.toList.countP fun s => s.occupant.isSome := by
  have hnamed : ∀ e : Slot × Nat, (e.1.named e.2).isSome = e.1.occupant.isSome :=
    fun e => Option.isSome_map
  rw [instances, List.length_filterMap_eq_countP]
  simp only [hnamed]
  conv_rhs => rw [← List.zipIdx_map_fst 0 p.slots.toList, List.countP_map]
  rfl

end Pool

/-! ## The invariant -/

/-- How the parts of a pool, the types and the statistics fit together. -/
structure Heap.PoolInvariant (h : Heap) : Prop where
  /-- Going along the free list meets the freed slots, each once, and as many as are counted. -/
  free : ∃ l, h.pool.FreeList l
  live : h.pool.live = h.pool.slots.toList.countP fun s => s.occupant.isSome
  count : h.pool.live + h.pool.freeLen = h.pool.issued
  stats : h.stats.live = h.pool.live ∧ h.stats.freed = h.pool.freeLen ∧
    h.stats.poolSize = h.pool.issued ∧ h.stats.capacity = h.pool.capacity
  /-- A freed slot has no type and no payload, and its header is blank; what it keeps is its
  generation and its place in the free list. -/
  freed : ∀ i s, h.pool.slots[i]? = some s → h.pool.occupant? i = none →
    s.content = none ∧ s.header = {}
  registered : ∀ i x, h.pool.occupant? i = some x → x.descriptor.index < h.registry.size
  protected_iff : ∀ i x, h.pool.occupant? i = some x →
    (x.isProtected = true ↔ x.protections ≠ 0)
  latch : h.pool.recycling = true → 0 < h.pool.freeLen
  capacity : IsLeast {m | h.config.poolIncrement ∣ m ∧ h.pool.issued ≤ m} h.pool.capacity

/-- The part of the invariant that each transition hands on to the next. -/
structure Heap.Consistent (h : Heap) : Prop extends h.SoundPool where
  allSound : h.pool.AllSound fun d => d.index < h.registry.size

theorem Heap.Consistent.poolInvariant {h : Heap} (c : h.Consistent) : h.PoolInvariant where
  free := c.sound.free
  live := by rw [c.sound.live_eq, h.pool.length_instances]
  count := c.sound.count
  stats := by
    have hlive := c.sound.live_eq
    have hcount := c.sound.count
    refine ⟨hlive.symm, ?_, rfl, rfl⟩
    show h.pool.issued - h.pool.instances.length = h.pool.freeLen
    omega
  freed i s hs hempty := by
    have hcontent : s.content = none := by
      rw [Pool.occupant?, hs] at hempty
      exact Option.map_eq_none_iff.mp hempty
    exact ⟨hcontent, s.clean hcontent⟩
  registered i x hx := (c.allSound i x hx).known
  protected_iff i x hx := (c.allSound i x hx).protected_iff
  latch hr := c.sound.freeLen_pos (c.sound.latch hr)
  capacity := c.sound.capacity

theorem Heap.consistent_new {c : Config} (valid : c.fault? = none) : (Heap.new c).Consistent where
  toSoundPool := soundPool_new valid
  allSound i x hx := by
    obtain ⟨s, hs, _⟩ := Pool.occupant?_eq_some_iff.mp hx
    exact absurd hs (by simp [Heap.new])

theorem Transition.consistent {t : Transition} (typed : t.Typed) (c : t.before.Consistent) :
    t.after.Consistent where
  toSoundPool := t.soundPool c.toSoundPool
  allSound := ((t.step typed).allSound c.allSound).mono fun _ hd =>
    Nat.lt_of_lt_of_le hd t.keepsTypes.size

/-- At every moment of a session the pool is as it should be, whatever the scripts of its callbacks
do and wherever they are cut short.  The counters of instances and of freed slots are therefore
never counted down from zero. -/
theorem Session.poolInvariant_moments (s : Session) (n : Nat) (valid : s.config.fault? = none) :
    (∀ h ∈ s.moments (.ofDepth n), h.PoolInvariant) ∧
      ∀ t ∈ s.history (.ofDepth n),
        (t.released? ≠ none → 0 < t.before.pool.live) ∧
        (t.placed? ≠ none → t.before.pool.recycling = true → 0 < t.before.pool.freeLen) := by
  have start := Heap.consistent_new valid
  obtain ⟨_, path⟩ := s.path_history (.ofDepth n)
  have along := (path.invariant (fun t ht => Transition.consistent
    (s.typed_history (Runner.lawful_ofDepth n) t ht)) start).2
  refine ⟨fun h hh => ?_, fun t ht => ⟨fun hr => ?_, fun _ hr => ?_⟩⟩
  · rcases List.mem_cons.mp hh with rfl | hh
    · exact start.poolInvariant
    · obtain ⟨t, ht, rfl⟩ := List.mem_map.mp hh
      exact (along t ht).2.poolInvariant
  · obtain ⟨id, hid⟩ := Option.ne_none_iff_exists'.mp hr
    have step := t.step (s.typed_history (Runner.lawful_ofDepth n) t ht)
    rw [hid] at step
    obtain ⟨x, hx, _⟩ := step.of_released
    exact (along t ht).1.sound.live_pos (Pool.occupant?_of_get? hx)
  · exact (along t ht).1.poolInvariant.latch hr

/-- A session whose free callback allocates and asks for a collection in the middle of one; then a
slot is used again, and the script is aborted. -/
def refilledSlot : Session where
  config := { reuseThreshold := 1 }
  containers := false
  steps := [.op (.register "cell" none),
    .install (.index ⟨0⟩) .free "free" [.op (.alloc .unit (.index ⟨0⟩)), .op .collect] .nothing,
    .op (.alloc .unit (.index ⟨0⟩)), .op .collect, .op (.alloc .unit (.index ⟨0⟩)),
    .op (.abort "stop")]

theorem Session.poolInvariant_moments_refilledSlot :
    refilledSlot.config.fault? = none ∧
      (refilledSlot.history (.ofDepth 3)).filterMap Transition.placed? =
        [⟨0, 0⟩, ⟨1, 0⟩, ⟨0, 1⟩, ⟨2, 0⟩, ⟨3, 0⟩] ∧
      (refilledSlot.history (.ofDepth 3)).filterMap Transition.released? =
        [⟨0, 0⟩, ⟨0, 1⟩, ⟨1, 0⟩] ∧
      (∀ h ∈ refilledSlot.moments (.ofDepth 3), h.PoolInvariant) ∧
      ∀ t ∈ refilledSlot.history (.ofDepth 3), t.released? ≠ none → 0 < t.before.pool.live := by
  obtain ⟨invariant, counted⟩ := refilledSlot.poolInvariant_moments 3 rfl
  exact ⟨rfl, by decide +kernel, by decide +kernel, invariant, fun t ht => (counted t ht).1⟩

end TracedHeap
