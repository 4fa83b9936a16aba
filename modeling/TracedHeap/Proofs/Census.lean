import Mathlib.Algebra.GroupWithZero.Nat
import TracedHeap.Proofs.Release

/-!
# Counting instances

What comes into the pool and what goes out of it, counted along a path.

* `Path.live`          the instances at the end and the releases are as many as the instances at the
                       start and the placements;
* `Transition.books`   what a transition writes into the books of the collector;
* `Path.tally`         the statistics count the placements, and what collections say they released;
* `Path.contains_end`  what is there at the end was there or was placed, and was not released;
* `Path.mem_released`  what was released was there or was placed, and is not there at the end.

The last two hold if no slot is released so often that its generations go round.  A single sweep
releases every slot once at most (`releases_lt_of_nodup`).
-/

namespace TracedHeap

/-! ## Instances -/

theorem Pool.live_place (p : Pool) (increment : Nat) (d : Descriptor) (c : Payload) :
    (p.place increment d c).2.live = p.live + 1 := by
  rcases p.place_cases increment d c with heq | ⟨_, _, _, _, _, heq⟩ <;> rw [heq] <;> rfl

theorem Pool.live_evict {p q : Pool} {i : Nat} {x : Instance} (h : p.evict i = some (x, q)) :
    q.live = p.live - 1 := by
  unfold evict at h
  cases hx : p.occupant? i with
  | none =>
    rw [hx] at h
    cases h
  | some y =>
    rw [hx] at h
    cases h
    rfl

theorem Pool.Step.live {increment : Nat} {known : Descriptor → Prop}
    {placed released : Option InstanceId} {p q : Pool}
    (t : Step increment known placed released p q) (sound : p.Sound increment) :
    q.live + (if released.isSome then 1 else 0) = p.live + if placed.isSome then 1 else 0 := by
  cases t with
  | edit e => exact e.live
  | recycle _ threshold => rfl
  | @place _ _ d c _ e => exact e.live.trans (p.live_place increment d c)
  | @evict _ _ id x hx he =>
    have hpos := sound.live_pos (occupant?_of_get? hx)
    have hevict := live_evict he
    show q.live + 1 = p.live
    omega

/-- The instances at the end of a path and the releases on it are as many as the instances at its
start and the placements on it. -/
theorem Path.live {h h' : Heap} {ts : List Transition} (p : Path h ts h') (sound : h.SoundPool) :
    h'.pool.live + (ts.filterMap Transition.released?).length =
      h.pool.live + (ts.filterMap Transition.placed?).length := by
  induction p with
  | nil => rfl
  | @cons t ts _ _ ih =>
    have step := t.poolStep.live sound.sound
    have rest := ih (t.soundPool sound)
    simp only [List.length_filterMap_eq_countP, List.countP_cons] at rest ⊢
    omega

/-! ## Statistics -/

/-- What a collection that ends with a transition says it has released. -/
def Transition.freed : Transition → Nat
  | ⟨.finishCollection n, _⟩ => n
  | _ => 0

/-- The books of a collector: all of it but for what it is doing at the moment. -/
def Collector.books (c : Collector) : Collector := { c with phase := .idle, gray := [] }

def Transition.enter (c : Collector) : Transition → Collector
  | ⟨.place _ _, _⟩ => { c with allocations := c.allocations + 1 }
  | ⟨.finishCollection n, _⟩ =>
    { c with
      collections := c.collections + 1
      totalFreed := c.totalFreed + n
      lastFreed := n }
  | ⟨.schedule, h⟩ =>
    { c with
      nextCollection := max h.config.highWaterMark (h.pool.live + h.config.highWaterMark / 2) }
  | ⟨.setEnabled on, _⟩ => { c with enabled := on }
  | _ => c

theorem Heap.books_of_unmarked_eq {h h' : Heap} (same : h'.unmarked = h.unmarked) :
    h'.collector.books = h.collector.books := by
  show h'.unmarked.collector.books = h.unmarked.collector.books
  rw [same]

/-- Only what is placed, the end of a collection and the two settings go into the books. -/
theorem Transition.books (t : Transition) :
    t.after.collector.books = t.enter t.before.collector.books := by
  obtain ⟨a, h⟩ := t
  cases a with
  | place d p =>
    show (h.place d p).2.collector.books = _
    unfold Heap.place
    simp only
    split
    · exact Heap.books_of_unmarked_eq (Heap.unmarked_mark _ _)
    · rfl
  | evict slot => exact congrArg Collector.books (h.phase_and_borrows_evict slot).1
  | change v c => exact congrArg Collector.books (h.collector_modify v c.apply)
  | mark v => exact Heap.books_of_unmarked_eq (h.unmarked_mark v)
  | startMarking =>
    show h.markRoots.collector.books = h.collector.books
    rw [h.markRoots_spec.2.1]
  | pop =>
    show h.pop.2.collector.books = h.collector.books
    unfold Heap.pop
    split <;> rfl
  | attach v =>
    show (h.attach v).2.collector.books = h.collector.books
    unfold Heap.attach
    split <;> rfl
  | nextGray =>
    show h.nextGray.2.collector.books = h.collector.books
    unfold Heap.nextGray
    split <;> rfl
  | _ => rfl

/-- How many instances were ever allocated, and how many were released by collections. -/
def Heap.tally (h : Heap) : Nat × Nat := (h.collector.allocations, h.collector.totalFreed)

theorem Transition.tally (t : Transition) :
    t.after.tally =
      (t.before.tally.1 + (if t.placed?.isSome then 1 else 0), t.before.tally.2 + t.freed) := by
  have hallocations := congrArg Collector.allocations t.books
  have hfreed := congrArg Collector.totalFreed t.books
  obtain ⟨a, h⟩ := t
  cases a with
  | _ => exact Prod.ext hallocations hfreed

/-- The statistics count the instances placed, and what collections say they have released. -/
theorem Path.tally {h h' : Heap} {ts : List Transition} (p : Path h ts h') :
    h'.tally = (h.tally.1 + (ts.filterMap Transition.placed?).length,
      h.tally.2 + (ts.map Transition.freed).sum) := by
  induction p with
  | nil => rfl
  | @cons t ts _ _ ih =>
    rw [ih, t.tally, List.map_cons, List.sum_cons]
    simp only [List.length_filterMap_eq_countP, List.countP_cons]
    refine Prod.ext ?_ (Nat.add_assoc _ _ _)
    show _ + _ + _ = _ + (_ + _)
    omega

/-! ## One instance -/

theorem releases_lt_of_nodup {ts : List Transition}
    (nodup : ((ts.filterMap Transition.released?).map InstanceId.index).Nodup) (i : Nat) :
    releases ts i < UInt32.size := by
  have once := List.nodup_iff_count_le_one.mp nodup i
  rw [List.count, List.countP_map] at once
  exact Nat.lt_of_le_of_lt once (by decide)

theorem releases_le_append_right (ts us : List Transition) (i : Nat) :
    releases us i ≤ releases (ts ++ us) i := by
  rw [releases_append]
  exact Nat.le_add_left _ _

namespace Path

variable {h h' : Heap} {ts : List Transition} {id : InstanceId}

theorem came (p : Path h ts h') (hid : ∃ y, h'.pool.get? id = some y) :
    (∃ x, h.pool.get? id = some x) ∨ ∃ t ∈ ts, t.placed? = some id := by
  induction p with
  | nil => exact Or.inl hid
  | cons t _ ih =>
    rcases ih hid with ⟨y, hy⟩ | ⟨u, hu, hplaced⟩
    · rcases t.poolStep.came hy with hplaced | ⟨hx, _⟩
      · exact Or.inr ⟨t, List.mem_cons_self, hplaced⟩
      · exact Or.inl hx
    · exact Or.inr ⟨u, List.mem_cons_of_mem t hu, hplaced⟩

theorem came_of_released (p : Path h ts h') {t : Transition} (ht : t ∈ ts)
    (gone : t.released? = some id) :
    (∃ x, h.pool.get? id = some x) ∨ ∃ u ∈ ts, u.placed? = some id := by
  obtain ⟨past, rest, rfl⟩ := List.append_of_mem ht
  obtain ⟨_, before, after⟩ := p.split
  cases after with
  | cons _ _ =>
    have step := t.poolStep
    rw [gone] at step
    obtain ⟨x, hx, _⟩ := step.of_released
    exact (before.came ⟨x, hx⟩).imp_right fun ⟨u, hu, placed⟩ =>
      ⟨u, List.mem_append_left _ hu, placed⟩

theorem stays_of_placed (p : Path h ts h') (sound : h.SoundPool) {t : Transition} (ht : t ∈ ts)
    (placed : t.placed? = some id) (kept : ∀ u ∈ ts, u.released? ≠ some id) :
    ∃ y, h'.pool.get? id = some y := by
  obtain ⟨past, rest, rfl⟩ := List.append_of_mem ht
  obtain ⟨_, before, after⟩ := p.split
  have sound₁ := before.soundPool sound
  cases after with
  | cons _ after =>
    have step := t.poolStep
    rw [placed] at step
    refine after.contains (t.soundPool sound₁) (step.of_placed sound₁.sound).2.1 fun u hu => ?_
    exact kept u (List.mem_append_right _ (List.mem_cons_of_mem t hu))

theorem gone_of_released (p : Path h ts h') (sound : h.SoundPool)
    (few : ∀ i, releases ts i < UInt32.size) {t : Transition} (ht : t ∈ ts)
    (gone : t.released? = some id) : h'.contains (.ref id) = false := by
  obtain ⟨past, rest, rfl⟩ := List.append_of_mem ht
  obtain ⟨_, before, after⟩ := p.split
  have sound₁ := before.soundPool sound
  have few₁ := Nat.lt_of_le_of_lt (releases_le_append_right past (t :: rest) id.index)
    (few id.index)
  have start := after
  cases start with
  | cons _ _ =>
    have step := t.poolStep
    rw [gone] at step
    obtain ⟨x, hx, _⟩ := step.of_released
    refine Bool.eq_false_iff.mpr fun there => ?_
    exact (after.contains_iff sound₁ few₁ ⟨x, hx⟩).mp there t List.mem_cons_self gone

/-- An instance is there at the end of a path if it was there at the start or was placed, and was
not released, and not otherwise. -/
theorem contains_end (p : Path h ts h') (sound : h.SoundPool)
    (few : ∀ i, releases ts i < UInt32.size) :
    h'.contains (.ref id) = true ↔
      (h.contains (.ref id) = true ∨ ∃ t ∈ ts, t.placed? = some id) ∧
        ∀ t ∈ ts, t.released? ≠ some id := by
  constructor
  · intro there
    refine ⟨(p.came (Option.isSome_iff_exists.mp there)).imp_left Option.isSome_iff_exists.mpr,
      fun t ht gone => ?_⟩
    rw [p.gone_of_released sound few ht gone] at there
    cases there
  · rintro ⟨here | ⟨t, ht, placed⟩, kept⟩
    · exact Option.isSome_iff_exists.mpr
        (p.contains sound (Option.isSome_iff_exists.mp here) kept)
    · exact Option.isSome_iff_exists.mpr (p.stays_of_placed sound ht placed kept)

/-- What is released on a path is what was there at its start or was placed, and is not there at
its end. -/
theorem mem_released (p : Path h ts h') (sound : h.SoundPool)
    (few : ∀ i, releases ts i < UInt32.size) :
    id ∈ ts.filterMap Transition.released? ↔
      (h.contains (.ref id) = true ∨ ∃ t ∈ ts, t.placed? = some id) ∧
        h'.contains (.ref id) = false := by
  rw [List.mem_filterMap]
  constructor
  · rintro ⟨t, ht, gone⟩
    exact ⟨(p.came_of_released ht gone).imp_left Option.isSome_iff_exists.mpr,
      p.gone_of_released sound few ht gone⟩
  · rintro ⟨came, gone⟩
    by_contra kept
    have kept : ∀ t ∈ ts, t.released? ≠ some id := fun t ht hid => kept ⟨t, ht, hid⟩
    rw [(p.contains_end sound few).mpr ⟨came, kept⟩] at gone
    cases gone

end Path

end TracedHeap
