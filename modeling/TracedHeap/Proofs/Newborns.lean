import TracedHeap.Proofs.Conservation

/-!
# Instances born during a collection

Callbacks of a collection may allocate.  What they allocate while the collector is marking gets a
mark; what they allocate while it is sweeping is not on the list of the sweep.  A slot may be
released and given out again in one sweep, but the name of its new instance is another one, since a
collection releases no slot twice.

* `Run.KeepsNewborns`              what a computation places is there when it ends;
* `spared_newborn_collect`         a collection releases nothing that is placed while it goes on;
* `Session.newborns_survive`       what callbacks allocate during a collection survives it.
-/

namespace TracedHeap

open Run

/-- What the computation places is there when it ends, whether it comes to its end or is cut short,
unless a mark is taken away by hand meanwhile. -/
def Run.KeepsNewborns {α : Type} (x : Run α) (w : World) : Prop :=
  (∀ t ∈ x.trace w, t.unmarks = false) →
    ∀ t ∈ x.trace w, ∀ id, t.placed? = some id → (x.exec w).2.heap.contains (.ref id) = true

theorem keepsNewborns_of_spared {α : Type} {x : Run α} {w : World} (sound : w.heap.SoundPool)
    (spared : (∀ t ∈ x.trace w, t.unmarks = false) → ∀ t ∈ x.trace w, ∀ id, t.placed? = some id →
      ∀ u ∈ x.trace w, u.released? ≠ some id) : x.KeepsNewborns w :=
  fun keeps t ht id placed => Option.isSome_iff_exists.mpr
    ((x.path_trace w).stays_of_placed sound ht placed (spared keeps t ht id placed))

section
variable {r : Runner} {w : World}

/-- A collection releases what was there when it started, and the names of these instances are not
given again while it goes on. -/
theorem spared_newborn_collect (hr : r.Lawful) (sound : w.heap.SoundPool)
    (keeps : ∀ t ∈ (collect r).trace w, t.unmarks = false) :
    ∀ t ∈ (collect r).trace w, ∀ id, t.placed? = some id →
      ∀ u ∈ (collect r).trace w, u.released? ≠ some id := by
  intro t ht id placed u hu gone
  have few := releases_lt_of_nodup (nodup_released_collect hr sound) id.index
  have old := contains_of_released_collect hr sound keeps (List.mem_filterMap.mpr ⟨u, hu, gone⟩)
  exact ((collect r).path_trace w).placed?_ne sound few (Option.isSome_iff_exists.mp old) t ht placed

theorem spared_newborn_collectIfDue (hr : r.Lawful) (sound : w.heap.SoundPool)
    (keeps : ∀ t ∈ (collectIfDue r).trace w, t.unmarks = false) :
    ∀ t ∈ (collectIfDue r).trace w, ∀ id, t.placed? = some id →
      ∀ u ∈ (collectIfDue r).trace w, u.released? ≠ some id := by
  rcases trace_collectIfDue r w with hnil | ⟨_, last, htrace, hlast⟩
  · rw [hnil]
    exact fun t ht => absurd ht List.not_mem_nil
  · rw [htrace] at keeps ⊢
    obtain ⟨hkeeps, _⟩ := List.forall_mem_append.mp keeps
    intro t ht id placed u hu gone
    rcases List.mem_append.mp ht with ht | ht
    · rcases List.mem_append.mp hu with hu | hu
      · exact spared_newborn_collect hr sound hkeeps t ht id placed u hu gone
      · obtain ⟨h, rfl⟩ := hlast u hu
        cases gone
    · obtain ⟨h, rfl⟩ := hlast t ht
      cases placed

end

/-- Instances born during a collection survive it.

At whatever moment of a session a collection starts, asked for or automatic, and whatever its
callbacks do other than to take marks away: each instance that is allocated while it goes on is there
when it ends.  This holds if it comes to its end and if it is cut short, and also if the instance got
a slot that this collection had released. -/
theorem Session.newborns_survive (s : Session) (n : Nat) (valid : s.config.fault? = none)
    (w : World) (hw : w.heap ∈ s.moments (.ofDepth n)) (m : Nat) :
    (collect (.ofDepth m)).KeepsNewborns w ∧ (collectIfDue (.ofDepth m)).KeepsNewborns w := by
  have hr := Runner.lawful_ofDepth m
  have sound := s.soundPool_moments (.ofDepth n) valid w.heap hw
  exact ⟨keepsNewborns_of_spared sound (spared_newborn_collect hr sound),
    keepsNewborns_of_spared sound (spared_newborn_collectIfDue hr sound)⟩

/-- A session that leaves a nest on the stack and a cell that nothing holds.  The mark callback of
nests allocates an egg; the free callback of cells allocates one and is cut short.  Slots are given
out again, since a collection has released four eggs before. -/
def lateArrivals : Session where
  config := { reuseThreshold := 1 }
  containers := false
  steps := [.op (.register "egg" none), .op (.register "nest" none), .op (.register "cell" none),
    .install (.index ⟨1⟩) .mark "mark" [.op (.alloc .unit (.index ⟨0⟩))] .nothing,
    .install (.index ⟨2⟩) .free "free"
      [.op (.alloc .unit (.index ⟨0⟩)), .op (.abort "cut short")] .nothing,
    .op (.alloc .unit (.index ⟨0⟩)), .op (.alloc .unit (.index ⟨0⟩)),
    .op (.alloc .unit (.index ⟨0⟩)), .op (.alloc .unit (.index ⟨0⟩)), .op .collect,
    .bind "a" (.op (.alloc .unit (.index ⟨1⟩))), .op (.push (.var "a")),
    .op (.alloc .unit (.index ⟨2⟩))]

theorem Session.newborns_survive_lateArrivals :
    let w := lateArrivals.closing (.ofDepth 3)
    ((collect (.ofDepth 3)).exec w).1.toOption = none ∧
      ((collect (.ofDepth 3)).trace w).filterMap Transition.released? = [⟨2, 1⟩] ∧
      ((collect (.ofDepth 3)).trace w).filterMap Transition.placed? = [⟨1, 1⟩, ⟨2, 2⟩] ∧
      ((collect (.ofDepth 3)).exec w).2.heap.contains (.ref ⟨1, 1⟩) = true ∧
      ((collect (.ofDepth 3)).exec w).2.heap.contains (.ref ⟨2, 2⟩) = true := by
  intro w
  have placed : ((collect (.ofDepth 3)).trace w).filterMap Transition.placed? =
      [⟨1, 1⟩, ⟨2, 2⟩] := by decide +kernel
  have keeps : ∀ t ∈ (collect (.ofDepth 3)).trace w, t.unmarks = false := by decide +kernel
  have survive : ∀ id ∈ ((collect (.ofDepth 3)).trace w).filterMap Transition.placed?,
      ((collect (.ofDepth 3)).exec w).2.heap.contains (.ref id) = true := by
    intro id hid
    obtain ⟨t, ht, hplaced⟩ := List.mem_filterMap.mp hid
    exact (lateArrivals.newborns_survive 3 rfl w (lateArrivals.closing_mem_moments _) 3).1 keeps t ht
      id hplaced
  rw [placed] at survive
  exact ⟨by decide +kernel, by decide +kernel, placed, survive _ (by simp), survive _ (by simp)⟩

end TracedHeap
