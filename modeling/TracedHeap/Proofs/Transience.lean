import TracedHeap.Proofs.Containers

/-!
# Marks are transient

A mark that is there when a collection starts, set by hand or left by a collection that was cut
short, keeps its instance through that collection and is gone afterwards.  So the next collection
starts from the other roots alone.

* `Reachable.mono`          what can be reached in a heap can be reached in another one that has the
                            same roots and holds on to as much;
* `Heap.Collected.reachable_iff`
                            what can be reached after a collection could be reached before it without
                            the marks, and the other way round;
* `World.collectedTimes`    the world after so many collections;
* `World.Awaits`            what all these worlds have in common;
* `marks_transient`         two collections leave what can be reached without the marks, and further
                            ones change nothing.
-/

namespace TracedHeap

open Run

/-! ## Reachability without marks -/

def Heap.Unmarked (h : Heap) : Prop := ∀ id x, h.pool.get? id = some x → x.marked = false

theorem Instance.unmark_of_marked_eq_false {x : Instance} (h : x.marked = false) : x.unmark = x := by
  unfold unmark
  rw [← h]

namespace Heap

variable {h h' : Heap} {parts : Callback .mark → Payload → List Value} {id : InstanceId}

theorem get?_unmarked (h : Heap) (id : InstanceId) :
    h.unmarked.pool.get? id = (h.pool.get? id).map Instance.unmark :=
  Pool.get?_modifyAll _ _ id

/-- What can be reached stays so where the roots and the types are the same and each instance that
can be reached is there, with the same content and with its pins. -/
theorem Reachable.mono (hid : h.Reachable parts id) (roots : h'.roots = h.roots)
    (registry : h'.registry = h.registry)
    (keeps : ∀ id x, h.Reachable parts id → h.pool.get? id = some x →
      ∃ y, h'.pool.get? id = some y ∧ y.unmark = x.unmark ∧ (x.pinned = true → y.pinned = true)) :
    h'.Reachable parts id := by
  induction hid with
  | root root =>
    obtain ⟨x, hx, hroot⟩ := root
    obtain ⟨y, hy, _, pinned⟩ := keeps _ x (.root ⟨x, hx, hroot⟩) hx
    exact .root ⟨y, hy, hroot.imp (fun hmem => roots.symm ▸ hmem) pinned⟩
  | @held parent child x z hparent hx hchild hz ih =>
    obtain ⟨y, hy, same, _⟩ := keeps parent x hparent hx
    obtain ⟨z', hz', _⟩ := keeps child z (.held hparent hx hchild hz) hz
    refine .held ih hy ?_ hz'
    obtain ⟨hdescriptor, hpayload, hchildren⟩ := Instance.eq_of_unmark_eq same
    unfold Heap.held at hchild ⊢
    rw [registry, hdescriptor, hpayload, hchildren]
    exact hchild

theorem reachable_of_unmarked (hid : h.unmarked.Reachable parts id) : h.Reachable parts id := by
  refine hid.mono rfl rfl fun other y _ hy => ?_
  rw [get?_unmarked] at hy
  obtain ⟨x, hx, rfl⟩ := Option.map_eq_some_iff.mp hy
  refine ⟨x, hx, rfl, fun pinned => ?_⟩
  have pinned : (false || x.isProtected || x.permanent) = true := pinned
  unfold Instance.pinned
  rw [Bool.false_or] at pinned
  rw [Bool.or_assoc, pinned, Bool.or_true]

theorem Unmarked.reachable_iff (clean : h.Unmarked) :
    h.unmarked.Reachable parts id ↔ h.Reachable parts id := by
  refine ⟨reachable_of_unmarked, fun hid => hid.mono rfl rfl fun other x _ hx => ?_⟩
  refine ⟨x, ?_, rfl, fun pinned => pinned⟩
  rw [get?_unmarked, hx, Option.map_some, Instance.unmark_of_marked_eq_false (clean other x hx)]

/-! ## Collected heaps -/

variable {dead : List InstanceId}

/-- What is left by a collection could be reached, and is as it was but for its mark. -/
theorem Collected.came (c : h.Collected parts dead h') {y : Instance}
    (hy : h'.pool.get? id = some y) :
    h.Reachable parts id ∧ ∃ x, h.pool.get? id = some x ∧ y = x.unmark := by
  have hid : h.Reachable parts id := by
    by_contra unreachable
    rw [c.gone id unreachable] at hy
    cases hy
  rw [c.kept id hid] at hy
  obtain ⟨x, hx, rfl⟩ := Option.map_eq_some_iff.mp hy
  exact ⟨hid, x, hx, rfl⟩

theorem Collected.contains_iff (c : h.Collected parts dead h') :
    h'.contains (.ref id) = true ↔ h.Reachable parts id := by
  constructor
  · intro there
    obtain ⟨y, hy⟩ := Option.isSome_iff_exists.mp there
    exact (c.came hy).1
  · intro hid
    obtain ⟨x, hx⟩ := hid.live
    refine Option.isSome_iff_exists.mpr ⟨x.unmark, ?_⟩
    show h'.pool.get? id = _
    rw [c.kept id hid, hx, Option.map_some]

theorem Collected.unmarked (c : h.Collected parts dead h') : h'.Unmarked := by
  intro id y hy
  obtain ⟨_, x, _, rfl⟩ := c.came hy
  rfl

/-- The instances that a collection releases hold on to nothing that could be reached without them:
what can be reached afterwards is what could be reached before without the marks. -/
theorem Collected.reachable_iff (c : h.Collected parts dead h') :
    h'.Reachable parts id ↔ h.unmarked.Reachable parts id := by
  have roots : h'.roots = h.roots := by
    unfold Heap.roots
    rw [c.stack, c.frames]
  constructor
  · intro hid
    refine hid.mono roots.symm c.registry.symm fun other y _ hy => ?_
    obtain ⟨_, x, hx, rfl⟩ := c.came hy
    refine ⟨x.unmark, ?_, rfl, fun pinned => pinned⟩
    rw [get?_unmarked, hx, Option.map_some]
  · intro hid
    refine hid.mono roots c.registry fun other y hother hy => ⟨y, ?_, rfl, fun pinned => pinned⟩
    rw [c.kept other (reachable_of_unmarked hother), ← get?_unmarked]
    exact hy

/-- After a collection that finds no marks, everything that is there can be reached. -/
theorem Collected.reachable_of_contains (c : h.Collected parts dead h') (clean : h.Unmarked)
    (there : h'.contains (.ref id) = true) : h'.Reachable parts id := by
  rw [c.reachable_iff, clean.reachable_iff]
  exact c.contains_iff.mp there

/-- A collection that finds no marks and nothing that cannot be reached changes no instance. -/
theorem Collected.idle (c : h.Collected parts dead h') (clean : h.Unmarked)
    (all : ∀ id, h.contains (.ref id) = true → h.Reachable parts id) :
    dead = [] ∧ ∀ id, h'.pool.get? id = h.pool.get? id := by
  refine ⟨List.eq_nil_iff_forall_not_mem.mpr fun id hid => ?_, fun id => ?_⟩
  · obtain ⟨there, unreachable⟩ := (c.mem_dead id).mp hid
    exact unreachable (all id there)
  · cases hx : h.pool.get? id with
    | none =>
      refine c.gone id fun hid => ?_
      obtain ⟨x, hx'⟩ := hid.live
      rw [hx] at hx'
      cases hx'
    | some x =>
      have there : h.contains (.ref id) = true := Option.isSome_iff_exists.mpr ⟨x, hx⟩
      rw [c.kept id (all id there), hx, Option.map_some,
        Instance.unmark_of_marked_eq_false (clean id x hx)]

theorem Collected.quiet (c : h.Collected parts dead h') (quiet : h.Quiet) : h'.Quiet := by
  refine ⟨c.ready, fun id y hy => ?_⟩
  obtain ⟨_, x, hx, rfl⟩ := c.came hy
  exact quiet.borrow id x hx

theorem Collected.length_instances_le (c : h.Collected parts dead h') :
    h'.pool.instances.length ≤ h.pool.instances.length := by
  rw [← Pool.length_namesOf_true]
  refine Pool.length_le_instances (h'.pool.nodup_namesOf _) fun id hid => ?_
  obtain ⟨y, hy, _⟩ := Pool.mem_namesOf.mp hid
  obtain ⟨_, x, hx, _⟩ := c.came hy
  exact ⟨x, hx⟩

end Heap

/-! ## One collection after the other -/

def World.collectedTimes (w : World) (r : Runner) : Nat → World
  | 0 => w
  | k + 1 => ((collect r).exec (w.collectedTimes r k)).2

def Runner.TracesTypes (r : Runner) (w : World) (parts : Callback .mark → Payload → List Value) :
    Prop :=
  ∀ w' : World, w'.toContext.unlogged = w.toContext.unlogged →
    w'.heap.registry = w.heap.registry → w'.heap.Quiet → r.Traces w' parts

/-- A world that differs from `w` in its instances and in what is logged, and that can be
collected. -/
structure World.Awaits (r : Runner) (w w' : World) : Prop where
  context : w'.toContext.unlogged = w.toContext.unlogged
  registry : w'.heap.registry = w.heap.registry
  quiet : w'.heap.Quiet
  enough : w'.heap.pool.instances.length ≤ r.rounds

section
variable {r : Runner} {w w' : World} {parts : Callback .mark → Payload → List Value}

theorem World.Awaits.collect (traces : r.TracesTypes w parts) (a : w.Awaits r w') :
    ∃ dead, ((collect r).exec w').1 = .ok dead.length ∧
      w'.heap.Collected parts dead ((collect r).exec w').2.heap ∧
      w.Awaits r ((collect r).exec w').2 := by
  obtain ⟨dead, h, ⟨w'', hexec, rfl, hcontext⟩, c⟩ :=
    (traces w' a.context a.registry a.quiet).collect a.quiet.ready a.enough
  rw [hexec]
  refine ⟨dead, rfl, c, hcontext.trans a.context, c.registry.trans a.registry, c.quiet a.quiet, ?_⟩
  exact Nat.le_trans c.length_instances_le a.enough

theorem World.awaits_collectedTimes (traces : r.TracesTypes w parts) (quiet : w.heap.Quiet)
    (enough : w.heap.pool.instances.length ≤ r.rounds) (k : Nat) :
    w.Awaits r (w.collectedTimes r k) := by
  induction k with
  | zero => exact ⟨rfl, rfl, quiet, enough⟩
  | succ k ih =>
    obtain ⟨_, _, _, next⟩ := ih.collect traces
    exact next

theorem World.collected_collectedTimes (traces : r.TracesTypes w parts) (quiet : w.heap.Quiet)
    (enough : w.heap.pool.instances.length ≤ r.rounds) (k : Nat) :
    ∃ dead, ((TracedHeap.collect r).exec (w.collectedTimes r k)).1 = .ok dead.length ∧
      (w.collectedTimes r k).heap.Collected parts dead (w.collectedTimes r (k + 1)).heap := by
  obtain ⟨dead, hended, c, _⟩ := (w.awaits_collectedTimes traces quiet enough k).collect traces
  exact ⟨dead, hended, c⟩

end

/-- Marks are transient.

Let the collector be idle and no payload in use; instances may be marked, by hand or by a collection
that was cut short.  Let the mark callbacks of the types mark `parts` of payloads and do nothing
else, and let the free callbacks leave the heap alone.  Then collections one after the other come to
their ends.  What two of them leave is what can be reached from the stack, the frames and what is
protected or permanent, marks apart; it is as it was but for the mark.  Every further collection
releases nothing and changes no instance. -/
theorem marks_transient (r : Runner) (w : World) (parts : Callback .mark → Payload → List Value)
    (quiet : w.heap.Quiet) (traces : r.TracesTypes w parts)
    (enough : w.heap.pool.instances.length ≤ r.rounds) :
    (∀ k, ∃ n, ((collect r).exec (w.collectedTimes r k)).1 = .ok n) ∧
      (∀ id, (w.collectedTimes r 2).heap.contains (.ref id) = true ↔
        w.heap.unmarked.Reachable parts id) ∧
      (∀ id x, w.heap.unmarked.Reachable parts id → w.heap.pool.get? id = some x →
        (w.collectedTimes r 2).heap.pool.get? id = some { x with marked := false }) ∧
      ∀ k, 2 ≤ k → ((collect r).exec (w.collectedTimes r k)).1 = .ok 0 ∧
        ∀ id, (w.collectedTimes r (k + 1)).heap.pool.get? id =
          (w.collectedTimes r k).heap.pool.get? id := by
  have collections := w.collected_collectedTimes traces quiet enough
  obtain ⟨_, _, first⟩ := collections 0
  obtain ⟨_, _, second⟩ := collections 1
  refine ⟨fun k => ?_, fun id => ?_, fun id x hid hx => ?_, fun k hk => ?_⟩
  · obtain ⟨dead, hended, _⟩ := collections k
    exact ⟨dead.length, hended⟩
  · rw [second.contains_iff, first.reachable_iff]
    exact Iff.rfl
  · have hfirst : (w.collectedTimes r 1).heap.pool.get? id = some x.unmark := by
      rw [first.kept id (Heap.reachable_of_unmarked hid)]
      exact congrArg (Option.map Instance.unmark) hx
    rw [second.kept id (first.reachable_iff.mpr hid), hfirst]
    rfl
  · -- the last two collections found no marks, so nothing is left that cannot be reached
    obtain ⟨j, rfl⟩ := Nat.exists_eq_add_of_le' hk
    obtain ⟨_, _, before⟩ := collections j
    obtain ⟨_, _, last⟩ := collections (j + 1)
    obtain ⟨dead, hended, now⟩ := collections (j + 2)
    obtain ⟨rfl, same⟩ := now.idle last.unmarked fun _ => last.reachable_of_contains before.unmarked
    exact ⟨hended, same⟩

/-- A session that leaves two arrays that hold each other, one of them on the stack, and a marked
array that holds another one. -/
def strayMark : Session where
  steps := [.bind "a" (.op (.array [])), .bind "b" (.op (.array [.var "a"])),
    .op (.set (.var "a") (.const (.int 0)) (.var "b")), .op (.push (.var "a")),
    .bind "c" (.op (.array [])), .bind "d" (.op (.array [.var "c"])), .op (.pin .mark (.var "d"))]

theorem plain_strayMark : (strayMark.closing (.ofDepth 4)).heap.registry.Plain := by
  have same : (strayMark.closing (.ofDepth 4)).heap.registry =
      (mutualArrays.closing (.ofDepth 4)).heap.registry := by rfl
  rw [same]
  exact plain_mutualArrays

theorem quiet_strayMark : (strayMark.closing (.ofDepth 4)).heap.Quiet := by
  refine ⟨by decide +kernel, fun id x hx => ?_⟩
  have hall : ∀ e ∈ (strayMark.closing (.ofDepth 4)).heap.pool.instances,
      e.2.borrow = .shared 0 := by decide +kernel
  exact hall (id, x) (Pool.mem_instances.mpr hx)

theorem marks_transient_strayMark :
    let w := strayMark.closing (.ofDepth 4)
    w.heap.isMarked (.ref ⟨3, 0⟩) = true ∧
      (w.collectedTimes (.ofDepth 4) 1).heap.contains (.ref ⟨2, 0⟩) = true ∧
      (w.collectedTimes (.ofDepth 4) 2).heap.contains (.ref ⟨2, 0⟩) = false ∧
      (w.collectedTimes (.ofDepth 4) 2).heap.contains (.ref ⟨1, 0⟩) = true ∧
      ((collect (.ofDepth 4)).exec (w.collectedTimes (.ofDepth 4) 5)).1 = .ok 0 := by
  obtain ⟨_, left, _, idle⟩ := marks_transient (.ofDepth 4) (strayMark.closing (.ofDepth 4))
    containerParts quiet_strayMark
    (fun w' _ registry quiet => Runner.traces_ofDepth 3 (registry ▸ plain_strayMark) quiet)
    (by decide +kernel)
  have hfirst : (strayMark.closing (.ofDepth 4)).heap.unmarked.Reachable containerParts ⟨0, 0⟩ :=
    .root ⟨_, (Heap.get?_unmarked _ _).trans rfl, Or.inl (by decide +kernel)⟩
  have hsecond : (strayMark.closing (.ofDepth 4)).heap.unmarked.Reachable containerParts ⟨1, 0⟩ :=
    hfirst.held ((Heap.get?_unmarked _ _).trans rfl) (by decide +kernel)
      ((Heap.get?_unmarked _ _).trans rfl)
  exact ⟨by decide +kernel, by decide +kernel, by decide +kernel, (left _).mpr hsecond,
    (idle 5 (by decide)).1⟩

end TracedHeap
