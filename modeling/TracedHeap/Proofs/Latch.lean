import TracedHeap.Proofs.Permanence

/-!
# The latch and the free list

Freed slots are used again while the pool is recycling, the latest first.  A collection that leaves
enough of them turns that latch on, and it stays on until they are used up.

* `freedSlots`               the slots that some transitions leave free, the latest first;
* `Path.freeList`            the free list is just that;
* `Pool.Step.of_recycling`   what comes while the pool is recycling takes the first of them;
* `Pool.Owes`                so many freed slots will be used before any new one;
* `Path.owes`                each placement takes one off that number, and nothing else does;
* `Session.latch_drains_free_list`
                             what all this says about the collections and allocations of a session.
-/

namespace TracedHeap

/-! ## The freed slots, the latest first -/

def freedAfter (l : List Nat) (placed released : Option InstanceId) : List Nat :=
  let l := placed.elim l fun id => l.erase id.index
  released.elim l fun id => id.index :: l

/-- The slots that are free after the transitions `past` of a session, the one freed last first. -/
def freedSlots (past : List Transition) : List Nat :=
  past.foldl (fun l t => freedAfter l t.placed? t.released?) []

namespace Pool

section
variable {increment : Nat} {known : Descriptor → Prop} {placed released : Option InstanceId}
  {p q : Pool} {l : List Nat}

/-- While the pool is recycling the first slot of the free list is taken. -/
theorem FreeList.place_of_recycling (hl : p.FreeList l) (sound : p.Sound increment)
    (on : p.recycling = true) (d : Descriptor) (c : Payload) :
    ∃ i s rest, l = i :: rest ∧ p.slots[i]? = some s ∧ s.nextFree = rest.head? ∧
      p.place increment d c = p.placeFreed i s d c := by
  have hc := hl.chain
  cases hhead : p.freeHead with
  | none => exact absurd hhead (sound.latch on)
  | some i =>
    rw [hhead] at hc
    cases hc with
    | @cons _ s rest hs hc =>
      refine ⟨i, s, rest, rfl, hs, hc.head?_eq.symm, ?_⟩
      simp only [place, firstFree?, on, hhead, hs, Option.bind_some, Option.map_some]

theorem place_of_not_recycling (off : p.recycling = false) (d : Descriptor) (c : Payload) :
    p.place increment d c = p.placeFresh increment d c := by
  simp only [place, off]

theorem FreeList.place (hl : p.FreeList l) (sound : p.Sound increment) (d : Descriptor)
    (c : Payload) :
    (p.place increment d c).2.FreeList (l.erase (p.place increment d c).1.index) := by
  cases hlatch : p.recycling with
  | true =>
    obtain ⟨i, s, rest, rfl, hs, _, heq⟩ := hl.place_of_recycling sound hlatch d c
    rw [heq]
    show (p.placeFreed i s d c).2.FreeList ((i :: rest).erase i)
    rw [List.erase_cons_head]
    exact hl.placeFreed hs d c
  | false =>
    have hnew : p.issued ∉ l := fun hmem => Nat.lt_irrefl _ ((hl.mem_iff _).mp hmem).1
    rw [place_of_not_recycling hlatch]
    show (p.placeFresh increment d c).2.FreeList (l.erase p.issued)
    rw [List.erase_of_not_mem hnew]
    exact hl.placeFresh increment d c

theorem Step.freeList (t : Step increment known placed released p q) (sound : p.Sound increment)
    (hl : p.FreeList l) : q.FreeList (freedAfter l placed released) := by
  cases t with
  | edit e => exact hl.edit e
  | recycle _ threshold => exact hl.recycle threshold
  | place _ e => exact (hl.place sound _ _).edit e
  | evict _ he => exact hl.evict he

/-! ## The latch -/

/-- An instance that comes while the pool is recycling takes the first slot of the free list, and
no new slot is issued.  The pool goes on recycling as long as there is another one. -/
theorem Step.of_recycling {id : InstanceId} (t : Step increment known (some id) released p q)
    (sound : p.Sound increment) (hl : p.FreeList l) (on : p.recycling = true) :
    ∃ rest, l = id.index :: rest ∧ (q.recycling = true ↔ rest ≠ []) ∧ q.issued = p.issued ∧
      q.capacity = p.capacity := by
  cases t with
  | @place _ _ d c _ e =>
    obtain ⟨i, s, rest, rfl, _, hnext, heq⟩ := hl.place_of_recycling sound on d c
    rw [heq] at e ⊢
    have hissued : (p.placeFreed i s d c).2.issued = p.issued := Array.size_modify
    refine ⟨rest, rfl, ?_, e.size.trans hissued, e.capacity⟩
    rw [e.recycling]
    show (p.recycling && s.nextFree.isSome) = true ↔ _
    rw [on, Bool.true_and, hnext]
    exact List.isSome_head?

/-- An instance that comes while the pool is not recycling takes a new slot. -/
theorem Step.of_not_recycling {id : InstanceId} (t : Step increment known (some id) released p q)
    (off : p.recycling = false) : id = ⟨p.issued, 0⟩ ∧ q.issued = p.issued + 1 := by
  cases t with
  | @place _ _ d c _ e =>
    rw [place_of_not_recycling off] at e ⊢
    have hissued : (p.placeFresh increment d c).2.issued = p.issued + 1 := Array.size_push ..
    exact ⟨rfl, e.size.trans hissued⟩

theorem Step.recycling (t : Step increment known none released p q) (on : p.recycling = true) :
    q.recycling = true := by
  cases t with
  | edit e => exact e.recycling.trans on
  | recycle _ threshold =>
    show (p.recycling || _) = true
    rw [on, Bool.true_or]
  | evict _ he =>
    obtain ⟨_, _, heq⟩ := Option.map_eq_some_iff.mp he
    cases heq
    exact on

/-- The latch goes off only when the last freed slot is taken. -/
theorem Step.freeList_nil (t : Step increment known placed released p q)
    (sound : p.Sound increment) (on : p.recycling = true) (off : q.recycling = false) :
    q.FreeList [] := by
  obtain ⟨l, hl⟩ := sound.free
  have hafter := t.freeList sound hl
  cases placed with
  | none =>
    rw [t.recycling on] at off
    cases off
  | some id =>
    obtain ⟨rest, rfl, hlatch, _⟩ := t.of_recycling sound hl on
    have hrest : rest = [] := by
      by_contra more
      rw [hlatch.mpr more] at off
      cases off
    cases t
    rw [freedAfter, Option.elim_some, Option.elim_none, List.erase_cons_head, hrest] at hafter
    exact hafter

/-! ## How many freed slots will be used -/

/-- The next `n` instances will come into freed slots. -/
structure Owes (p : Pool) (n : Nat) : Prop where
  enough : n ≤ p.freeLen
  latch : 0 < n → p.recycling = true

theorem Owes.zero (p : Pool) : p.Owes 0 := ⟨Nat.zero_le _, fun h => absurd h (Nat.lt_irrefl 0)⟩

theorem Step.owes {n : Nat} (t : Step increment known placed released p q)
    (sound : p.Sound increment) (owes : p.Owes n) :
    q.Owes (n - if placed.isSome then 1 else 0) := by
  obtain ⟨l, hl⟩ := sound.free
  have hafter := (t.freeList sound hl).length
  have hbefore := hl.length
  have henough := owes.enough
  rcases Nat.eq_zero_or_pos n with rfl | hpos
  · rw [Nat.zero_sub]
    exact .zero q
  · have on := owes.latch hpos
    cases placed with
    | none =>
      refine ⟨?_, fun _ => t.recycling on⟩
      rw [← hafter]
      show n ≤ (freedAfter l none released).length
      cases released with
      | none =>
        show n ≤ l.length
        omega
      | some id =>
        show n ≤ l.length + 1
        omega
    | some id =>
      obtain ⟨rest, rfl, hlatch, _⟩ := t.of_recycling sound hl on
      have hrest : rest.length + 1 = p.freeLen := hbefore
      cases t
      rw [freedAfter, Option.elim_some, Option.elim_none, List.erase_cons_head] at hafter
      refine ⟨?_, fun hmore => ?_⟩
      · show n - 1 ≤ q.freeLen
        omega
      · have hmore : 0 < n - 1 := hmore
        exact hlatch.mpr (List.length_pos_iff.mp (by omega))

/-- A pool that is told to recycle, with at least one freed slot and as many as it takes, owes all of
them. -/
theorem owes_updateRecycling {threshold : Nat} (pos : 0 < p.freeLen)
    (enough : threshold ≤ p.freeLen) : (p.updateRecycling threshold).Owes p.freeLen where
  enough := Nat.le_refl _
  latch _ := by
    show (p.recycling || (decide (0 < p.freeLen) && decide (threshold ≤ p.freeLen))) = true
    rw [decide_eq_true pos, decide_eq_true enough, Bool.and_self, Bool.or_true]

end

end Pool

/-! ## Along a path -/

namespace Path

variable {h h' : Heap} {ts : List Transition}

theorem freeList (p : Path h ts h') (sound : h.SoundPool) {l : List Nat} (hl : h.pool.FreeList l) :
    h'.pool.FreeList (ts.foldl (fun l t => freedAfter l t.placed? t.released?) l) := by
  induction p generalizing l with
  | nil => exact hl
  | cons t _ ih => exact ih (t.soundPool sound) (t.poolStep.freeList sound.sound hl)

theorem owes (p : Path h ts h') (sound : h.SoundPool) {n : Nat} (owes : h.pool.Owes n) :
    h'.pool.Owes (n - (ts.filterMap Transition.placed?).length) := by
  induction p generalizing n with
  | nil => exact owes
  | @cons t ts _ _ ih =>
    have rest := ih (t.soundPool sound) (t.poolStep.owes sound.sound owes)
    have hcount : n - ((t :: ts).filterMap Transition.placed?).length =
        n - (if t.placed?.isSome then 1 else 0) - (ts.filterMap Transition.placed?).length := by
      simp only [List.length_filterMap_eq_countP, List.countP_cons]
      omega
    rw [hcount]
    exact rest

end Path

theorem Transition.owes_of_finishes {f : Transition} (finishes : f.finishes = true)
    (pos : 0 < f.after.pool.freeLen)
    (enough : f.before.config.reuseThreshold ≤ f.after.pool.freeLen) :
    f.after.pool.Owes f.after.pool.freeLen := by
  obtain ⟨a, h⟩ := f
  cases a with
  | finishCollection n => exact Pool.owes_updateRecycling pos enough
  | _ => cases finishes

theorem Session.freeList_before {s : Session} {r : Runner} (valid : s.config.fault? = none)
    {past rest : List Transition} {t : Transition} (heq : s.history r = past ++ t :: rest) :
    t.before.SoundPool ∧ t.before.pool.FreeList (freedSlots past) := by
  have start := Heap.soundPool_new valid
  have path := path_before heq
  exact ⟨path.soundPool start, path.freeList start .fresh⟩

/-- The latch drains the free list.

Let a collection of a session be finished with at least one freed slot, and with as many as the
threshold.  Then as many of the instances that come next as there are freed slots, whatever else
happens and whatever the callbacks do, come each into the slot that was freed last among those that
are free, and no slot is issued and no room made for them.  At every transition of a session the free
list has the freed slots in that order.  An instance that comes while the latch is off comes into the
next new slot, however many freed ones there are.  And the latch goes off only when no freed slot is
left. -/
theorem Session.latch_drains_free_list (s : Session) (r : Runner)
    (valid : s.config.fault? = none) :
    (∀ (past mid rest : List Transition) (f t : Transition) (id : InstanceId),
      s.history r = past ++ f :: (mid ++ t :: rest) → f.finishes = true →
      0 < f.after.pool.freeLen → s.config.reuseThreshold ≤ f.after.pool.freeLen →
      (mid.filterMap Transition.placed?).length < f.after.pool.freeLen → t.placed? = some id →
      (freedSlots (past ++ f :: mid)).head? = some id.index ∧
        t.after.pool.issued = t.before.pool.issued ∧
        t.after.pool.capacity = t.before.pool.capacity) ∧
    ∀ (past rest : List Transition) (t : Transition), s.history r = past ++ t :: rest →
      t.before.pool.FreeList (freedSlots past) ∧
      (∀ id, t.placed? = some id → t.before.pool.recycling = false →
        id = ⟨t.before.pool.issued, 0⟩ ∧ t.after.pool.issued = t.before.pool.issued + 1) ∧
      (t.before.pool.recycling = true → t.after.pool.recycling = false →
        t.after.pool.FreeList []) := by
  refine ⟨fun past mid rest f t id heq finishes pos enough few placed => ?_,
    fun past rest t heq => ?_⟩
  · have heq : s.history r = (past ++ f :: mid) ++ t :: rest := by
      rw [heq, List.append_assoc]
      rfl
    obtain ⟨sound, hlist⟩ := freeList_before valid heq
    obtain ⟨_, hpast, hmid⟩ := (path_before heq).split
    have step := t.poolStep
    rw [placed] at step
    cases hmid with
    | cons _ hmid =>
      -- all freed slots are owed when the collection is finished, and too few were taken since
      have sound₁ := (hpast.invariant (fun t _ => t.soundPool) (Heap.soundPool_new valid)).1
      have owed := Transition.owes_of_finishes finishes pos (hpast.keepsTypes.config ▸ enough)
      have owes := hmid.owes (f.soundPool sound₁) owed
      have on := owes.latch (by omega)
      obtain ⟨others, hfirst, _, hissued, hcapacity⟩ := step.of_recycling sound.sound hlist on
      rw [hfirst]
      exact ⟨rfl, hissued, hcapacity⟩
  · obtain ⟨sound, hlist⟩ := freeList_before valid heq
    refine ⟨hlist, fun id placed off => ?_, t.poolStep.freeList_nil sound.sound⟩
    have step := t.poolStep
    rw [placed] at step
    exact step.of_not_recycling off

/-- A session in which three slots are freed, and one of them is used and freed again before the
others are used. -/
def refilled : Session where
  config := { reuseThreshold := 2 }
  containers := false
  steps := [.op (.register "cell" none), .op (.alloc .unit (.index ⟨0⟩)),
    .op (.alloc .unit (.index ⟨0⟩)), .op (.alloc .unit (.index ⟨0⟩)), .op .collect,
    .op (.alloc .unit (.index ⟨0⟩)), .op .collect, .op (.alloc .unit (.index ⟨0⟩)),
    .op (.alloc .unit (.index ⟨0⟩))]

theorem Session.latch_drains_free_list_refilled :
    ∃ past mid rest f t, refilled.history (.ofDepth 2) = past ++ f :: (mid ++ t :: rest) ∧
      f.finishes = true ∧ f.after.pool.freeLen = 3 ∧
      mid.filterMap Transition.placed? = [⟨2, 1⟩, ⟨2, 2⟩] ∧
      mid.filterMap Transition.released? = [⟨2, 1⟩] ∧ t.placed? = some ⟨1, 1⟩ ∧
      (freedSlots (past ++ f :: mid)).head? = some 1 ∧
      t.after.pool.issued = t.before.pool.issued := by
  have hf : 10 < (refilled.history (.ofDepth 2)).length := by decide +kernel
  have ht : 9 < ((refilled.history (.ofDepth 2)).drop 11).length := by decide +kernel
  obtain ⟨finishes, hlen, hplaced⟩ :
      ((refilled.history (.ofDepth 2)).get ⟨10, hf⟩).finishes = true ∧
        ((refilled.history (.ofDepth 2)).get ⟨10, hf⟩).after.pool.freeLen = 3 ∧
        (((refilled.history (.ofDepth 2)).drop 11).get ⟨9, ht⟩).placed? = some ⟨1, 1⟩ := by
    decide +kernel +revert
  have hcut : refilled.history (.ofDepth 2) = (refilled.history (.ofDepth 2)).take 10 ++
      (refilled.history (.ofDepth 2)).get ⟨10, hf⟩ ::
        (((refilled.history (.ofDepth 2)).drop 11).take 9 ++
          ((refilled.history (.ofDepth 2)).drop 11).get ⟨9, ht⟩ ::
            ((refilled.history (.ofDepth 2)).drop 11).drop 10) := by
    rw [List.get_eq_getElem, List.get_eq_getElem, List.getElem_cons_drop, List.take_append_drop,
      List.getElem_cons_drop, List.take_append_drop]
  have hmid : (((refilled.history (.ofDepth 2)).drop 11).take 9).filterMap Transition.placed? =
      [⟨2, 1⟩, ⟨2, 2⟩] := by decide +kernel
  have hthreshold : refilled.config.reuseThreshold = 2 := rfl
  obtain ⟨hfirst, hissued, _⟩ := (refilled.latch_drains_free_list (.ofDepth 2) rfl).1 _ _ _ _ _ _
    hcut finishes (by omega) (by omega) (by rw [hlen, hmid]; decide) hplaced
  exact ⟨_, _, _, _, _, hcut, finishes, hlen, hmid, by decide +kernel, hplaced, hfirst, hissued⟩

end TracedHeap
