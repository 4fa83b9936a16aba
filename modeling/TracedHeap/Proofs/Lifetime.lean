import TracedHeap.Proofs.FreeList

/-!
# References never come back to life

A slot is used again and again, and its generation goes up by one each time an instance leaves it.
So a name, which holds a slot and a generation, is that of one instance only, as long as the
generations of no slot go round.

* `releases`                   how often transitions take an instance out of a slot;
* `Path.generation`            the generation of a slot is what it was, plus the releases;
* `Path.contains`              an instance stays until it is released;
* `allocate_ok`                what an allocation gives is the name of the instance it placed;
* `Session.names_never_return` no name is given twice, and a name stands for its instance from
                               the allocation until the release and never again.
-/

namespace TracedHeap

namespace Pool

section
variable {increment : Nat} {known : Descriptor → Prop} {placed released : Option InstanceId}
  {p q : Pool}

/-! ## One step -/

/-- A name given to a new instance stood for none before; if its slot was used before, the
generation is the one the slot has got to. -/
theorem Step.of_placed {id : InstanceId} (t : Step increment known (some id) released p q)
    (h : p.Sound increment) :
    p.occupant? id.index = none ∧ (∃ x, q.get? id = some x) ∧
      ∀ s, p.slots[id.index]? = some s → s.generation = id.generation := by
  cases t with
  | @place _ _ d c _ e =>
    refine ⟨h.occupant?_place d c, ?_, fun s hs => p.generation_place increment d c hs⟩
    obtain ⟨y, hy, _⟩ := e.get? (get?_eq_some_iff.mpr (h.getElem?_place d c))
    exact ⟨y, hy⟩

theorem Step.keeps {id : InstanceId} {x : Instance} (t : Step increment known placed released p q)
    (h : p.Sound increment) (hx : p.get? id = some x) (hid : released ≠ some id) :
    ∃ y, q.get? id = some y ∧ x.Edited y := by
  cases t with
  | edit e => exact e.get? hx
  | recycle _ threshold => exact ⟨x, hx, .refl x⟩
  | @place _ _ d c _ e => exact e.get? ((h.get?_place d c (h.ne_place hx d c)).trans hx)
  | @evict _ _ other _ hother he =>
    obtain ⟨s, hs, hg, hsx⟩ := get?_eq_some_iff.mp hx
    -- two instances in one slot have one generation, and so one name
    have hne : id.index ≠ other.index := by
      intro heq
      obtain ⟨s', hs', hg', _⟩ := get?_eq_some_iff.mp hother
      rw [← heq, hs] at hs'
      cases hs'
      exact hid (congrArg some (InstanceId.ext heq.symm (hg'.symm.trans hg)))
    rw [← getElem?_evict_of_ne he hne] at hs
    exact ⟨x, get?_eq_some_iff.mpr ⟨s, hs, hg, hsx⟩, .refl x⟩

theorem Edited.exists_of_get? {id : InstanceId} {y : Instance} (e : p.Edited q)
    (hy : q.get? id = some y) : ∃ x, p.get? id = some x := by
  obtain ⟨t, ht, hg, _⟩ := get?_eq_some_iff.mp hy
  cases hx : p.occupant? id.index with
  | none =>
    have hfree := (e.occupant?_eq_none id.index).mpr hx
    rw [occupant?_of_get? hy] at hfree
    cases hfree
  | some x =>
    obtain ⟨s, hs, hsx⟩ := occupant?_eq_some_iff.mp hx
    obtain ⟨t', ht', hst⟩ := e.slots hs
    rw [ht] at ht'
    cases ht'
    exact ⟨x, get?_eq_some_iff.mpr ⟨s, hs, hst.generation.symm.trans hg, hsx⟩⟩

/-- An instance that is there afterwards was put there, or was there before and was not released. -/
theorem Step.came {id : InstanceId} {y : Instance} (t : Step increment known placed released p q)
    (hy : q.get? id = some y) :
    placed = some id ∨ (∃ x, p.get? id = some x) ∧ released ≠ some id := by
  cases t with
  | edit e => exact .inr ⟨e.exists_of_get? hy, nofun⟩
  | recycle _ threshold => exact .inr ⟨⟨y, hy⟩, nofun⟩
  | @place _ _ d c _ e =>
    obtain ⟨z, hz⟩ := e.exists_of_get? hy
    obtain ⟨s, hs, hg, hsz⟩ := get?_eq_some_iff.mp hz
    by_cases hi : id.index = (p.place increment d c).1.index
    · obtain ⟨u, hu, hug, _⟩ := p.getElem?_place_self increment d c
      rw [hi, hu] at hs
      cases hs
      exact .inl (congrArg some (InstanceId.ext hi.symm (hug.symm.trans hg)))
    · rw [p.getElem?_place_of_ne increment d c hi] at hs
      exact .inr ⟨⟨z, get?_eq_some_iff.mpr ⟨s, hs, hg, hsz⟩⟩, nofun⟩
  | @evict _ _ other x hother he =>
    obtain ⟨s, hs, hg, hsy⟩ := get?_eq_some_iff.mp hy
    by_cases hi : id.index = other.index
    · obtain ⟨_, _, _, hself⟩ := getElem?_evict_self he
      rw [hi, hself] at hs
      cases hs
      cases hsy
    · rw [getElem?_evict_of_ne he hi] at hs
      refine .inr ⟨⟨y, get?_eq_some_iff.mpr ⟨s, hs, hg, hsy⟩⟩, fun heq => hi ?_⟩
      rw [Option.some.inj heq]

/-- The generation of a slot goes up by one when its instance is released, and only then. -/
theorem Step.generation {i : Nat} {s : Slot} (t : Step increment known placed released p q)
    (hs : p.slots[i]? = some s) :
    ∃ s', q.slots[i]? = some s' ∧
      s'.generation = s.generation + (if released.any (·.index == i) then 1 else 0) := by
  cases t with
  | edit e =>
    obtain ⟨t, ht, hst⟩ := e.slots hs
    exact ⟨t, ht, by simp [hst.generation]⟩
  | recycle _ threshold => exact ⟨s, hs, by simp⟩
  | @place _ _ d c _ e =>
    have hplaced : ∃ s', (p.place increment d c).2.slots[i]? = some s' ∧
        s'.generation = s.generation := by
      by_cases hi : i = (p.place increment d c).1.index
      · rw [hi] at hs ⊢
        obtain ⟨u, hu, hug, _⟩ := p.getElem?_place_self increment d c
        exact ⟨_, hu, hug.trans (p.generation_place increment d c hs).symm⟩
      · rw [p.getElem?_place_of_ne increment d c hi]
        exact ⟨s, hs, rfl⟩
    obtain ⟨s', hs', hg⟩ := hplaced
    obtain ⟨t, ht, hst⟩ := e.slots hs'
    exact ⟨t, ht, by simp [hst.generation, hg]⟩
  | @evict _ _ id x hx he =>
    by_cases hi : i = id.index
    · obtain ⟨s', hs', _, hq⟩ := getElem?_evict_self he
      rw [← hi, hs] at hs'
      cases hs'
      exact ⟨_, hi ▸ hq, by simp [hi]⟩
    · rw [getElem?_evict_of_ne he hi]
      exact ⟨s, hs, by simp [Ne.symm hi]⟩

end

end Pool

/-! ## Whole runs -/

/-- How often transitions take an instance out of a slot. -/
def releases (ts : List Transition) (i : Nat) : Nat :=
  (ts.filterMap Transition.released?).countP (·.index == i)

theorem releases_cons (t : Transition) (ts : List Transition) (i : Nat) :
    releases (t :: ts) i = (if t.released?.any (·.index == i) then 1 else 0) + releases ts i := by
  unfold releases
  cases ht : t.released? with
  | none => simp [ht]
  | some id =>
    rw [List.filterMap_cons_some ht, List.countP_cons, Nat.add_comm]
    rfl

theorem releases_append (ts us : List Transition) (i : Nat) :
    releases (ts ++ us) i = releases ts i + releases us i := by
  unfold releases
  rw [List.filterMap_append, List.countP_append]

theorem released?_ne_of_releases_eq_zero {ts : List Transition} {id : InstanceId}
    (h : releases ts id.index = 0) : ∀ t ∈ ts, t.released? ≠ some id := by
  intro t ht hid
  have hmem : id ∈ ts.filterMap Transition.released? := List.mem_filterMap.mpr ⟨t, ht, hid⟩
  have hnot := List.countP_eq_zero.mp h id hmem
  exact hnot (beq_self_eq_true id.index)

theorem Transition.poolStep (t : Transition) :
    Pool.Step t.before.config.poolIncrement (fun _ => True) t.placed? t.released?
      t.before.pool t.after.pool :=
  t.step fun _ _ => trivial

namespace Path

section
variable {h h' : Heap} {ts : List Transition}

theorem generation (p : Path h ts h') {i : Nat} {s : Slot} (hs : h.pool.slots[i]? = some s) :
    ∃ s', h'.pool.slots[i]? = some s' ∧
      s'.generation = s.generation + UInt32.ofNat (releases ts i) := by
  induction p generalizing s with
  | nil => exact ⟨s, hs, by simp [releases]⟩
  | cons t _ ih =>
    obtain ⟨s₁, hs₁, hg₁⟩ := t.poolStep.generation hs
    obtain ⟨s₂, hs₂, hg₂⟩ := ih hs₁
    refine ⟨s₂, hs₂, ?_⟩
    rw [hg₂, hg₁, releases_cons, UInt32.ofNat_add, UInt32.add_assoc]
    split <;> rfl

/-- A slot that is back at a generation has not been released, unless the generations went
round. -/
theorem releases_eq_zero (p : Path h ts h') {i : Nat} {s s' : Slot}
    (few : releases ts i < UInt32.size) (hs : h.pool.slots[i]? = some s)
    (hs' : h'.pool.slots[i]? = some s') (same : s'.generation = s.generation) :
    releases ts i = 0 := by
  obtain ⟨s'', hs'', hg⟩ := p.generation hs
  cases hs'.symm.trans hs''
  rw [same] at hg
  have hnat := congrArg UInt32.toNat hg
  rw [UInt32.toNat_add, UInt32.toNat_ofNat'] at hnat
  have hlt := s.generation.toNat_lt
  unfold UInt32.size at few
  omega

theorem contains (p : Path h ts h') {id : InstanceId} (sound : h.SoundPool)
    (hid : ∃ x, h.pool.get? id = some x) (kept : ∀ t ∈ ts, t.released? ≠ some id) :
    ∃ x, h'.pool.get? id = some x := by
  induction p with
  | nil => exact hid
  | cons t _ ih =>
    obtain ⟨x, hx⟩ := hid
    obtain ⟨y, hy, _⟩ := t.poolStep.keeps sound.sound hx (kept t List.mem_cons_self)
    exact ih (t.soundPool sound) ⟨y, hy⟩ fun u hu => kept u (List.mem_cons_of_mem t hu)

/-- An instance is there at the end of a path if it is not released on the way, and not
otherwise. -/
theorem contains_iff (p : Path h ts h') {id : InstanceId} (sound : h.SoundPool)
    (few : releases ts id.index < UInt32.size) (hid : ∃ x, h.pool.get? id = some x) :
    h'.contains (.ref id) = true ↔ ∀ t ∈ ts, t.released? ≠ some id := by
  constructor
  · intro hc
    obtain ⟨x, hx⟩ := hid
    obtain ⟨y, hy⟩ := Option.isSome_iff_exists.mp hc
    obtain ⟨s, hs, hg, _⟩ := Pool.get?_eq_some_iff.mp hx
    obtain ⟨s', hs', hg', _⟩ := Pool.get?_eq_some_iff.mp hy
    exact released?_ne_of_releases_eq_zero (p.releases_eq_zero few hs hs' (hg'.trans hg.symm))
  · intro kept
    obtain ⟨y, hy⟩ := p.contains sound hid kept
    exact Option.isSome_iff_exists.mpr ⟨y, hy⟩

theorem placed?_ne (p : Path h ts h') {id : InstanceId} (sound : h.SoundPool)
    (few : releases ts id.index < UInt32.size) (hid : ∃ x, h.pool.get? id = some x) :
    ∀ u ∈ ts, u.placed? ≠ some id := by
  intro u hu hplaced
  obtain ⟨us, vs, rfl⟩ := List.append_of_mem hu
  obtain ⟨h₁, p₁, p₂⟩ := p.split
  cases p₂ with
  | cons _ p₂ =>
    have sound₁ := p₁.soundPool sound
    have hstep := u.poolStep
    rw [hplaced] at hstep
    obtain ⟨hfree, _, hgen⟩ := hstep.of_placed sound₁.sound
    have few₁ : releases us id.index < UInt32.size := by
      rw [releases_append] at few
      omega
    -- the slot has been issued, so the name is given again only at the generation it had
    obtain ⟨x, hx⟩ := hid
    obtain ⟨s, hs, hg, _⟩ := Pool.get?_eq_some_iff.mp hx
    obtain ⟨s', hs', _⟩ := p₁.generation hs
    have hzero := p₁.releases_eq_zero few₁ hs hs' ((hgen s' hs').trans hg.symm)
    obtain ⟨y, hy⟩ := p₁.contains sound ⟨x, hx⟩ (released?_ne_of_releases_eq_zero hzero)
    rw [Pool.occupant?_of_get? hy] at hfree
    cases hfree

theorem nodup_placed (p : Path h ts h') (sound : h.SoundPool)
    (few : ∀ i, releases ts i < UInt32.size) : (ts.filterMap Transition.placed?).Nodup := by
  induction p with
  | nil => exact .nil
  | @cons t ts _ p ih =>
    have few' : ∀ i, releases ts i < UInt32.size := by
      intro i
      have := few i
      rw [releases_cons] at this
      omega
    have sound' := t.soundPool sound
    have hrest := ih sound' few'
    cases hid : t.placed? with
    | none => rwa [List.filterMap_cons_none hid]
    | some id =>
      rw [List.filterMap_cons_some hid, List.nodup_cons]
      refine ⟨fun hmem => ?_, hrest⟩
      obtain ⟨u, hu, hu'⟩ := List.mem_filterMap.mp hmem
      have hstep := t.poolStep
      rw [hid] at hstep
      exact p.placed?_ne sound' (few' _) (hstep.of_placed sound.sound).2.1 u hu hu'

end

end Path

/-! ## Sessions -/

section
open Run
variable {r : Runner} {d : Descriptor} {p : Payload} {w w' : World} {v : Value}

theorem allocate_eq_ok (h : (allocate r d p).run.exec w = (.ok (.ok v), w')) :
    ∃ w₁, (collectIfDue r).exec w = (.ok (), w₁) ∧ v = .ref (w₁.heap.place d p).1 ∧
      w'.heap = (w₁.heap.place d p).2 ∧
      (allocate r d p).run.trace w = (collectIfDue r).trace w ++ [⟨.place d p, w₁.heap⟩] := by
  rcases Nat.lt_or_ge d.index w.heap.registry.size with known | unknown
  · obtain ⟨htrace, hexec⟩ := allocate_of_known (r := r) (p := p) known
    rw [hexec, Attempt.exec_lift] at h
    rcases hdue : (collectIfDue r).exec w with ⟨why | _, w₁⟩
    · rw [(allocateNow_of_error hdue).2] at h
      cases h
    · obtain ⟨hplace, hv, hheap⟩ := allocateNow_of_ok (d := d) (p := p) hdue
      rcases hnow : (allocateNow r d p).exec w with ⟨why | v', w₂⟩
      · rw [hnow] at h
        cases h
      · rw [hnow] at h hv hheap
        cases h
        cases hv
        exact ⟨w₁, rfl, rfl, hheap, htrace.trans hplace⟩
  · rw [(allocate_of_unknown unknown).2] at h
    cases h

theorem allocate_ok (h : (allocate r d p).run.exec w = (.ok (.ok v), w')) :
    ∃ h', v = .ref (h'.place d p).1 ∧
      (allocate r d p).run.trace w = (collectIfDue r).trace w ++ [⟨.place d p, h'⟩] := by
  obtain ⟨w₁, _, hv, _, htrace⟩ := allocate_eq_ok h
  exact ⟨w₁.heap, hv, htrace⟩

theorem allocate_placed (h : (allocate r d p).run.exec w = (.ok (.ok v), w')) :
    ∃ id t, v = .ref id ∧ t.placed? = some id ∧
      ((allocate r d p).run.trace w).getLast? = some t := by
  obtain ⟨h', hv, htrace⟩ := allocate_ok h
  refine ⟨(h'.place d p).1, ⟨.place d p, h'⟩, hv, rfl, ?_⟩
  rw [htrace]
  exact List.getLast?_concat

end

/-- References never come back to life.  What an allocation gives is the name of the instance that
its last transition placed.  In a session that releases no slot 2³² times, whatever its callbacks
do, no name is given to two instances; and from the moment `t` at which an instance gets its name,
the name stands for an instance just as long as that one is not released. -/
theorem Session.names_never_return (s : Session) (r : Runner) (valid : s.config.fault? = none)
    (few : ∀ i, releases (s.history r) i < UInt32.size) :
    (∀ d p w v w', (allocate r d p).run.exec w = (.ok (.ok v), w') →
        ∃ id t, v = .ref id ∧ t.placed? = some id ∧
          ((allocate r d p).run.trace w).getLast? = some t) ∧
      ((s.history r).filterMap Transition.placed?).Nodup ∧
      ∀ (past since rest : List Transition) (t : Transition) (id : InstanceId),
        s.history r = past ++ (t :: since ++ rest) → t.placed? = some id →
        (((t :: since).getLast (List.cons_ne_nil t since)).after.contains (.ref id) = true ↔
          ∀ u ∈ since, u.released? ≠ some id) := by
  have start := Heap.soundPool_new valid
  obtain ⟨_, path⟩ := s.path_history r
  refine ⟨fun d p w v w' => allocate_placed, path.nodup_placed start few,
    fun past since rest t id heq hid => ?_⟩
  have few' := few id.index
  rw [heq, releases_append, releases_append, releases_cons] at few'
  rw [heq] at path
  obtain ⟨h₁, ppast, path⟩ := path.split
  obtain ⟨h₂, path, _⟩ := path.split
  rw [← path.eq_after_getLast (List.cons_ne_nil t since)]
  cases path with
  | cons _ psince =>
    have sound := (ppast.invariant (fun t _ => t.soundPool) start).1
    have hstep := t.poolStep
    rw [hid] at hstep
    exact psince.contains_iff (t.soundPool sound) (by omega) (hstep.of_placed sound.sound).2.1

theorem releases_le_length (ts : List Transition) (i : Nat) : releases ts i ≤ ts.length :=
  Nat.le_trans List.countP_le_length (List.length_filterMap_le _ _)

def slotReuse : Session where
  config := { reuseThreshold := 1 }
  containers := false
  steps := [.op (.register "cell" none), .op (.alloc .unit (.index ⟨0⟩)), .op .collect,
    .op (.alloc .unit (.index ⟨0⟩))]

theorem Session.names_never_return_slotReuse :
    (slotReuse.history (.ofDepth 3)).filterMap Transition.placed? = [⟨0, 0⟩, ⟨0, 1⟩] ∧
      ∃ past since rest t, slotReuse.history (.ofDepth 3) = past ++ (t :: since ++ rest) ∧
        t.placed? = some ⟨0, 0⟩ ∧ some ⟨0, 1⟩ ∈ since.map Transition.placed? ∧
        ((t :: since).getLast (List.cons_ne_nil t since)).after.contains (.ref ⟨0, 0⟩) = false := by
  have few : (slotReuse.history (.ofDepth 3)).length < UInt32.size := by decide +kernel
  obtain ⟨_, _, stands⟩ := slotReuse.names_never_return (.ofDepth 3) rfl
    fun i => Nat.lt_of_le_of_lt (releases_le_length _ i) few
  have hlen : 1 < (slotReuse.history (.ofDepth 3)).length := by decide +kernel
  have hcut : slotReuse.history (.ofDepth 3) = (slotReuse.history (.ofDepth 3)).take 1 ++
      ((slotReuse.history (.ofDepth 3)).get ⟨1, hlen⟩ ::
        ((slotReuse.history (.ofDepth 3)).drop 2).take 7 ++
          ((slotReuse.history (.ofDepth 3)).drop 2).drop 7) := by
    rw [List.cons_append, List.take_append_drop]
    exact (List.take_append_drop 1 _).symm.trans
      (congrArg _ (List.drop_eq_getElem_cons hlen))
  have hplaced : ((slotReuse.history (.ofDepth 3)).get ⟨1, hlen⟩).placed? = some ⟨0, 0⟩ := by rfl
  refine ⟨by decide +kernel, _, _, _, _, hcut, hplaced, by decide +kernel, ?_⟩
  -- the first instance is released between the two allocations
  have hreleased : some ⟨0, 0⟩ ∈
      (((slotReuse.history (.ofDepth 3)).drop 2).take 7).map Transition.released? := by
    decide +kernel
  obtain ⟨u, hu, hid⟩ := List.mem_map.mp hreleased
  exact Bool.eq_false_iff.mpr fun hc => (stands _ _ _ _ _ hcut hplaced).mp hc u hu hid

end TracedHeap
