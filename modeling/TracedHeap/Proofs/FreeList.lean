import Mathlib.Order.Bounds.Basic
import TracedHeap.Proofs.Slots

/-!
# The free list

The freed slots are chained through the slots themselves.  This module shows that no step of the
pool damages the chain or the counters beside it.

* `Pool.FreeChain`   going along the chain from a slot;
* `Pool.FreeList`    the chain from its head: each freed slot once, and as many as are counted, with
                     what each change of the pool does to it;
* `Pool.Sound`       the free list, the counters, the latch and the capacity are as they should be;
* `Pool.Step.sound`  every step of the pool keeps all of this, and so does every transition
                     (`Transition.soundPool`).
-/

namespace TracedHeap

namespace Pool

/-! ## The chain -/

/-- `l` is what one meets going along the free list, from a slot on to the end. -/
inductive FreeChain (p : Pool) : Option Nat → List Nat → Prop where
  | nil : FreeChain p none []
  | cons {i : Nat} {s : Slot} {l : List Nat} :
      p.slots[i]? = some s → FreeChain p s.nextFree l → FreeChain p (some i) (i :: l)

theorem FreeChain.congr {p q : Pool} {from? : Option Nat} {l : List Nat} (h : p.FreeChain from? l)
    (same : ∀ i ∈ l, ∀ s, p.slots[i]? = some s →
      ∃ t, q.slots[i]? = some t ∧ t.nextFree = s.nextFree) : q.FreeChain from? l := by
  induction h with
  | nil => exact .nil
  | cons hs _ ih =>
    obtain ⟨t, ht, hn⟩ := same _ List.mem_cons_self _ hs
    have hrest := ih fun j hj => same j (List.mem_cons_of_mem _ hj)
    rw [← hn] at hrest
    exact .cons ht hrest

/-- The free list of a pool: the chain from its head meets each freed slot, and each once. -/
structure FreeList (p : Pool) (l : List Nat) : Prop where
  chain : p.FreeChain p.freeHead l
  nodup : l.Nodup
  mem_iff : ∀ i, i ∈ l ↔ i < p.issued ∧ p.occupant? i = none
  length : l.length = p.freeLen

/-- The free list, the counters, the latch and the capacity are as they should be. -/
structure Sound (increment : Nat) (p : Pool) : Prop where
  free : ∃ l, p.FreeList l
  count : p.live + p.freeLen = p.issued
  latch : p.recycling = true → p.freeHead ≠ none
  capacity : IsLeast {m | increment ∣ m ∧ p.issued ≤ m} p.capacity

theorem Sound.live_eq {increment : Nat} {p : Pool} (h : p.Sound increment) :
    p.live = p.instances.length := by
  obtain ⟨l, hl⟩ := h.free
  have hperm : (l ++ p.instances.map fun e => e.1.index).Perm (List.range p.issued) := by
    refine (List.perm_ext_iff_of_nodup ?_ List.nodup_range).mpr fun i => ?_
    · refine List.nodup_append.mpr ⟨hl.nodup, p.nodup_instances, fun i hi j hj hij => ?_⟩
      subst hij
      exact mem_index_instances.mp hj ((hl.mem_iff i).mp hi).2
    · rw [List.mem_append, hl.mem_iff, mem_index_instances, List.mem_range]
      constructor
      · rintro (⟨hi, _⟩ | hi)
        · exact hi
        · obtain ⟨x, hx⟩ := Option.ne_none_iff_exists'.mp hi
          exact lt_issued_of_occupant? hx
      · intro hi
        by_cases ho : p.occupant? i = none
        · exact Or.inl ⟨hi, ho⟩
        · exact Or.inr ho
  have hlen := hperm.length_eq
  rw [List.length_append, List.length_map, List.length_range, hl.length] at hlen
  have := h.count
  omega

theorem Sound.live_pos {increment i : Nat} {p : Pool} {x : Instance} (h : p.Sound increment)
    (hx : p.occupant? i = some x) : 0 < p.live := by
  have hmem : i ∈ p.instances.map fun e => e.1.index := by
    rw [mem_index_instances, hx]
    exact Option.some_ne_none x
  rw [h.live_eq, ← List.length_map (f := fun e : InstanceId × Instance => e.1.index)]
  exact List.length_pos_of_mem hmem

theorem Sound.freeLen_pos {increment : Nat} {p : Pool} (h : p.Sound increment)
    (hh : p.freeHead ≠ none) : 0 < p.freeLen := by
  obtain ⟨l, hl⟩ := h.free
  have hc := hl.chain
  rw [← hl.length]
  cases hc' : p.freeHead with
  | none => exact absurd hc' hh
  | some i =>
    rw [hc'] at hc
    cases hc
    exact Nat.succ_pos _

theorem Sound.occupant?_freeHead {increment i : Nat} {p : Pool} (h : p.Sound increment)
    (hi : p.freeHead = some i) : p.occupant? i = none := by
  obtain ⟨l, hl⟩ := h.free
  have hc := hl.chain
  rw [hi] at hc
  cases hc
  exact ((hl.mem_iff i).mp List.mem_cons_self).2

/-- A new instance comes into a slot that is free. -/
theorem Sound.occupant?_place {increment : Nat} {p : Pool} (h : p.Sound increment)
    (d : Descriptor) (c : Payload) : p.occupant? (p.place increment d c).1.index = none := by
  rcases p.place_cases increment d c with heq | ⟨i, s, _, hi, _, heq⟩
  · rw [heq]
    show (p.slots[p.slots.size]?).bind Slot.occupant = none
    simp
  · rw [heq]
    exact h.occupant?_freeHead hi

/-- A new instance is blank: whatever its slot held before, nothing of it is left. -/
theorem Sound.getElem?_place {increment : Nat} {p : Pool} (h : p.Sound increment)
    (d : Descriptor) (c : Payload) :
    ∃ s, (p.place increment d c).2.slots[(p.place increment d c).1.index]? = some s ∧
      s.generation = (p.place increment d c).1.generation ∧
      s.occupant = some { descriptor := d, payload := c } := by
  obtain ⟨s, hs, hg, hfree⟩ := p.getElem?_place_self increment d c
  exact ⟨_, hs, hg, Slot.occupant_occupy (hfree (h.occupant?_place d c)) d c⟩

theorem Sound.get?_place_self {increment : Nat} {p : Pool} (h : p.Sound increment)
    (d : Descriptor) (c : Payload) :
    (p.place increment d c).2.get? (p.place increment d c).1 =
      some { descriptor := d, payload := c } := get?_eq_some_iff.mpr (h.getElem?_place d c)

theorem Sound.ne_place {increment : Nat} {p : Pool} (h : p.Sound increment) {id : InstanceId}
    {x : Instance} (hx : p.get? id = some x) (d : Descriptor) (c : Payload) :
    id ≠ (p.place increment d c).1 := by
  rintro rfl
  cases (get?_eq_none_of_occupant? (h.occupant?_place d c)).symm.trans hx

theorem Sound.get?_place {increment : Nat} {p : Pool} (h : p.Sound increment) (d : Descriptor)
    (c : Payload) {id : InstanceId} (hne : id ≠ (p.place increment d c).1) :
    (p.place increment d c).2.get? id = p.get? id := by
  by_cases hi : id.index = (p.place increment d c).1.index
  · -- the slot was free, and its generation is another one
    obtain ⟨s, hs, hg, _⟩ := h.getElem?_place d c
    have hgen : s.generation ≠ id.generation :=
      fun heq => hne (InstanceId.ext hi (heq.symm.trans hg))
    have hnone : p.get? id = none := get?_eq_none_of_occupant? (hi ▸ h.occupant?_place d c)
    rw [hnone, get?, hi, hs]
    exact if_neg hgen
  · unfold get?
    rw [p.getElem?_place_of_ne increment d c hi]

/-! ## What the steps do to the free list -/

theorem FreeChain.head?_eq {p : Pool} {from? : Option Nat} {l : List Nat}
    (h : p.FreeChain from? l) : l.head? = from? := by
  cases h <;> rfl

namespace FreeList

variable {p q : Pool} {l : List Nat} {i : Nat}

theorem fresh : FreeList {} [] := ⟨.nil, .nil, by simp [issued], rfl⟩

theorem edit (hl : p.FreeList l) (e : p.Edited q) : q.FreeList l := by
  have hissued : q.issued = p.issued := e.size
  refine ⟨?_, hl.nodup, fun i => ?_, ?_⟩
  · rw [e.freeHead]
    refine hl.chain.congr fun i _ s hs => ?_
    obtain ⟨t, ht, hst⟩ := e.slots hs
    exact ⟨t, ht, hst.nextFree⟩
  · rw [hl.mem_iff, hissued, e.occupant?_eq_none]
  · rw [hl.length, e.freeLen]

theorem recycle (hl : p.FreeList l) (threshold : Nat) :
    (p.updateRecycling threshold).FreeList l :=
  ⟨hl.chain.congr fun _ _ s hs => ⟨s, hs, rfl⟩, hl.nodup, hl.mem_iff, hl.length⟩

theorem placeFresh (hl : p.FreeList l) (increment : Nat) (d : Descriptor) (c : Payload) :
    (p.placeFresh increment d c).2.FreeList l := by
  have hlt : ∀ i ∈ l, i < p.slots.size := fun i hi => ((hl.mem_iff i).mp hi).1
  have hold : ∀ i, i < p.slots.size →
      (p.placeFresh increment d c).2.slots[i]? = p.slots[i]? := by
    intro i hi
    show (p.slots.push _)[i]? = _
    rw [Array.getElem?_push, if_neg (Nat.ne_of_lt hi)]
  have hissued : (p.placeFresh increment d c).2.issued = p.issued + 1 := Array.size_push ..
  refine ⟨?_, hl.nodup, fun i => ?_, hl.length⟩
  · exact hl.chain.congr fun i hi s hs => ⟨s, by rw [hold i (hlt i hi)]; exact hs, rfl⟩
  · rw [hl.mem_iff, hissued]
    constructor
    · rintro ⟨hi, ho⟩
      exact ⟨Nat.lt_succ_of_lt hi, by unfold occupant?; rw [hold i hi]; exact ho⟩
    · rintro ⟨hi, ho⟩
      unfold occupant? at ho
      rcases Nat.lt_succ_iff_lt_or_eq.mp hi with hi | rfl
      · rw [hold i hi] at ho
        exact ⟨hi, ho⟩
      · -- the new slot itself is not free
        have hnew : (p.placeFresh increment d c).2.slots[p.issued]? =
            some (({} : Slot).occupy d c) := Array.getElem?_push_size
        rw [hnew] at ho
        cases ho

theorem placeFreed {s : Slot} (hl : p.FreeList (i :: l)) (hs : p.slots[i]? = some s)
    (d : Descriptor) (c : Payload) : (p.placeFreed i s d c).2.FreeList l := by
  have hc := hl.chain
  rw [← hc.head?_eq] at hc
  cases hc with
  | @cons _ s' _ hs' hc =>
    obtain rfl : s = s' := Option.some.inj (hs.symm.trans hs')
    have hnot : i ∉ l := (List.nodup_cons.mp hl.nodup).1
    have hother : ∀ j, i ≠ j → (p.placeFreed i s d c).2.slots[j]? = p.slots[j]? := by
      intro j hj
      show (p.slots.modify i _)[j]? = _
      rw [Array.getElem?_modify, if_neg hj]
    have hself : (p.placeFreed i s d c).2.occupant? i ≠ none := by
      show (((p.slots.modify i _)[i]?).bind Slot.occupant) ≠ none
      rw [Array.getElem?_modify, if_pos rfl, hs]
      exact Option.some_ne_none _
    have hissued : (p.placeFreed i s d c).2.issued = p.issued := Array.size_modify
    have hlen : l.length + 1 = p.freeLen := hl.length
    refine ⟨?_, (List.nodup_cons.mp hl.nodup).2, fun j => ?_, ?_⟩
    · refine hc.congr fun j hj t ht => ⟨t, ?_, rfl⟩
      rw [hother j fun hij => hnot (hij ▸ hj)]
      exact ht
    · by_cases hij : i = j
      · subst hij
        simp [hnot, hself]
      · have hmem := hl.mem_iff j
        rw [List.mem_cons, or_iff_right (Ne.symm hij)] at hmem
        rw [hmem, hissued]
        unfold occupant?
        rw [hother j hij]
    · show l.length = p.freeLen - 1
      omega

theorem evict {x : Instance} (hl : p.FreeList l) (he : p.evict i = some (x, q)) :
    q.FreeList (i :: l) := by
  obtain ⟨s, hs, hsx, hself⟩ := getElem?_evict_self he
  have hother := fun j => getElem?_evict_of_ne (j := j) he
  obtain ⟨y, _, heq⟩ := Option.map_eq_some_iff.mp he
  cases heq
  have hnot : i ∉ l := by
    intro hi
    have hnone := ((hl.mem_iff i).mp hi).2
    rw [occupant?_eq_some_iff.mpr ⟨s, hs, hsx⟩] at hnone
    cases hnone
  have hissued : (p.slots.modify i fun s => s.vacate p.freeHead).size = p.issued :=
    Array.size_modify
  refine ⟨.cons hself ?_, List.nodup_cons.mpr ⟨hnot, hl.nodup⟩, fun j => ?_, ?_⟩
  · refine hl.chain.congr fun j hj t ht => ⟨t, ?_, rfl⟩
    rw [hother j fun hij => hnot (hij ▸ hj)]
    exact ht
  · rw [List.mem_cons, hl.mem_iff]
    unfold occupant?
    show _ ↔ j < Array.size _ ∧ _
    rw [hissued]
    by_cases hij : j = i
    · subst hij
      rw [hself]
      simp [issued, (Array.getElem?_eq_some_iff.mp hs).1]
    · rw [hother j hij]
      simp [hij]
  · show l.length + 1 = p.freeLen + 1
    rw [hl.length]

end FreeList

/-! ## The steps keep the pool sound -/

theorem sound_fresh {increment : Nat} : Sound increment {} where
  free := ⟨[], .fresh⟩
  count := rfl
  latch h := by cases h
  capacity := ⟨⟨Nat.dvd_zero _, Nat.le_refl _⟩, fun _ _ => Nat.zero_le _⟩

theorem Sound.edit {increment : Nat} {p q : Pool} (h : p.Sound increment) (e : p.Edited q) :
    q.Sound increment := by
  obtain ⟨l, hl⟩ := h.free
  have hissued : q.issued = p.issued := e.size
  refine ⟨⟨l, hl.edit e⟩, ?_, ?_, ?_⟩
  · rw [e.live, e.freeLen, hissued]
    exact h.count
  · rw [e.recycling, e.freeHead]
    exact h.latch
  · rw [hissued, e.capacity]
    exact h.capacity

theorem Sound.recycle {increment : Nat} {p : Pool} (h : p.Sound increment) (threshold : Nat) :
    (p.updateRecycling threshold).Sound increment := by
  obtain ⟨l, hl⟩ := h.free
  refine ⟨⟨l, hl.recycle threshold⟩, h.count, fun hr => ?_, h.capacity⟩
  rcases Bool.or_eq_true_iff.mp hr with hr | hr
  · exact h.latch hr
  · -- a list that is long enough to recycle has a first slot
    intro hnone
    have hc := hl.chain
    have hpos : 0 < p.freeLen := by
      rw [Bool.and_eq_true] at hr
      exact of_decide_eq_true hr.1
    have hhead : p.freeHead = none := hnone
    rw [hhead] at hc
    cases hc
    rw [← hl.length] at hpos
    exact absurd hpos (by simp)

/-- When the pool is full and one slot more is needed, one increment more is the least that will
do. -/
theorem isLeast_grow {increment n c : Nat} (pos : 0 < increment)
    (h : IsLeast {m | increment ∣ m ∧ n ≤ m} c) :
    IsLeast {m | increment ∣ m ∧ n + 1 ≤ m} (if n = c then c + increment else c) := by
  obtain ⟨⟨hdvd, hle⟩, hleast⟩ := h
  split
  · next hfull =>
    refine ⟨⟨Nat.dvd_add hdvd (Nat.dvd_refl _), by omega⟩, fun m hm => ?_⟩
    have hstep : increment ≤ m - c :=
      Nat.le_of_dvd (by have := hm.2; omega) (Nat.dvd_sub hm.1 hdvd)
    have := hm.2
    omega
  · next hroom =>
    refine ⟨⟨hdvd, Nat.lt_of_le_of_ne hle hroom⟩, fun m hm => hleast ⟨hm.1, ?_⟩⟩
    exact Nat.le_of_succ_le hm.2

theorem Sound.placeFresh {increment : Nat} {p : Pool} (pos : 0 < increment)
    (h : p.Sound increment) (d : Descriptor) (c : Payload) :
    (p.placeFresh increment d c).2.Sound increment := by
  obtain ⟨l, hl⟩ := h.free
  have hissued : (p.placeFresh increment d c).2.issued = p.issued + 1 := Array.size_push ..
  refine ⟨⟨l, hl.placeFresh increment d c⟩, ?_, h.latch, ?_⟩
  · have := h.count
    show p.live + 1 + p.freeLen = _
    rw [hissued]
    omega
  · rw [hissued]
    show IsLeast _ (if p.issued = p.capacity then p.capacity + increment else p.capacity)
    exact isLeast_grow pos h.capacity

theorem Sound.placeFreed {increment i : Nat} {p : Pool} {s : Slot} (h : p.Sound increment)
    (hi : p.freeHead = some i) (hs : p.slots[i]? = some s) (d : Descriptor) (c : Payload) :
    (p.placeFreed i s d c).2.Sound increment := by
  obtain ⟨l, hl⟩ := h.free
  have hhead := hl.chain.head?_eq
  rw [hi] at hhead
  obtain ⟨l, rfl⟩ := List.head?_eq_some_iff.mp hhead
  have hissued : (p.placeFreed i s d c).2.issued = p.issued := Array.size_modify
  have hlen : l.length + 1 = p.freeLen := hl.length
  refine ⟨⟨l, hl.placeFreed hs d c⟩, ?_, fun hr => ?_, ?_⟩
  · have := h.count
    show p.live + 1 + (p.freeLen - 1) = _
    rw [hissued]
    omega
  · show s.nextFree ≠ none
    exact Option.isSome_iff_ne_none.mp (Bool.and_eq_true_iff.mp hr).2
  · rw [hissued]
    exact h.capacity

theorem Sound.place {increment : Nat} {p : Pool} (pos : 0 < increment) (h : p.Sound increment)
    (d : Descriptor) (c : Payload) : (p.place increment d c).2.Sound increment := by
  rcases p.place_cases increment d c with heq | ⟨i, s, _, hi, hs, heq⟩
  · rw [heq]
    exact h.placeFresh pos d c
  · rw [heq]
    exact h.placeFreed hi hs d c

theorem Sound.evict {increment i : Nat} {p q : Pool} {x : Instance} (h : p.Sound increment)
    (he : p.evict i = some (x, q)) : q.Sound increment := by
  obtain ⟨l, hl⟩ := h.free
  have hfree := hl.evict he
  obtain ⟨s, hs, hsx, _⟩ := getElem?_evict_self he
  have hlive := h.live_pos (occupant?_eq_some_iff.mpr ⟨s, hs, hsx⟩)
  obtain ⟨y, _, heq⟩ := Option.map_eq_some_iff.mp he
  cases heq
  have hissued : (p.slots.modify i fun s => s.vacate p.freeHead).size = p.issued :=
    Array.size_modify
  refine ⟨⟨i :: l, hfree⟩, ?_, fun _ => Option.some_ne_none i, ?_⟩
  · have := h.count
    show p.live - 1 + (p.freeLen + 1) = Array.size _
    rw [hissued]
    omega
  · show IsLeast {m | increment ∣ m ∧ Array.size _ ≤ m} p.capacity
    rw [hissued]
    exact h.capacity

/-- Every step keeps the pool sound. -/
theorem Step.sound {increment : Nat} {known : Descriptor → Prop}
    {placed released : Option InstanceId} {p q : Pool} (pos : 0 < increment)
    (t : Step increment known placed released p q) (h : p.Sound increment) :
    q.Sound increment := by
  cases t with
  | edit e => exact h.edit e
  | recycle _ threshold => exact h.recycle threshold
  | place _ e => exact (h.place pos _ _).edit e
  | evict _ he => exact h.evict he

end Pool

/-! ## Sound pools in heaps -/

/-- The pool of a heap is sound, and grows when it has to. -/
structure Heap.SoundPool (h : Heap) : Prop where
  positive : 0 < h.config.poolIncrement
  sound : h.pool.Sound h.config.poolIncrement

theorem Heap.soundPool_new {c : Config} (valid : c.fault? = none) : (Heap.new c).SoundPool where
  positive := by
    refine Nat.pos_of_ne_zero fun (hzero : c.poolIncrement = 0) => ?_
    rw [Config.fault?, if_pos hzero] at valid
    cases valid
  sound := Pool.sound_fresh

theorem Transition.soundPool (t : Transition) (h : t.before.SoundPool) : t.after.SoundPool := by
  have step := t.step (fun _ _ => trivial : ∀ d ∈ t.action.placedType?, True)
  refine ⟨?_, ?_⟩
  · rw [t.keepsTypes.config]
    exact h.positive
  · rw [t.keepsTypes.config]
    exact step.sound h.positive h.sound

theorem Path.soundPool {h h' : Heap} {ts : List Transition} (p : Path h ts h')
    (sound : h.SoundPool) : h'.SoundPool :=
  (p.invariant (fun t _ => t.soundPool) sound).1

end TracedHeap
