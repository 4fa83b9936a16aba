import TracedHeap.Proofs.Trace

/-!
# What a transition does to the pool

Whatever a transition does, the pool sees one of four things.

* `Pool.Edited`       instances change inside, and all else stays: which slots hold an instance,
                      the generations, the free list and the counters;
* `Pool.Step`         the pool is edited, may start recycling, gains an instance or loses one;
* `Transition.step`   every transition is a step of the pool.

`Instance.Sound` is what the pool keeps of each instance by itself: it counts as protected exactly
while some protection is not lifted, and its type is one of the `known` ones.
-/

namespace TracedHeap

/-- The type of an instance is known, and the instance is protected exactly while some protection
is not lifted. -/
structure Instance.Sound (known : Descriptor → Prop) (x : Instance) : Prop where
  known : known x.descriptor
  protected_iff : x.isProtected = true ↔ x.protections ≠ 0

structure Instance.Edited (x y : Instance) : Prop where
  descriptor : y.descriptor = x.descriptor
  protected_iff : (x.isProtected = true ↔ x.protections ≠ 0) →
    (y.isProtected = true ↔ y.protections ≠ 0)
  permanent : x.permanent = true → y.permanent = true

namespace Instance

theorem Edited.refl (x : Instance) : x.Edited x := ⟨rfl, id, id⟩

theorem Edited.trans {x y z : Instance} (h : x.Edited y) (h' : y.Edited z) : x.Edited z :=
  ⟨h'.descriptor.trans h.descriptor, h'.protected_iff ∘ h.protected_iff,
    h'.permanent ∘ h.permanent⟩

theorem Edited.sound {x y : Instance} {known : Descriptor → Prop} (h : x.Edited y)
    (hx : x.Sound known) : y.Sound known :=
  ⟨h.descriptor ▸ hx.known, h.protected_iff hx.protected_iff⟩

theorem edited_protect (x : Instance) : x.Edited x.protect := by
  refine ⟨rfl, fun _ => ?_, id⟩
  have hpos : min (x.protections + 1) maxProtections ≠ 0 := by
    have : 0 < maxProtections := by decide
    omega
  exact iff_of_true rfl hpos

theorem edited_unprotect (x : Instance) : x.Edited x.unprotect := by
  refine ⟨rfl, fun hx => ?_, id⟩
  show (if x.protections - 1 = 0 then false else x.isProtected) = true ↔ x.protections - 1 ≠ 0
  split
  · next h => simp [h]
  · next h =>
    have hpos : x.protections ≠ 0 := by omega
    simp [h, hx.mpr hpos]

theorem edited_advance (x : Instance) (len : Nat) : x.Edited (x.advance len).2 := by
  unfold advance
  split <;> exact ⟨rfl, id, id⟩

end Instance

theorem Change.edited (c : Change) (x : Instance) : x.Edited (c.apply x) := by
  cases c with
  | protect => exact x.edited_protect
  | unprotect => exact x.edited_unprotect
  | advanceCursor len => exact x.edited_advance len
  | makePermanent => exact ⟨rfl, id, fun _ => rfl⟩
  | _ => exact ⟨rfl, id, id⟩

structure Slot.Edited (s t : Slot) : Prop where
  generation : t.generation = s.generation
  nextFree : t.nextFree = s.nextFree
  occupant : Option.Rel Instance.Edited s.occupant t.occupant

namespace Slot

theorem Edited.refl (s : Slot) : s.Edited s := by
  refine ⟨rfl, rfl, ?_⟩
  cases s.occupant with
  | none => exact .none
  | some x => exact .some (.refl x)

theorem Edited.trans {s t u : Slot} (h : s.Edited t) (h' : t.Edited u) : s.Edited u := by
  refine ⟨h'.generation.trans h.generation, h'.nextFree.trans h.nextFree, ?_⟩
  have ho := h.occupant
  have ho' := h'.occupant
  cases hs : s.occupant <;> cases ht : t.occupant <;> cases hu : u.occupant <;>
    rw [hs, ht] at ho <;> rw [ht, hu] at ho' <;> cases ho <;> cases ho'
  · exact .none
  · next hxy hyz => exact .some (hxy.trans hyz)

theorem edited_update (s : Slot) {f : Instance → Instance} (hf : ∀ x : Instance, x.Edited (f x)) :
    s.Edited (s.update f) := by
  refine ⟨s.generation_update f, s.nextFree_update f, ?_⟩
  rw [s.occupant_update f]
  cases s.occupant with
  | none => exact .none
  | some x => exact .some (hf x)

end Slot

namespace Pool

theorem get?_eq_some_iff {p : Pool} {id : InstanceId} {x : Instance} :
    p.get? id = some x ↔
      ∃ s, p.slots[id.index]? = some s ∧ s.generation = id.generation ∧ s.occupant = some x := by
  unfold get?
  cases p.slots[id.index]? with
  | none => simp
  | some s => by_cases h : s.generation = id.generation <;> simp [h]

theorem occupant?_eq_some_iff {p : Pool} {i : Nat} {x : Instance} :
    p.occupant? i = some x ↔ ∃ s, p.slots[i]? = some s ∧ s.occupant = some x := by
  unfold occupant?
  cases p.slots[i]? <;> simp

theorem occupant?_of_get? {p : Pool} {id : InstanceId} {x : Instance} (h : p.get? id = some x) :
    p.occupant? id.index = some x := by
  obtain ⟨s, hs, _, hx⟩ := get?_eq_some_iff.mp h
  exact occupant?_eq_some_iff.mpr ⟨s, hs, hx⟩

theorem get?_eq_none_of_occupant? {p : Pool} {id : InstanceId} (h : p.occupant? id.index = none) :
    p.get? id = none := by
  refine Option.eq_none_iff_forall_ne_some.mpr fun x hx => ?_
  rw [occupant?_of_get? hx] at h
  cases h

theorem lt_issued_of_occupant? {p : Pool} {i : Nat} {x : Instance} (h : p.occupant? i = some x) :
    i < p.issued := by
  obtain ⟨s, hs, _⟩ := occupant?_eq_some_iff.mp h
  exact (Array.getElem?_eq_some_iff.mp hs).1

/-! ## Instances in slot order -/

theorem mem_instances {p : Pool} {id : InstanceId} {x : Instance} :
    (id, x) ∈ p.instances ↔ p.get? id = some x := by
  rw [get?_eq_some_iff]
  simp only [instances, Slot.named, List.mem_filterMap, Prod.exists, List.mem_zipIdx_iff_getElem?,
    Array.getElem?_toList, Option.map_eq_some_iff]
  constructor
  · rintro ⟨s, i, hs, y, hy, heq⟩
    cases heq
    exact ⟨s, hs, rfl, hy⟩
  · rintro ⟨s, hs, hg, hx⟩
    exact ⟨s, id.index, hs, x, hx, by cases id; simp_all⟩

theorem pairwise_instances (p : Pool) :
    (p.instances.map fun e => e.1.index).Pairwise (· < ·) := by
  have hidx : (p.slots.toList.zipIdx.map Prod.snd).Pairwise (· < ·) := by
    rw [List.zipIdx_map_snd]
    exact List.pairwise_lt_range'
  rw [List.pairwise_map] at hidx ⊢
  rw [instances, List.pairwise_filterMap]
  refine hidx.imp fun {a b} hab e he f hf => ?_
  obtain ⟨x, _, rfl⟩ := Option.map_eq_some_iff.mp he
  obtain ⟨y, _, rfl⟩ := Option.map_eq_some_iff.mp hf
  exact hab

theorem nodup_instances (p : Pool) : (p.instances.map fun e => e.1.index).Nodup :=
  p.pairwise_instances.imp fun h => Nat.ne_of_lt h

theorem mem_index_instances {p : Pool} {i : Nat} :
    (i ∈ p.instances.map fun e => e.1.index) ↔ p.occupant? i ≠ none := by
  rw [List.mem_map]
  constructor
  · rintro ⟨⟨id, x⟩, he, rfl⟩
    rw [occupant?_of_get? (mem_instances.mp he)]
    exact Option.some_ne_none x
  · intro h
    obtain ⟨x, hx⟩ := Option.ne_none_iff_exists'.mp h
    obtain ⟨s, hs, hsx⟩ := occupant?_eq_some_iff.mp hx
    exact ⟨(⟨i, s.generation⟩, x), mem_instances.mpr
      (get?_eq_some_iff.mpr ⟨s, hs, rfl, hsx⟩), rfl⟩

/-! ## Coming and going -/

/-- The slot of a new instance is a new one, or the first one of the free list. -/
theorem place_cases (p : Pool) (increment : Nat) (d : Descriptor) (c : Payload) :
    p.place increment d c = p.placeFresh increment d c ∨
      ∃ i s, p.recycling = true ∧ p.freeHead = some i ∧ p.slots[i]? = some s ∧
        p.place increment d c = p.placeFreed i s d c := by
  unfold place
  split
  · next i s hr hf =>
    obtain ⟨j, hj, hjs⟩ := Option.bind_eq_some_iff.mp hf
    obtain ⟨t, ht, heq⟩ := Option.map_eq_some_iff.mp hjs
    cases heq
    exact Or.inr ⟨i, s, hr, hj, ht, rfl⟩
  · exact Or.inl rfl

/-- A new instance comes into a slot of the generation in its name. -/
theorem getElem?_place_self (p : Pool) (increment : Nat) (d : Descriptor) (c : Payload) :
    ∃ s : Slot, (p.place increment d c).2.slots[(p.place increment d c).1.index]? =
        some (s.occupy d c) ∧ s.generation = (p.place increment d c).1.generation ∧
      (p.occupant? (p.place increment d c).1.index = none → s.occupant = none) := by
  rcases p.place_cases increment d c with h | ⟨i, s, _, _, hs, h⟩
  · rw [h]
    exact ⟨{}, Array.getElem?_push_size, rfl, fun _ => rfl⟩
  · rw [h]
    refine ⟨s, ?_, rfl, fun hfree => ?_⟩
    · show (p.slots.modify i _)[i]? = _
      rw [Array.getElem?_modify, if_pos rfl, hs]
      rfl
    · have hfree : (p.slots[i]?).bind Slot.occupant = none := hfree
      rwa [hs] at hfree

theorem getElem?_place_of_ne {j : Nat} (p : Pool) (increment : Nat) (d : Descriptor) (c : Payload)
    (hj : j ≠ (p.place increment d c).1.index) :
    (p.place increment d c).2.slots[j]? = p.slots[j]? := by
  rcases p.place_cases increment d c with h | ⟨i, s, _, _, hs, h⟩
  · rw [h] at hj ⊢
    show (p.slots.push _)[j]? = _
    rw [Array.getElem?_push]
    exact if_neg hj
  · rw [h] at hj ⊢
    show (p.slots.modify i _)[j]? = _
    rw [Array.getElem?_modify]
    exact if_neg (Ne.symm hj)

theorem generation_place {s : Slot} (p : Pool) (increment : Nat) (d : Descriptor) (c : Payload)
    (hs : p.slots[(p.place increment d c).1.index]? = some s) :
    s.generation = (p.place increment d c).1.generation := by
  rcases p.place_cases increment d c with h | ⟨i, t, _, _, ht, h⟩
  · rw [h] at hs
    have hlt := (Array.getElem?_eq_some_iff.mp hs).1
    exact absurd hlt (Nat.lt_irrefl _)
  · rw [h] at hs ⊢
    cases hs.symm.trans ht
    rfl

theorem getElem?_evict_self {p q : Pool} {i : Nat} {x : Instance} (he : p.evict i = some (x, q)) :
    ∃ s, p.slots[i]? = some s ∧ s.occupant = some x ∧
      q.slots[i]? = some (s.vacate p.freeHead) := by
  obtain ⟨y, hy, heq⟩ := Option.map_eq_some_iff.mp he
  cases heq
  obtain ⟨s, hs, hsx⟩ := occupant?_eq_some_iff.mp hy
  refine ⟨s, hs, hsx, ?_⟩
  show (p.slots.modify i _)[i]? = _
  rw [Array.getElem?_modify, if_pos rfl, hs]
  rfl

theorem getElem?_evict_of_ne {p q : Pool} {i j : Nat} {x : Instance}
    (he : p.evict i = some (x, q)) (hj : j ≠ i) : q.slots[j]? = p.slots[j]? := by
  obtain ⟨y, _, heq⟩ := Option.map_eq_some_iff.mp he
  cases heq
  show (p.slots.modify i _)[j]? = _
  rw [Array.getElem?_modify, if_neg (Ne.symm hj)]

/-! ## Edited pools -/

/-- Two pools that differ in what is inside their instances and in nothing else. -/
structure Edited (p q : Pool) : Prop where
  size : q.slots.size = p.slots.size
  slots : ∀ {i : Nat} {s : Slot}, p.slots[i]? = some s →
    ∃ t, q.slots[i]? = some t ∧ s.Edited t
  capacity : q.capacity = p.capacity
  freeHead : q.freeHead = p.freeHead
  freeLen : q.freeLen = p.freeLen
  recycling : q.recycling = p.recycling
  live : q.live = p.live

theorem Edited.refl (p : Pool) : p.Edited p :=
  ⟨rfl, fun {_ s} h => ⟨s, h, .refl s⟩, rfl, rfl, rfl, rfl, rfl⟩

theorem Edited.trans {p q r : Pool} (h : p.Edited q) (h' : q.Edited r) : p.Edited r where
  size := h'.size.trans h.size
  slots hs := by
    obtain ⟨t, ht, hst⟩ := h.slots hs
    obtain ⟨u, hu, htu⟩ := h'.slots ht
    exact ⟨u, hu, hst.trans htu⟩
  capacity := h'.capacity.trans h.capacity
  freeHead := h'.freeHead.trans h.freeHead
  freeLen := h'.freeLen.trans h.freeLen
  recycling := h'.recycling.trans h.recycling
  live := h'.live.trans h.live

theorem edited_modifyAll (p : Pool) {f : Instance → Instance}
    (hf : ∀ x : Instance, x.Edited (f x)) : p.Edited (p.modifyAll f) := by
  refine ⟨by simp [modifyAll], fun {i s} h => ?_, rfl, rfl, rfl, rfl, rfl⟩
  exact ⟨s.update f, by simp [modifyAll, h], s.edited_update hf⟩

theorem edited_modify (p : Pool) (id : InstanceId) {f : Instance → Instance}
    (hf : ∀ x : Instance, x.Edited (f x)) : p.Edited (p.modify id f) := by
  unfold modify
  split
  · refine ⟨by simp, fun {i s} h => ?_, rfl, rfl, rfl, rfl, rfl⟩
    by_cases hi : id.index = i
    · exact ⟨s.update f, by simp [Array.getElem?_modify, hi, h], s.edited_update hf⟩
    · exact ⟨s, by simp [Array.getElem?_modify, hi, h], .refl s⟩
  · exact .refl p

theorem Edited.get? {p q : Pool} {id : InstanceId} {x : Instance} (h : p.Edited q)
    (hx : p.get? id = some x) : ∃ y, q.get? id = some y ∧ x.Edited y := by
  obtain ⟨s, hs, hg, hsx⟩ := get?_eq_some_iff.mp hx
  obtain ⟨t, ht, hst⟩ := h.slots hs
  have ho := hst.occupant
  rw [hsx] at ho
  cases hty : t.occupant with
  | none =>
    rw [hty] at ho
    cases ho
  | some y =>
    rw [hty] at ho
    cases ho with
    | some hxy => exact ⟨y, get?_eq_some_iff.mpr ⟨t, ht, hst.generation.trans hg, hty⟩, hxy⟩

theorem Edited.occupant?_eq_none {p q : Pool} (h : p.Edited q) (i : Nat) :
    q.occupant? i = none ↔ p.occupant? i = none := by
  unfold occupant?
  cases hs : p.slots[i]? with
  | none =>
    have : q.slots[i]? = none := by
      rw [Array.getElem?_eq_none_iff] at hs ⊢
      rw [h.size]
      exact hs
    simp [this]
  | some s =>
    obtain ⟨t, ht, hst⟩ := h.slots hs
    have ho := hst.occupant
    rw [ht]
    cases hso : s.occupant <;> cases hto : t.occupant <;> rw [hso, hto] at ho <;> cases ho <;>
      simp [hso, hto]

end Pool

/-! ## Steps of the pool -/

/-- What a transition can do to the pool, with the name of the instance that came and the name of
the one that went. -/
inductive Pool.Step (increment : Nat) (known : Descriptor → Prop) :
    (placed released : Option InstanceId) → Pool → Pool → Prop where
  | edit {p q : Pool} : p.Edited q → Step increment known none none p q
  | recycle (p : Pool) (threshold : Nat) :
      Step increment known none none p (p.updateRecycling threshold)
  | place {p q : Pool} {d : Descriptor} {c : Payload} : known d →
      (p.place increment d c).2.Edited q →
      Step increment known (some (p.place increment d c).1) none p q
  | evict {p q : Pool} {id : InstanceId} {x : Instance} : p.get? id = some x →
      p.evict id.index = some (x, q) → Step increment known none (some id) p q

/-- An instance that goes was there. -/
theorem Pool.Step.of_released {increment : Nat} {known : Descriptor → Prop}
    {placed : Option InstanceId} {id : InstanceId} {p q : Pool}
    (t : Step increment known placed (some id) p q) :
    ∃ x, p.get? id = some x ∧ p.evict id.index = some (x, q) := by
  cases t with
  | evict hx he => exact ⟨_, hx, he⟩

namespace Heap

theorem edited_modify (h : Heap) (v : Value) {f : Instance → Instance}
    (hf : ∀ x : Instance, x.Edited (f x)) : h.pool.Edited (h.modify v f).pool := by
  cases v with
  | ref id => exact h.pool.edited_modify id hf
  | _ => exact .refl _

theorem edited_mark (h : Heap) (v : Value) : h.pool.Edited (h.mark v).pool := by
  unfold mark
  split
  · split
    · exact .refl _
    · simp only
      split <;> exact h.edited_modify _ fun x => ⟨rfl, id, id⟩
  · exact .refl _

theorem edited_markRoots (h : Heap) : h.pool.Edited h.markRoots.pool := by
  unfold markRoots
  generalize h.roots = vs
  induction vs generalizing h with
  | nil => exact .refl _
  | cons v vs ih =>
    have first := h.edited_modify v (f := fun x => { x with marked := true }) fun x => ⟨rfl, id, id⟩
    exact first.trans (ih _)

theorem edited_startMarking (h : Heap) : h.pool.Edited h.startMarking.pool :=
  h.edited_markRoots.trans (Pool.edited_modifyAll _ fun _ => ⟨rfl, id, id⟩)

end Heap

def Action.placedType? : {α : Type} → Action α → Option Descriptor
  | _, place d _ => some d
  | _, register .. | _, install .. | _, evict .. | _, change .. | _, mark .. | _, startUse ..
  | _, stopUse .. | _, push .. | _, pop | _, truncateStack .. | _, pushFrame .. | _, popFrame
  | _, resyncFrames .. | _, attach .. | _, startMarking | _, nextGray | _, startSweep
  | _, startTeardown | _, finishCollection .. | _, setPhase .. | _, schedule | _, setEnabled ..
  | _, invoke .. => none

namespace Transition

/-- Every transition is a step of the pool. -/
theorem step {known : Descriptor → Prop} (t : Transition)
    (typed : ∀ d ∈ t.action.placedType?, known d) :
    Pool.Step t.before.config.poolIncrement known t.placed? t.released?
      t.before.pool t.after.pool := by
  obtain ⟨a, h⟩ := t
  cases a with
  | place d p =>
    refine .place (typed d rfl) ?_
    show Pool.Edited _ (h.place d p).2.pool
    unfold Heap.place
    simp only
    split
    · exact Heap.edited_mark (h.enroll _ _) _
    · exact .refl _
  | evict slot =>
    show Pool.Step _ _ none _ h.pool (h.evict slot).2.pool
    cases hx : h.pool.occupant? slot with
    | none =>
      have hs : ∀ s, h.pool.slots[slot]? = some s → s.occupant = none := by
        intro s hs
        simpa [Pool.occupant?, hs] using hx
      have hr : released? ⟨.evict slot, h⟩ = none := by
        cases hslot : h.pool.slots[slot]? with
        | none => simp [released?, hslot]
        | some s => simp [released?, Slot.named, hslot, hs s hslot]
      have hq : (h.evict slot).2 = h := by simp [Heap.evict, Pool.evict, hx]
      rw [hr, hq]
      exact .edit (.refl _)
    | some x =>
      obtain ⟨s, hs, hsx⟩ := Pool.occupant?_eq_some_iff.mp hx
      have hr : released? ⟨.evict slot, h⟩ = some ⟨slot, s.generation⟩ := by
        simp [released?, Slot.named, hs, hsx]
      rw [hr]
      refine .evict (x := x) (Pool.get?_eq_some_iff.mpr ⟨s, hs, rfl, hsx⟩) ?_
      simp [Heap.evict, Pool.evict, hx]
  | change v c => exact .edit (h.edited_modify v c.edited)
  | mark v => exact .edit (h.edited_mark v)
  | startUse a id => exact .edit (h.edited_modify (.ref id) fun x => ⟨rfl, fun hx => hx, fun hx => hx⟩)
  | stopUse a id => exact .edit (h.edited_modify (.ref id) fun x => ⟨rfl, fun hx => hx, fun hx => hx⟩)
  | startMarking => exact .edit h.edited_startMarking
  | startSweep => exact .edit (h.pool.edited_modifyAll fun x => ⟨rfl, id, id⟩)
  | finishCollection freed => exact .recycle h.pool _
  | pop =>
    refine .edit ?_
    show h.pool.Edited h.pop.2.pool
    unfold Heap.pop
    split <;> exact .refl _
  | attach v =>
    refine .edit ?_
    show h.pool.Edited (h.attach v).2.pool
    unfold Heap.attach
    split <;> exact .refl _
  | nextGray =>
    refine .edit ?_
    show h.pool.Edited h.nextGray.2.pool
    unfold Heap.nextGray
    split <;> exact .refl _
  | _ => exact .edit (.refl _)

end Transition

/-! ## Types and configuration -/

namespace Registry

theorem size_register (g : Registry) (increment : Nat) (name : String) (tag : Option Tag)
    (base : Option Descriptor) : g.size ≤ (g.register increment name tag base).2.size := by
  rcases g.register_cases increment name tag base with
    ⟨_, _, _, heq⟩ | ⟨_, _, _, heq⟩ | ⟨_, _, _, _, heq⟩
  · rw [heq, ← g.size_drawn tag]
    simp [add, size]
  · exact Nat.le_of_eq (by rw [heq])
  · exact Nat.le_of_eq (by rw [heq, size_drawn])

theorem size_install (g : Registry) (d : Descriptor) (b : Behavior) (c : Callback b) :
    (g.install d b c).size = g.size := Array.size_modify

end Registry

def Action.typing : {α : Type} → Action α → Bool
  | _, register .. | _, install .. => true
  | _, _ => false

structure Heap.SameTypes (h h' : Heap) : Prop where
  config : h'.config = h.config
  registry : h'.registry = h.registry

structure Heap.KeepsTypes (h h' : Heap) : Prop where
  config : h'.config = h.config
  size : h.registry.size ≤ h'.registry.size

namespace Heap

theorem SameTypes.refl (h : Heap) : h.SameTypes h := ⟨rfl, rfl⟩

theorem SameTypes.trans {h h' h'' : Heap} (k : h.SameTypes h') (k' : h'.SameTypes h'') :
    h.SameTypes h'' :=
  ⟨k'.config.trans k.config, k'.registry.trans k.registry⟩

theorem KeepsTypes.refl (h : Heap) : h.KeepsTypes h := ⟨rfl, Nat.le_refl _⟩

theorem KeepsTypes.trans {h h' h'' : Heap} (k : h.KeepsTypes h') (k' : h'.KeepsTypes h'') :
    h.KeepsTypes h'' :=
  ⟨k'.config.trans k.config, Nat.le_trans k.size k'.size⟩

theorem sameTypes_modify (h : Heap) (v : Value) (f : Instance → Instance) :
    h.SameTypes (h.modify v f) := by
  cases v <;> exact ⟨rfl, rfl⟩

theorem sameTypes_enroll (h : Heap) (id : InstanceId) (pool : Pool) :
    h.SameTypes (h.enroll id pool) := ⟨rfl, rfl⟩

theorem sameTypes_mark (h : Heap) (v : Value) : h.SameTypes (h.mark v) := by
  unfold mark
  split
  · split
    · exact .refl h
    · simp only
      split <;> exact ⟨rfl, rfl⟩
  · exact .refl h

theorem sameTypes_markRoots (h : Heap) : h.SameTypes h.markRoots := by
  unfold markRoots
  generalize h.roots = vs
  induction vs generalizing h with
  | nil => exact .refl h
  | cons v vs ih => exact (h.sameTypes_modify v _).trans (ih _)

end Heap

namespace Transition

theorem sameTypes {t : Transition} (ht : t.action.typing = false) : t.before.SameTypes t.after := by
  obtain ⟨a, h⟩ := t
  cases a with
  | register | install => cases ht
  | place d p =>
    show h.SameTypes (h.place d p).2
    unfold Heap.place
    simp only
    split
    · exact (h.sameTypes_enroll _ _).trans (Heap.sameTypes_mark _ _)
    · exact ⟨rfl, rfl⟩
  | evict slot =>
    show h.SameTypes (h.evict slot).2
    unfold Heap.evict
    split <;> exact ⟨rfl, rfl⟩
  | change v c => exact h.sameTypes_modify v c.apply
  | mark v => exact h.sameTypes_mark v
  | pop =>
    show h.SameTypes h.pop.2
    unfold Heap.pop
    split <;> exact ⟨rfl, rfl⟩
  | attach v =>
    show h.SameTypes (h.attach v).2
    unfold Heap.attach
    split <;> exact ⟨rfl, rfl⟩
  | nextGray =>
    show h.SameTypes h.nextGray.2
    unfold Heap.nextGray
    split <;> exact ⟨rfl, rfl⟩
  | startMarking => exact ⟨h.sameTypes_markRoots.config, h.sameTypes_markRoots.registry⟩
  | _ => exact ⟨rfl, rfl⟩

theorem keepsTypes (t : Transition) : t.before.KeepsTypes t.after := by
  cases ht : t.action.typing with
  | false =>
    obtain ⟨hconfig, hregistry⟩ := sameTypes ht
    exact ⟨hconfig, Nat.le_of_eq (by rw [hregistry])⟩
  | true =>
    obtain ⟨a, h⟩ := t
    cases a with
    | register name tag base => exact ⟨rfl, h.registry.size_register _ name tag base⟩
    | install d b c => exact ⟨rfl, Nat.le_of_eq (h.registry.size_install d b c).symm⟩
    | _ => cases ht

end Transition

theorem Path.keepsTypes {h h' : Heap} {ts : List Transition} (p : Path h ts h') :
    h.KeepsTypes h' := by
  induction p with
  | nil h => exact .refl h
  | cons t _ ih => exact t.keepsTypes.trans ih

end TracedHeap
