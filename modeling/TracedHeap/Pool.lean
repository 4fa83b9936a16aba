import TracedHeap.Instance

/-!
# The pool of slots

Instances live in numbered slots.  A slot holds an instance or is free, and its generation counts
its releases.  Slots are issued in order; freed ones are chained to a free list, the latest first,
and are used again only while the pool is recycling.

* `Slot`                        a slot, with the header that instances find there and leave behind;
* `Slot.occupy`, `Slot.vacate`  an instance comes into a slot, an instance leaves it;
* `Pool`                        the slots and the free list;
* `Pool.get?`                   the instance a name stands for: the one view of the pool;
* `Pool.place`, `Pool.evict`    an instance comes, an instance goes;
* `Pool.instances`              all instances in slot order.
-/

namespace TracedHeap

/-- A slot: how often it was released (32 bits, wrapping), what it holds, and which slot follows
it on the free list.  The header is the slot's own and stays when an instance leaves, so that the
next one finds it. -/
structure Slot where
  generation : UInt32 := 0
  header : Header := {}
  /-- The type of the instance, its payload and the uses of that, if there is an instance. -/
  content : Option (Descriptor × Payload × Borrow) := none
  nextFree : Option Nat := none
  /-- Nothing is left in the header of an instance that is gone. -/
  clean : content = none → header = {} := by intro _; rfl

namespace Slot

def occupant (s : Slot) : Option Instance :=
  s.content.map fun (descriptor, payload, borrow) =>
    { s.header with descriptor, payload, borrow }

/-- An instance comes into the slot.  Its pins, its sequence and its cursor are set; its properties
and its hook are what the header has. -/
def occupy (s : Slot) (d : Descriptor) (p : Payload) : Slot where
  generation := s.generation
  header :=
    { s.header with
      marked := false
      permanent := false
      isProtected := false
      protections := 0
      sequence := .empty
      cursor := 0 }
  content := some (d, p, .shared 0)
  clean := fun h => by cases h

/-- The instance leaves the slot, which gets the next generation and is put before `next` on the
free list.  Whatever the header had is gone. -/
def vacate (s : Slot) (next : Option Nat) : Slot where
  generation := s.generation + 1
  nextFree := next

def update (s : Slot) (f : Instance → Instance) : Slot :=
  match s.occupant with
  | none => s
  | some x =>
    { s with
      header := (f x).toHeader
      content := some ((f x).descriptor, (f x).payload, (f x).borrow)
      clean := fun h => by cases h }

section
variable (s : Slot) (f : Instance → Instance)

@[simp]
theorem generation_update : (s.update f).generation = s.generation := by
  unfold update
  split <;> rfl

@[simp]
theorem nextFree_update : (s.update f).nextFree = s.nextFree := by
  unfold update
  split <;> rfl

@[simp]
theorem occupant_update : (s.update f).occupant = s.occupant.map f := by
  unfold update
  split
  · next h =>
    rw [h]
    rfl
  · next h =>
    rw [h]
    rfl

end

@[simp]
theorem occupant_vacate (s : Slot) (next : Option Nat) : (s.vacate next).occupant = none := rfl

@[simp]
theorem generation_vacate (s : Slot) (next : Option Nat) :
    (s.vacate next).generation = s.generation + 1 := rfl

theorem update_update (s : Slot) (f g : Instance → Instance) :
    (s.update f).update g = s.update (g ∘ f) := by
  cases h : s.occupant with
  | none => simp only [update, h]
  | some x =>
    have hf : (s.update f).occupant = some (f x) := by rw [occupant_update, h, Option.map_some]
    rw [update, hf]
    simp only [update, h, Function.comp_apply]

/-- What comes into a free slot finds a blank header. -/
theorem occupant_occupy {s : Slot} (free : s.occupant = none) (d : Descriptor) (p : Payload) :
    (s.occupy d p).occupant = some { descriptor := d, payload := p } := by
  have hheader : s.header = {} := s.clean (Option.map_eq_none_iff.mp free)
  simp [occupy, occupant, hheader]

/-- The instance in a slot with its name, where `i` is the number of the slot. -/
def named (s : Slot) (i : Nat) : Option (InstanceId × Instance) :=
  s.occupant.map fun x => (⟨i, s.generation⟩, x)

end Slot

structure Pool where
  /-- The slots issued so far. -/
  slots : Array Slot := #[]
  /-- The slots there is room for. -/
  capacity : Nat := 0
  /-- The slot freed last. -/
  freeHead : Option Nat := none
  /-- The number of freed slots. -/
  freeLen : Nat := 0
  /-- Whether freed slots are used before new ones. -/
  recycling : Bool := false
  /-- The number of instances. -/
  live : Nat := 0

namespace Pool

def issued (p : Pool) : Nat := p.slots.size

def occupant? (p : Pool) (i : Nat) : Option Instance := p.slots[i]?.bind Slot.occupant

/-- The instance a name stands for, if it is there and the generation is right. -/
def get? (p : Pool) (id : InstanceId) : Option Instance :=
  match p.slots[id.index]? with
  | some s => if s.generation = id.generation then s.occupant else none
  | none => none

def modify (p : Pool) (id : InstanceId) (f : Instance → Instance) : Pool :=
  match p.get? id with
  | some _ =>
    { p with slots := p.slots.modify id.index fun s => s.update f }
  | none => p

theorem get?_modify_self (p : Pool) (id : InstanceId) (f : Instance → Instance) :
    (p.modify id f).get? id = (p.get? id).map f := by
  unfold modify
  split
  · next x h =>
    unfold get? at h ⊢
    cases hs : p.slots[id.index]? with
    | none => simp [hs] at h
    | some s => simp [Array.getElem?_modify, hs]; split <;> rfl
  · next h => simp [h]

theorem get?_modify_of_ne {id other : InstanceId} (p : Pool) (f : Instance → Instance)
    (h : other ≠ id) : (p.modify id f).get? other = p.get? other := by
  unfold modify
  split
  · next x hx =>
    unfold get? at hx ⊢
    by_cases hi : id.index = other.index
    · cases hs : p.slots[id.index]? with
      | none => simp [hs] at hx
      | some s =>
        have hg : s.generation = id.generation := by
          simp only [hs] at hx
          split at hx
          · assumption
          · cases hx
        have hne : s.generation ≠ other.generation := by
          intro ho
          exact h (by cases id; cases other; simp_all)
        simp [Array.getElem?_modify, ← hi, hs, hne]
    · simp [Array.getElem?_modify, hi]
  · rfl

def modifyAll (p : Pool) (f : Instance → Instance) : Pool :=
  { p with slots := p.slots.map fun s => s.update f }

/-- All instances with their names, in slot order. -/
def instances (p : Pool) : List (InstanceId × Instance) :=
  p.slots.toList.zipIdx.filterMap fun (s, i) => s.named i

def namesOf (p : Pool) (f : Instance → Bool) : List InstanceId :=
  (p.instances.filter fun e => f e.2).map Prod.fst

/-- Puts an instance into a new slot; when there is no room left, `increment` slots are added. -/
def placeFresh (p : Pool) (increment : Nat) (d : Descriptor) (c : Payload) : InstanceId × Pool :=
  (⟨p.issued, 0⟩,
    { p with
      slots := p.slots.push (({} : Slot).occupy d c)
      capacity := if p.issued = p.capacity then p.capacity + increment else p.capacity
      live := p.live + 1 })

def firstFree? (p : Pool) : Option (Nat × Slot) :=
  p.freeHead.bind fun i => p.slots[i]?.map fun s => (i, s)

/-- Puts an instance into the first slot `i` of the free list, where `s` is found.  The pool stops
recycling when the list is used up. -/
def placeFreed (p : Pool) (i : Nat) (s : Slot) (d : Descriptor) (c : Payload) :
    InstanceId × Pool :=
  (⟨i, s.generation⟩,
    { p with
      slots := p.slots.modify i fun s => s.occupy d c
      freeHead := s.nextFree
      freeLen := p.freeLen - 1
      recycling := p.recycling && s.nextFree.isSome
      live := p.live + 1 })

/-- Puts an instance of type `d` with the payload `c` into a slot: the latest freed one while the
pool is recycling, else a new one. -/
def place (p : Pool) (increment : Nat) (d : Descriptor) (c : Payload) : InstanceId × Pool :=
  match p.recycling, p.firstFree? with
  | true, some (i, s) => p.placeFreed i s d c
  | _, _ => p.placeFresh increment d c

/-- Takes the instance out of a slot.  The slot's generation goes up by one, so every name of the
instance is void, and the slot goes to the head of the free list. -/
def evict (p : Pool) (i : Nat) : Option (Instance × Pool) :=
  (p.occupant? i).map fun x =>
    (x, { p with
      slots := p.slots.modify i fun s => s.vacate p.freeHead
      freeHead := some i
      freeLen := p.freeLen + 1
      live := p.live - 1 })

def updateRecycling (p : Pool) (threshold : Nat) : Pool :=
  { p with recycling := p.recycling || (0 < p.freeLen && threshold ≤ p.freeLen) }

end Pool

end TracedHeap
