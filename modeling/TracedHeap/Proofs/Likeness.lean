import TracedHeap.Script.Operation

/-!
# A value on two heaps

What is seen of a value depends on the instance it stands for and on the types, and on nothing else
of the heap.

* `Heap.LooksAlike`   a value stands for the same instance on two heaps, marks apart;
* `LooksAlike.callback`, `LooksAlike.content`, ...
                      what is asked about such a value has the same answer on both.
-/

namespace TracedHeap

/-- The types are the same on both heaps, and so is the instance that `v` stands for, but for its
mark. -/
structure Heap.LooksAlike (v : Value) (h h' : Heap) : Prop where
  registry : h'.registry = h.registry
  find? : ∃ m : Instance → Bool, h'.find? v = (h.find? v).map fun x => { x with marked := m x }

namespace Heap.LooksAlike

variable {v : Value} {h h' : Heap}

theorem find (a : h.LooksAlike v h') :
    ∃ m : Instance → Bool,
      h'.find v = (h.find v).map fun e => (e.1, { e.2 with marked := m e.2 }) := by
  obtain ⟨m, hm⟩ := a.find?
  refine ⟨m, ?_⟩
  cases v with
  | ref id =>
    have hget : h'.pool.get? id = (h.pool.get? id).map fun x => { x with marked := m x } := hm
    simp only [Heap.find, hget]
    cases h.pool.get? id <;> rfl
  | _ => rfl

/-- What is asked of the instance, but not of its mark, has the same answer. -/
theorem ask {α : Type} (a : h.LooksAlike v h') {f : InstanceId × Instance → α}
    (hf : ∀ id x m, f (id, { x with marked := m }) = f (id, x)) :
    (h'.find v).map f = (h.find v).map f := by
  obtain ⟨m, hm⟩ := a.find
  rw [hm]
  cases h.find v with
  | error => rfl
  | ok e => exact congrArg Except.ok (hf e.1 e.2 _)

theorem any (a : h.LooksAlike v h') {p : Instance → Bool}
    (hp : ∀ x m, p { x with marked := m } = p x) : (h'.find? v).any p = (h.find? v).any p := by
  obtain ⟨m, hm⟩ := a.find?
  rw [hm]
  cases h.find? v with
  | none => rfl
  | some x => exact hp x _

theorem descriptorOf (a : h.LooksAlike v h') : h'.descriptorOf v = h.descriptorOf v := by
  obtain ⟨m, hm⟩ := a.find?
  unfold Heap.descriptorOf
  rw [hm, Option.map_map]
  rfl

theorem callback (a : h.LooksAlike v h') (b : Behavior) : h'.callback b v = h.callback b v := by
  unfold Heap.callback
  split
  · rw [a.registry]
    exact a.ask fun _ _ _ => rfl
  · rfl

theorem typeName (a : h.LooksAlike v h') : h'.typeName v = h.typeName v := by
  unfold Heap.typeName
  rw [a.descriptorOf, a.registry]

theorem behaviorsOf (a : h.LooksAlike v h') : h'.behaviorsOf v = h.behaviorsOf v := by
  unfold Heap.behaviorsOf
  rw [a.descriptorOf, a.registry]

theorem plainText (a : h.LooksAlike v h') : h'.plainText v = h.plainText v := by
  unfold Heap.plainText
  split
  · rw [a.typeName]
  · rfl

theorem content (a : h.LooksAlike v h') (access : Access) (k : Kind) :
    h'.content access v k = h.content access v k := by
  obtain ⟨m, hm⟩ := a.find
  unfold Heap.content
  rw [hm]
  cases h.find v <;> rfl

theorem read (a : h.LooksAlike v h') (k : Kind) : h'.read v k = h.read v k := by
  unfold Heap.read
  rw [a.content]

theorem payloadIs (a : h.LooksAlike v h') (k : Kind) : h'.payloadIs v k = h.payloadIs v k :=
  a.any fun _ _ => rfl

theorem property? (a : h.LooksAlike v h') (key : String) : h'.property? v key = h.property? v key :=
  a.ask fun _ _ _ => rfl

theorem property (a : h.LooksAlike v h') (key : String) : h'.property v key = h.property v key := by
  unfold Heap.property
  rw [a.property?]

theorem propertyKeys (a : h.LooksAlike v h') : h'.propertyKeys v = h.propertyKeys v :=
  a.ask fun _ _ _ => rfl

theorem debugHook (a : h.LooksAlike v h') : h'.debugHook v = h.debugHook v :=
  a.ask fun _ _ _ => rfl

theorem isProtected (a : h.LooksAlike v h') : h'.isProtected v = h.isProtected v :=
  a.any fun _ _ => rfl

theorem isPermanent (a : h.LooksAlike v h') : h'.isPermanent v = h.isPermanent v :=
  a.any fun _ _ => rfl

end Heap.LooksAlike

end TracedHeap
