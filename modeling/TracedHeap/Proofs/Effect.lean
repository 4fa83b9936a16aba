import TracedHeap.Proofs.Collection
import TracedHeap.Proofs.Sweep

/-!
# What a transition does to one instance

A transition that does not release an instance leaves it in the pool.  It changes it as the action
says, if it is one on this instance, and otherwise at most marks it.

* `Transition.effect`     what a transition does to an instance;
* `Instance.Marks`        the same instance, or the same with a mark;
* `Transition.effect_of_get?`
                          what becomes of an instance that is not released.
-/

namespace TracedHeap

def Instance.Marks (x y : Instance) : Prop := y = x ∨ y = { x with marked := true }

namespace Instance.Marks

variable {x y : Instance}

theorem refl (x : Instance) : x.Marks x := .inl rfl

theorem marked (m : x.Marks y) (h : x.marked = true) : y.marked = true := by
  rcases m with rfl | rfl
  · exact h
  · rfl

theorem descriptor (m : x.Marks y) : y.descriptor = x.descriptor := by
  rcases m with rfl | rfl <;> rfl

theorem payload (m : x.Marks y) : y.payload = x.payload := by
  rcases m with rfl | rfl <;> rfl

theorem borrow (m : x.Marks y) : y.borrow = x.borrow := by
  rcases m with rfl | rfl <;> rfl

theorem sequence (m : x.Marks y) : y.sequence = x.sequence := by
  rcases m with rfl | rfl <;> rfl

end Instance.Marks

/-- What a transition does to the instance `id`, apart from marking it. -/
def Transition.effect (id : InstanceId) (x : Instance) : Transition → Instance
  | ⟨.change (.ref other) c, _⟩ => if other = id then c.apply x else x
  | ⟨.startUse a other, _⟩ => if other = id then { x with borrow := a.start x.borrow } else x
  | ⟨.stopUse a other, _⟩ => if other = id then { x with borrow := a.stop x.borrow } else x
  | ⟨.startSweep, _⟩ => { x with marked := false }
  | _ => x

namespace Heap

variable {h : Heap} {id other : InstanceId} {x : Instance}

theorem get?_modify_of_ne (f : Instance → Instance) (hne : id ≠ other) :
    (h.modify (.ref other) f).pool.get? id = h.pool.get? id :=
  h.pool.get?_modify_of_ne f hne

theorem get?_modify_self (f : Instance → Instance) (hx : h.pool.get? id = some x) :
    (h.modify (.ref id) f).pool.get? id = some (f x) := by
  show (h.pool.modify id f).get? id = _
  rw [Pool.get?_modify_self, hx]
  rfl

theorem get?_modify_ref (f : Instance → Instance) (hx : h.pool.get? id = some x) :
    (h.modify (.ref other) f).pool.get? id = some (if other = id then f x else x) := by
  by_cases hid : other = id
  · subst hid
    rw [if_pos rfl]
    exact get?_modify_self f hx
  · rw [if_neg hid, get?_modify_of_ne f fun heq => hid heq.symm]
    exact hx

theorem get?_mark (v : Value) (hx : h.pool.get? id = some x) :
    ∃ y, (h.mark v).pool.get? id = some y ∧ x.Marks y := by
  have same : ∃ y, h.pool.get? id = some y ∧ x.Marks y := ⟨x, hx, .refl x⟩
  unfold mark
  split
  · next other _ _ =>
    split
    · exact same
    · have hmarked : ∃ y, (h.modify (.ref other) fun x => { x with marked := true }).pool.get? id =
          some y ∧ x.Marks y := by
        refine ⟨_, get?_modify_ref _ hx, ?_⟩
        split
        · exact .inr rfl
        · exact .refl x
      simp only
      split <;> exact hmarked
  · exact same

theorem get?_place (sound : h.SoundPool) (d : Descriptor) (p : Payload)
    (hx : h.pool.get? id = some x) : ∃ y, (h.place d p).2.pool.get? id = some y ∧ x.Marks y := by
  have hplaced : (h.pool.place h.config.poolIncrement d p).2.get? id = some x :=
    (sound.sound.get?_place d p (sound.sound.ne_place hx d p)).trans hx
  unfold place
  simp only
  split
  · exact get?_mark (h := h.enroll _ _) _ hplaced
  · exact ⟨x, hplaced, .refl x⟩

theorem get?_place_self (sound : h.SoundPool) (d : Descriptor) (p : Payload) :
    ∃ y, (h.place d p).2.pool.get? (h.place d p).1 = some y ∧
      Instance.Marks { descriptor := d, payload := p } y := by
  have hplaced := sound.sound.get?_place_self d p
  unfold place
  simp only
  split
  · exact get?_mark (h := h.enroll _ _) _ hplaced
  · exact ⟨_, hplaced, .refl _⟩

theorem get?_startMarking (hx : h.pool.get? id = some x) :
    ∃ y, h.startMarking.pool.get? id = some y ∧ x.Marks y ∧
      (.ref id ∈ h.roots → y.marked = true) := by
  obtain ⟨_, _, hget⟩ := h.markRoots_spec
  have hroot := hget id
  rw [hx, Option.map_some] at hroot
  refine ⟨_, (Pool.get?_modifyAll _ _ id).trans (by rw [hroot, Option.map_some]), ?_, ?_⟩
  · split
    · exact .inr rfl
    · cases hpin : x.pinned with
      | true => exact .inr rfl
      | false =>
        -- what has no pin has no mark
        have hmark : x.marked = false := by
          unfold Instance.pinned at hpin
          simp only [Bool.or_eq_false_iff] at hpin
          exact hpin.1.1
        exact .inl (by rw [← hmark])
  · intro hr
    rw [if_pos hr]
    rfl

theorem get?_evict (hx : h.pool.get? id = some x) {slot : Nat}
    (kept : Transition.released? ⟨.evict slot, h⟩ ≠ some id) :
    (h.evict slot).2.pool.get? id = some x := by
  have hslot : id.index ≠ slot := by
    rintro rfl
    exact kept (Transition.released?_evict hx)
  unfold evict
  split
  · next he => rw [Pool.get?_evict he, if_neg hslot, hx]
  · exact hx

end Heap

/-- An instance that is not released stays in the pool.  It becomes what the transition makes of it,
and may be marked. -/
theorem Transition.effect_of_get? {t : Transition} {id : InstanceId} {x : Instance}
    (sound : t.before.SoundPool) (hx : t.before.pool.get? id = some x)
    (kept : t.released? ≠ some id) :
    ∃ y, t.after.pool.get? id = some y ∧ (t.effect id x).Marks y := by
  obtain ⟨a, h⟩ := t
  have same : ∀ {p : Pool}, p = h.pool → ∃ y, p.get? id = some y ∧ x.Marks y := by
    rintro _ rfl
    exact ⟨x, hx, .refl x⟩
  cases a with
  | change v c =>
    cases v with
    | ref other => exact ⟨_, Heap.get?_modify_ref c.apply hx, .refl _⟩
    | _ => exact same rfl
  | startUse a other | stopUse a other => exact ⟨_, Heap.get?_modify_ref _ hx, .refl _⟩
  | mark v => exact Heap.get?_mark v hx
  | place d p => exact Heap.get?_place sound d p hx
  | evict slot => exact ⟨x, Heap.get?_evict hx kept, .refl x⟩
  | startMarking =>
    obtain ⟨y, hy, hxy, _⟩ := Heap.get?_startMarking hx
    exact ⟨y, hy, hxy⟩
  | startSweep =>
    refine ⟨_, (Pool.get?_modifyAll _ _ id).trans ?_, .refl _⟩
    rw [hx]
    rfl
  | pop =>
    refine same (p := h.pop.2.pool) ?_
    unfold Heap.pop
    split <;> rfl
  | attach v =>
    refine same (p := (h.attach v).2.pool) ?_
    unfold Heap.attach
    split <;> rfl
  | nextGray =>
    refine same (p := h.nextGray.2.pool) ?_
    unfold Heap.nextGray
    split <;> rfl
  | finishCollection n => exact ⟨x, hx, .refl x⟩
  | _ => exact same rfl

end TracedHeap
