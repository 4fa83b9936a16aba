import TracedHeap.Proofs.Borrowing
import TracedHeap.Proofs.Likeness

/-!
# The horizon of a program

A program that has no reference to an instance, and finds none, can neither learn what the instance
is like nor change it.  This module says what such a program knows, and shows of each action that it
keeps to it.

* `Heap.put`           the heap with another instance under the same name;
* `Horizon`            what is known where one instance is hidden;
* `Op.within`, `Step.within`, `Transition.within`
                       operations, steps and transitions that use what is known and nothing else, in
                       whichever place a value is named;
* `Heap.Confined`      nothing that is known leads to the hidden instance;
* `Horizon.allBut`     the horizon that hides the instance and nothing else, which is there where no
                       other instance, no variable and no place on the stack holds it;
* `Transition.confined`, `Action.apply_put`
                       an action on known values leaves the heap confined, does the same whatever
                       the hidden instance is like, and leaves that instance alone.
-/

namespace TracedHeap

open Run

/-! ## The values in things -/

def Payload.values : Payload → List Value
  | items vs | words vs => vs
  | table es => es.flatMap fun e => [e.1, e.2]
  | text _ | int _ | unit => []

def Instance.values (x : Instance) : List Value := x.payload.values ++ x.children

theorem Instance.mem_values_of_current {x : Instance} {v : Value}
    (hv : x.sequence.current? = some v) : v ∈ x.values := by
  have hheld : x.sequence.held? = some v := by
    cases hs : x.sequence <;> rw [hs] at hv <;> cases hv
    rfl
  unfold values children
  rw [hheld]
  simp

def Change.values : Change → List Value
  | setProperty _ v | setDebugHook v | remember v => [v]
  | write p => p.values
  | unmark | protect | unprotect | makePermanent | removeProperty _ | advanceCursor _ | resetCursor
  | invalidateSequence => []

/-- The values that an action is given. -/
def Action.values : {α : Type} → Action α → List Value
  | _, place _ p => p.values
  | _, change v c => v :: c.values
  | _, mark v | _, push v | _, pushFrame v | _, attach v => [v]
  | _, startUse _ id | _, stopUse _ id => [.ref id]
  | _, register .. | _, install .. | _, evict .. | _, pop | _, truncateStack .. | _, popFrame
  | _, resyncFrames .. | _, startMarking | _, nextGray | _, startSweep | _, startTeardown
  | _, finishCollection .. | _, setPhase .. | _, schedule | _, setEnabled .. | _, invoke .. => []

theorem Properties.mem_values_erase {p : Properties} {key : String} {u : Value}
    (hu : u ∈ (p.erase key).values) : u ∈ p.values := by
  obtain ⟨e, he, rfl⟩ := List.mem_map.mp hu
  exact List.mem_map_of_mem (List.mem_filter.mp he).1

theorem Properties.mem_values_set {p : Properties} {key : String} {v u : Value}
    (hu : u ∈ (p.set key v).values) : u ∈ p.values ∨ u = v := by
  rcases List.mem_cons.mp hu with rfl | hu
  · exact .inr rfl
  · exact .inl (mem_values_erase hu)

theorem Properties.mem_values_of_get? {p : Properties} {key : String} {v : Value}
    (hv : p.get? key = some v) : v ∈ p.values := by
  obtain ⟨_, _, heq, _⟩ := List.lookup_eq_some_iff.mp hv
  unfold values
  rw [heq]
  simp

theorem Change.mem_values_apply {c : Change} {x : Instance} {u : Value}
    (hu : u ∈ (c.apply x).values) : u ∈ x.values ∨ u ∈ c.values := by
  simp only [Instance.values, Instance.children, List.mem_append] at hu ⊢
  cases c with
  | setProperty key item =>
    rcases hu with hu | hu | hu
    · exact .inl (.inl hu)
    · exact .inl (.inr (.inl hu))
    · rcases Properties.mem_values_set hu with hu | rfl
      · exact .inl (.inr (.inr hu))
      · exact .inr List.mem_cons_self
  | removeProperty key =>
    rcases hu with hu | hu | hu
    · exact .inl (.inl hu)
    · exact .inl (.inr (.inl hu))
    · exact .inl (.inr (.inr (Properties.mem_values_erase hu)))
  | setDebugHook hook =>
    rcases hu with hu | (hu | hu) | hu
    · exact .inl (.inl hu)
    · exact .inl (.inr (.inl (.inl hu)))
    · refine .inr ?_
      simp only [apply] at hu
      split at hu
      · cases hu
      · exact hu
    · exact .inl (.inr (.inr hu))
  | invalidateSequence =>
    have hheld : x.sequence.invalidate.held? = x.sequence.held? := by cases x.sequence <;> rfl
    simp only [apply, hheld] at hu
    exact .inl hu
  | remember sequence =>
    rcases hu with hu | (hu | hu) | hu
    · exact .inl (.inl hu)
    · exact .inr hu
    · exact .inl (.inr (.inl (.inr hu)))
    · exact .inl (.inr (.inr hu))
  | advanceCursor len =>
    simp only [apply, Instance.advance] at hu
    split at hu <;> exact .inl hu
  | write p =>
    rcases hu with hu | hu
    · exact .inr hu
    · exact .inl (.inr hu)
  | unmark | protect | unprotect | makePermanent | resetCursor => exact .inl hu

theorem Instance.Marks.values {x y : Instance} (m : x.Marks y) : y.values = x.values := by
  rcases m with rfl | rfl <;> rfl

theorem Transition.mem_values_effect {t : Transition} {id : InstanceId} {x : Instance} {u : Value}
    (hu : u ∈ (t.effect id x).values) : u ∈ x.values ∨ u ∈ t.action.values := by
  obtain ⟨a, h⟩ := t
  cases a with
  | change v c =>
    cases v with
    | ref other =>
      simp only [effect] at hu
      split at hu
      · exact (Change.mem_values_apply hu).imp_right (List.mem_cons_of_mem _)
      · exact .inl hu
    | _ => exact .inl hu
  | startUse | stopUse =>
    simp only [effect] at hu
    split at hu <;> exact .inl hu
  | _ => exact .inl hu

theorem Heap.stack_mark (h : Heap) (v : Value) : (h.mark v).stack = h.stack := by
  unfold mark
  split
  · split
    · rfl
    · simp only
      split <;> rfl
  · rfl

/-- A value on the stack was there before, or it was pushed now. -/
theorem Transition.mem_stack_after {t : Transition} (calm : t.action.calm = true) {u : Value}
    (hu : u ∈ t.after.stack) : u ∈ t.before.stack ∨ u ∈ t.action.values := by
  obtain ⟨a, h⟩ := t
  cases a with
  | push v => exact (List.mem_cons.mp hu).symm.imp_right List.mem_singleton.mpr
  | truncateStack depth => exact .inl (List.mem_of_mem_drop hu)
  | pop =>
    have hpop : h.pop.2.stack ⊆ h.stack := by
      unfold Heap.pop
      split
      · next heq =>
        rw [heq]
        exact List.subset_cons_self _ _
      · exact List.Subset.refl _
    exact .inl (hpop hu)
  | mark v => exact .inl (h.stack_mark v ▸ hu)
  | place d p =>
    have hplace : (h.place d p).2.stack = h.stack := by
      unfold Heap.place
      simp only
      split
      · exact Heap.stack_mark _ _
      · rfl
    exact .inl (hplace ▸ hu)
  | attach v =>
    have hattach : (h.attach v).2.stack = h.stack := by
      unfold Heap.attach
      split <;> rfl
    exact .inl (hattach ▸ hu)
  | nextGray =>
    have hgray : h.nextGray.2.stack = h.stack := by
      unfold Heap.nextGray
      split <;> rfl
    exact .inl (hgray ▸ hu)
  | change v c => cases v <;> exact .inl hu
  | evict | startMarking | startSweep | startTeardown | finishCollection | setPhase => cases calm
  | _ => exact .inl hu

/-! ## Another instance under the same name -/

section
variable {α : Type} {i j : Nat}

theorem modify_modify_of_ne (hne : j ≠ i) (f g : α → α) (xs : Array α) :
    (xs.modify i f).modify j g = (xs.modify j g).modify i f := by
  refine Array.ext_getElem? fun k => ?_
  simp only [Array.getElem?_modify]
  by_cases hj : j = k
  · have hi : i ≠ k := fun hi => hne (hj.trans hi.symm)
    simp only [if_pos hj, if_neg hi]
  · simp only [if_neg hj]

theorem modify_push (f : α → α) {xs : Array α} (hi : i < xs.size) (x : α) :
    (xs.modify i f).push x = (xs.push x).modify i f := by
  refine Array.ext_getElem? fun k => ?_
  simp only [Array.getElem?_modify, Array.getElem?_push, Array.size_modify]
  by_cases hk : k = xs.size
  · have hik : i ≠ k := by omega
    rw [if_pos hk, if_pos hk, if_neg hik]
  · rw [if_neg hk, if_neg hk]

end

namespace Pool

variable {p : Pool} {id other : InstanceId} {x : Instance}

theorem modify_of_get? (hx : p.get? id = some x) (f : Instance → Instance) :
    p.modify id f = { p with slots := p.slots.modify id.index fun s => s.update f } := by
  rw [modify, hx]

theorem modify_of_get?_eq_none (gone : p.get? id = none) (f : Instance → Instance) :
    p.modify id f = p := by
  rw [modify, gone]

theorem modify_self (hx : p.get? id = some x) : p.modify id (fun _ => x) = p := by
  obtain ⟨s, hs, _, hsx⟩ := get?_eq_some_iff.mp hx
  have hupdate : s.update (fun _ => x) = s := by
    obtain ⟨_, _, content, _, _⟩ := s
    cases content with
    | none => cases hsx
    | some c =>
      cases hsx
      rfl
  rw [modify_of_get? hx]
  congr 1
  refine Array.ext_getElem? fun k => ?_
  rw [Array.getElem?_modify]
  split
  · next hk => rw [← hk, hs, Option.map_some, hupdate]
  · rfl

theorem modify_comm (hne : other ≠ id) (f g : Instance → Instance) :
    (p.modify id f).modify other g = (p.modify other g).modify id f := by
  cases hx : p.get? id with
  | none =>
    rw [modify_of_get?_eq_none hx,
      modify_of_get?_eq_none ((p.get?_modify_of_ne g hne.symm).trans hx)]
  | some x =>
    cases hy : p.get? other with
    | none =>
      rw [modify_of_get?_eq_none hy,
        modify_of_get?_eq_none ((p.get?_modify_of_ne f hne).trans hy)]
    | some y =>
      have hindex : other.index ≠ id.index := fun heq => hne (eq_of_index_eq hy hx heq)
      rw [modify_of_get? ((p.get?_modify_of_ne f hne).trans hy),
        modify_of_get? ((p.get?_modify_of_ne g hne.symm).trans hx), modify_of_get? hx,
        modify_of_get? hy]
      simp only [modify_modify_of_ne hindex]

theorem firstFree?_of_ne {j : Nat} (u : Slot → Slot) (hj : p.freeHead ≠ some j) :
    firstFree? { p with slots := p.slots.modify j u } = p.firstFree? := by
  unfold firstFree?
  cases hhead : p.freeHead with
  | none => rfl
  | some i =>
    have hne : j ≠ i := fun heq => hj (heq ▸ hhead)
    simp only [Option.bind_some, Array.getElem?_modify, if_neg hne]

/-- A change of an instance and the arrival of another one can come in either order. -/
theorem place_modify {increment : Nat} (sound : p.Sound increment) (hx : p.get? id = some x)
    (f : Instance → Instance) (d : Descriptor) (c : Payload) :
    (p.modify id f).place increment d c =
      ((p.place increment d c).1, (p.place increment d c).2.modify id f) := by
  have hplaced : (p.place increment d c).2.get? id = some x :=
    (sound.get?_place d c (sound.ne_place hx d c)).trans hx
  -- the slot that is taken is free, so it is not that of the instance
  have hhead : p.freeHead ≠ some id.index := fun hhead => by
    cases (sound.occupant?_freeHead hhead).symm.trans (occupant?_of_get? hx)
  have hlt : id.index < p.slots.size := lt_issued_of_occupant? (occupant?_of_get? hx)
  rw [modify_of_get? hx, modify_of_get? hplaced]
  unfold place
  rw [firstFree?_of_ne _ hhead]
  split
  · next i s hrecycling hfirst =>
    obtain ⟨j, hj, hjs⟩ := Option.bind_eq_some_iff.mp hfirst
    obtain ⟨t, _, heq⟩ := Option.map_eq_some_iff.mp hjs
    cases heq
    have hne : i ≠ id.index := fun heq => hhead (heq ▸ hj)
    simp only [show p.recycling = true from hrecycling, placeFreed, hfirst,
      modify_modify_of_ne hne]
  · simp only [placeFresh, issued, Array.size_modify, modify_push _ hlt]
    rfl

end Pool

namespace Heap

/-- The heap with the instance `y` in the place of the instance `id`; nothing happens if that is
gone. -/
def put (h : Heap) (id : InstanceId) (y : Instance) : Heap := h.modify (.ref id) fun _ => y

variable {h : Heap} {id : InstanceId} {x y : Instance} {v : Value}

theorem put_eq (h : Heap) (id : InstanceId) (y : Instance) :
    ∃ slots, slots.size = h.pool.slots.size ∧
      h.put id y = { h with pool := { h.pool with slots } } := by
  unfold put modify
  cases hx : h.pool.get? id with
  | none =>
    simp only [Pool.modify_of_get?_eq_none hx]
    exact ⟨_, rfl, rfl⟩
  | some x =>
    simp only [Pool.modify_of_get? hx]
    exact ⟨_, Array.size_modify, rfl⟩

theorem find?_put (hv : v ≠ .ref id) : (h.put id y).find? v = h.find? v := by
  cases v with
  | ref other => exact get?_modify_of_ne _ fun heq => hv (heq ▸ rfl)
  | _ => rfl

theorem find_put (hv : v ≠ .ref id) : (h.put id y).find v = h.find v := by
  cases v with
  | ref other =>
    have hget : (h.put id y).pool.get? other = h.pool.get? other := find?_put hv
    simp only [find, hget]
  | _ => rfl

theorem contains_put (v : Value) : (h.put id y).contains v = h.contains v := by
  by_cases hv : v = .ref id
  · subst hv
    show ((h.pool.modify id fun _ => y).get? id).isSome = (h.pool.get? id).isSome
    rw [Pool.get?_modify_self, Option.isSome_map]
  · rw [contains, contains, find?_put hv]

theorem put_self (hx : h.pool.get? id = some x) : h.put id x = h := by
  show ({ h with pool := h.pool.modify id fun _ => x } : Heap) = h
  rw [Pool.modify_self hx]

theorem modify_put (hv : v ≠ .ref id) (f : Instance → Instance) :
    (h.put id y).modify v f = (h.modify v f).put id y := by
  cases v with
  | ref other =>
    have hne : other ≠ id := fun heq => hv (heq ▸ rfl)
    show ({ h with pool := (h.pool.modify id _).modify other f } : Heap) = _
    rw [Pool.modify_comm hne]
    rfl
  | _ => rfl

theorem mark_put (hv : v ≠ .ref id) : (h.put id y).mark v = (h.mark v).put id y := by
  unfold mark
  rw [find?_put hv]
  split
  · split
    · rfl
    · rw [modify_put hv]
      show ite (h.collector.phase = .marking) _ _ =
        put (ite (h.collector.phase = .marking) _ _) id y
      split <;> rfl
  · rfl

theorem place_put (sound : h.SoundPool) (hx : h.pool.get? id = some x) (d : Descriptor)
    (p : Payload) : (h.put id y).place d p = ((h.place d p).1, (h.place d p).2.put id y) := by
  have hplace : (h.put id y).pool.place h.config.poolIncrement d p = _ :=
    Pool.place_modify sound.sound hx (fun _ => y) d p
  have hne : Value.ref (h.pool.place h.config.poolIncrement d p).1 ≠ .ref id := fun heq =>
    sound.sound.ne_place hx d p (Value.ref.inj heq).symm
  have henroll : ∀ other pool, (h.put id y).enroll other (pool.modify id fun _ => y) =
      (h.enroll other pool).put id y := fun _ _ => rfl
  unfold place
  rw [show (h.put id y).config = h.config from rfl, hplace,
    show (h.put id y).collector = h.collector from rfl]
  simp only
  rw [henroll]
  split
  · rw [mark_put hne]
  · rfl

end Heap

/-! ## Horizons -/

/-- What a program knows from which the instance `id` is hidden.  Immediates are always known. -/
structure Horizon (id : InstanceId) where
  known : Value → Bool
  /-- The variables that are read. -/
  reads : String → Bool
  /-- Whether values are taken from the operand stack. -/
  takes : Bool
  hidden : known (.ref id) = false
  immediate : ∀ v, v.instance? = none → known v = true

section
variable {id : InstanceId} (H : Horizon id)

theorem Horizon.ne {v : Value} (hv : H.known v = true) : v ≠ .ref id := by
  rintro rfl
  rw [H.hidden] at hv
  cases hv

theorem Horizon.looksAlike {v : Value} (hv : H.known v = true) (h : Heap) (y : Instance) :
    h.LooksAlike v (h.put id y) := by
  refine ⟨rfl, fun x => x.marked, ?_⟩
  rw [Heap.find?_put (H.ne hv), Option.map_id']

def Operand.within : Operand → Bool
  | const v => H.known v
  | var name => H.reads name
  | malformed => true

def Literal.operands : Literal → List Operand
  | items os | words os => os
  | table es => es.flatMap fun e => [e.1, e.2]
  | text _ | int _ | unit => []

/-- All operands of an operation, in whichever place. -/
def Op.operands : Op → List Operand
  | descriptorOf v | typeName v | behaviorsOf v | payloadIs v _ | tableKeys v | push v | pushFrame v
  | attach v | pin _ v | query _ v | property v _ | removeProperty v _ | propertyKeys v
  | debugHook v | nextCursor v _ | resetCursor v | invalidateSequence v | view _ v | toSequence v
  | copy v | length v | call v | value v | letVal v => [v]
  | tableFind v other | setProperty v _ other | setDebugHook v other | get v other
  | equal v other => [v, other]
  | set v index item => [v, index, item]
  | alloc payload _ => payload.operands
  | array vs | list vs | quotation vs => vs
  | register .. | derive .. | typeInfo _ | typeNamed _ | typeWithTag _ | typeCount | string _
  | table | pop | peek | pick _ | stackDepth | truncateStack _ | clearStack | stack | popFrame
  | frameDepth | frameCaller _ | resyncFrames _ | frameInstances _ | protectedInstances
  | permanentInstances | collect | teardown | setCollectionEnabled _ | collectionEnabled | liveCount
  | stats | statsText | summary | config | raise _ | abort _ | malformed .. => []

/-- The operations that tell something about all instances at once. -/
def Op.surveys : Op → Bool
  | protectedInstances | permanentInstances | stats | statsText => true
  | _ => false

def Op.takes : Op → Bool
  | pop | peek | pick _ => true
  | _ => false

/-- The operation names nothing but what is known, does not ask about all instances, and takes
nothing from the stack that might not be known. -/
def Op.within (o : Op) : Bool :=
  o.operands.all (Operand.within H) && !o.surveys && (H.takes || !o.takes)

def Edit.operands (e : Edit) : List Operand :=
  e.push.toList ++ e.put.toList.flatMap fun e => [e.1, e.2]

def Step.withinHere : Step → Bool
  | op o => o.within H
  | payloadRead v _ _ | withFrame v _ | branch v _ _ => v.within H
  | payloadWrite v _ _ edit => v.within H && edit.operands.all (Operand.within H)
  | install .. | loop .. | bind .. | strict _ => true

/-- The step keeps within the horizon.  What it installs runs where it is called, and is not looked
at. -/
def Step.within (s : Step) : Bool := s.everywhere (Step.withinHere H)

def Step.allWithin (steps : List Step) : Bool := Step.everyStep (Step.withinHere H) steps

def Part.within : Part → Bool
  | literal _ => true
  | view _ v | typeName v | display v => v.within H

def Answer.within : Answer Step → Bool
  | text parts => parts.all (Part.within H)
  | value v => v.within H
  | result step => step.within H
  | nothing | verdict _ | count _ => true

def Callback.within {b : Behavior} : Callback b → Bool
  | routine _ => true
  | script s => Step.allWithin H s.body && s.answer.within H

/-- No collection begins here, nothing is released, and a callback that is called here keeps within
the horizon. -/
def Transition.within (t : Transition) : Bool :=
  t.action.calm && match t with
    | ⟨.invoke _ c _, _⟩ => c.within H
    | _ => true

/-- Nothing that is known leads to the hidden instance, which is there.  What names no instance is
known. -/
structure Heap.Confined (h : Heap) : Prop extends h.SoundPool where
  live : h.contains (.ref id) = true
  dead : ∀ v, h.contains v = false → H.known v = true
  held : ∀ v x, H.known v = true → h.find? v = some x → ∀ u ∈ x.values, H.known u = true
  stack : H.takes = true → ∀ v ∈ h.stack, H.known v = true

def Bindings.Confined (b : Bindings) : Prop :=
  ∀ name v, H.reads name = true → b.get? name = some v → H.known v = true

theorem Bindings.confined_of_entries {b : Bindings} (hb : ∀ e ∈ b.entries, H.known e.2 = true) :
    b.Confined H := by
  intro name v _ hv
  obtain ⟨_, _, heq, _⟩ := List.lookup_eq_some_iff.mp hv
  exact hb (name, v) (heq ▸ by simp)

structure World.Confined (w : World) : Prop where
  heap : w.heap.Confined H
  globals : w.globals.Confined H
  scopes : ∀ scope ∈ w.scopes, scope.Confined H

end

/-- Everything is known but the instance itself. -/
def Horizon.allBut (id : InstanceId) : Horizon id where
  known v := v != .ref id
  reads _ := true
  takes := true
  hidden := bne_self_eq_false _
  immediate v hv := bne_iff_ne.mpr fun heq => by
    subst heq
    cases hv

/-- Where an instance is named nowhere, it alone is hidden. -/
theorem World.confined_allBut {id : InstanceId} {w : World} (sound : w.heap.SoundPool)
    (live : w.heap.contains (.ref id) = true)
    (unheld : ∀ e ∈ w.heap.pool.instances, ∀ u ∈ e.2.values, u ≠ .ref id)
    (unstacked : ∀ v ∈ w.heap.stack, v ≠ .ref id)
    (unbound : ∀ scope ∈ w.globals :: w.scopes, ∀ e ∈ scope.entries, e.2 ≠ .ref id) :
    w.Confined (.allBut id) := by
  have bound : ∀ scope ∈ w.globals :: w.scopes, scope.Confined (.allBut id) := fun scope hscope =>
    Bindings.confined_of_entries _ fun e he => bne_iff_ne.mpr (unbound scope hscope e he)
  obtain ⟨hglobals, hscopes⟩ := List.forall_mem_cons.mp bound
  refine ⟨⟨sound, live, fun v hv => bne_iff_ne.mpr ?_, fun v x _ hx u hu => bne_iff_ne.mpr ?_,
    fun _ v hv => bne_iff_ne.mpr (unstacked v hv)⟩, hglobals, hscopes⟩
  · rintro rfl
    rw [live] at hv
    cases hv
  · obtain ⟨other, _, hx⟩ := Option.bind_eq_some_iff.mp hx
    exact unheld (other, x) (Pool.mem_instances.mpr hx) u hu

/-! ## Actions -/

section
variable {id : InstanceId} {H : Horizon id} {h : Heap} {y : Instance}

theorem Heap.Confined.get? (c : h.Confined H) : ∃ x, h.pool.get? id = some x :=
  Option.isSome_iff_exists.mp c.live

theorem Heap.Confined.find (c : h.Confined H) {v : Value} (hv : H.known v = true)
    {e : InstanceId × Instance} (he : h.find v = .ok e) : ∀ u ∈ e.2.values, H.known u = true := by
  cases v with
  | ref other =>
    cases hx : h.pool.get? other with
    | none => simp [Heap.find, hx] at he
    | some x =>
      simp only [Heap.find, hx] at he
      cases he
      exact c.held (.ref other) x hv hx
  | _ => cases he

section
variable {k : Kind} {items : k.Content} {other : InstanceId}

theorem Heap.Confined.payload (c : h.Confined H) {x : Instance}
    (hother : H.known (.ref other) = true) (hx : h.pool.get? other = some x)
    (hpayload : x.payload = .of k items) : ∀ u ∈ (Payload.of k items).values, H.known u = true := by
  intro u hu
  refine c.held (.ref other) x hother hx u ?_
  rw [Instance.values, hpayload]
  exact List.mem_append_left _ hu

theorem Heap.Confined.content (c : h.Confined H) {v : Value} (hv : H.known v = true) {a : Access}
    (hc : h.content a v k = .ok (other, items)) :
    H.known (.ref other) = true ∧ ∀ u ∈ (Payload.of k items).values, H.known u = true := by
  obtain ⟨x, rfl, hx, _, hpayload⟩ := Heap.content_eq_ok hc
  exact ⟨hv, c.payload hv hx hpayload⟩

theorem Heap.Confined.read (c : h.Confined H) {v : Value} (hv : H.known v = true)
    (hread : h.read v k = .ok items) : ∀ u ∈ (Payload.of k items).values, H.known u = true := by
  obtain ⟨_, x, rfl, hx, hpayload⟩ := Heap.read_eq_ok hread
  exact c.payload hv hx hpayload

end

theorem Heap.Confined.held_after {t : Transition} (c : t.before.Confined H)
    (calm : t.action.calm = true) (given : ∀ v ∈ t.action.values, H.known v = true)
    {other : InstanceId} {x : Instance} (hv : H.known (.ref other) = true)
    (hx : t.after.pool.get? other = some x) : ∀ u ∈ x.values, H.known u = true := by
  intro u hu
  rcases t.poolStep.came hx with hplaced | ⟨⟨x₀, hx₀⟩, kept⟩
  · obtain ⟨a, h⟩ := t
    cases a with
    | place d p =>
      cases hplaced
      obtain ⟨y, hy, marks⟩ := Heap.get?_place_self c.toSoundPool d p
      cases hy.symm.trans hx
      have hvalues : ({ descriptor := d, payload := p } : Instance).values = p.values :=
        List.append_nil _
      rw [marks.values, hvalues] at hu
      exact given u hu
    | _ => cases hplaced
  · obtain ⟨y, hy, marks⟩ := t.effect_of_get? c.toSoundPool hx₀ kept
    cases hy.symm.trans hx
    rw [marks.values] at hu
    rcases Transition.mem_values_effect hu with hu | hu
    · exact c.held (.ref other) x₀ hv hx₀ u hu
    · exact given u hu

/-- A calm transition on known values leaves the heap confined. -/
theorem Transition.confined {t : Transition} (c : t.before.Confined H)
    (calm : t.action.calm = true) (given : ∀ v ∈ t.action.values, H.known v = true) :
    t.after.Confined H := by
  -- nothing is released, so what names no instance afterwards named none before
  have kept : ∀ other, t.before.contains (.ref other) = true →
      t.after.contains (.ref other) = true := by
    intro other hlive
    obtain ⟨x, hx⟩ := Option.isSome_iff_exists.mp hlive
    have kept : t.released? ≠ some other := by simp [t.released?_of_calm calm]
    obtain ⟨y, hy, _⟩ := t.effect_of_get? c.toSoundPool hx kept
    exact Option.isSome_iff_exists.mpr ⟨y, hy⟩
  refine ⟨t.soundPool c.toSoundPool, kept id c.live, fun v hv => ?_, fun v x hv hx => ?_,
    fun takes v hv => ?_⟩
  · cases v with
    | ref other =>
      refine c.dead (.ref other) (Bool.eq_false_iff.mpr fun hlive => ?_)
      rw [kept other hlive] at hv
      cases hv
    | _ => exact H.immediate _ rfl
  · cases v with
    | ref other => exact c.held_after calm given hv hx
    | _ => cases hx
  · rcases t.mem_stack_after calm hv with hv | hv
    · exact c.stack takes v hv
    · exact given v hv

/-- An action on known values does the same whatever the hidden instance is like. -/
theorem Action.apply_put {α : Type} {a : Action α} (c : h.Confined H) (calm : a.calm = true)
    (given : ∀ v ∈ a.values, H.known v = true) :
    a.apply (h.put id y) = ((a.apply h).1, (a.apply h).2.put id y) := by
  have known : ∀ {v : Value}, v ∈ a.values → v ≠ .ref id := fun hv => H.ne (given _ hv)
  cases a with
  | change v c => exact Prod.ext rfl (Heap.modify_put (known List.mem_cons_self) _)
  | mark v => exact Prod.ext rfl (Heap.mark_put (known List.mem_cons_self))
  | startUse a other | stopUse a other =>
    refine Prod.ext rfl ?_
    show ({ (h.put id y).modify (.ref other) _ with borrows := _ } : Heap) = _
    rw [Heap.modify_put (known List.mem_cons_self)]
    rfl
  | place d p =>
    obtain ⟨x, hx⟩ := c.get?
    exact Heap.place_put c.toSoundPool hx d p
  | attach v =>
    show (h.put id y).attach v = ((h.attach v).1, (h.attach v).2.put id y)
    unfold Heap.attach
    rw [Heap.contains_put, show (h.put id y).frames = h.frames from rfl]
    split <;> rfl
  | pop =>
    show (h.put id y).pop = (h.pop.1, h.pop.2.put id y)
    unfold Heap.pop
    rw [show (h.put id y).stack = h.stack from rfl]
    split <;> rfl
  | nextGray =>
    show (h.put id y).nextGray = (h.nextGray.1, h.nextGray.2.put id y)
    unfold Heap.nextGray
    rw [show (h.put id y).collector = h.collector from rfl]
    split <;> rfl
  | schedule =>
    obtain ⟨slots, _, hput⟩ := h.put_eq id y
    have hlive : (h.put id y).pool.live = h.pool.live := by rw [hput]
    show ((), (h.put id y).schedule) = ((), h.schedule.put id y)
    unfold Heap.schedule
    rw [hlive]
    rfl
  | evict | startMarking | startSweep | startTeardown | finishCollection | setPhase => cases calm
  | _ => rfl

end

end TracedHeap
