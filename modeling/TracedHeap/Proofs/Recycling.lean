import TracedHeap.Proofs.Confinement
import TracedHeap.Proofs.Conversion
import TracedHeap.Proofs.Effect
import TracedHeap.Proofs.Interlude
import TracedHeap.Proofs.Lifetime

/-!
# Slots that are used again

An instance that comes into a slot finds nothing of those that were there before it, and the names
that these had lead nowhere: whoever still has one learns nothing about the new instance and can do
nothing to it.

* `Heap.get?_place_eq`     the new instance, exactly;
* `Path.get?_eq_none`      a name that stands for nothing stays so, until it is given;
* `Run.Inert`              a computation that neither changes anything nor depends on the heap, as
                           long as a name stands for nothing;
* `Op.inert`, `Step.inert` what is done with such a name is of this kind;
* `recycled_slot_clean`    all of this for an allocation at any moment, and with `Step.confined`
                           what the name is worth in every other place of a step.
-/

namespace TracedHeap

open Run

/-! ## The new instance -/

namespace Heap

theorem pool_mark {h : Heap} {id : InstanceId} {x : Instance} (hx : h.pool.get? id = some x)
    (unmarked : x.marked = false) :
    (h.mark (.ref id)).pool = h.pool.modify id fun x => { x with marked := true } := by
  have hfind : h.find? (.ref id) = some x := hx
  unfold mark
  simp only [hfind, unmarked, Bool.false_eq_true, if_false]
  split <;> rfl

theorem get?_place_eq {h : Heap} (sound : h.SoundPool) (d : Descriptor) (p : Payload) :
    (h.place d p).2.pool.get? (h.place d p).1 =
      some { descriptor := d, payload := p, marked := decide (h.collector.phase = .marking) } := by
  have hplaced := Pool.get?_eq_some_iff.mpr (sound.sound.getElem?_place d p)
  unfold place
  simp only
  split
  · next marking =>
    rw [pool_mark (h := h.enroll _ _) hplaced rfl, Pool.get?_modify_self, decide_eq_true marking]
    show Option.map _ ((h.pool.place h.config.poolIncrement d p).2.get? _) = _
    rw [hplaced]
    rfl
  · next idle =>
    rw [decide_eq_false idle]
    exact hplaced

end Heap

/-! ## Names that stand for nothing -/

/-- A name that stands for nothing stays so, until it is given. -/
theorem Path.get?_eq_none {h h' : Heap} {ts : List Transition} {id : InstanceId}
    (p : Path h ts h') (gone : h.pool.get? id = none) (new : ∀ t ∈ ts, t.placed? ≠ some id) :
    h'.pool.get? id = none := by
  induction p with
  | nil => exact gone
  | cons t _ ih =>
    refine ih ?_ fun u hu => new u (List.mem_cons_of_mem t hu)
    cases hy : t.after.pool.get? id with
    | none => rfl
    | some y =>
      rcases t.poolStep.came hy with hplaced | ⟨⟨x, hx⟩, _⟩
      · exact absurd hplaced (new t List.mem_cons_self)
      · rw [gone] at hx
        cases hx

namespace Heap

variable {h : Heap} {old : InstanceId}

section
variable (gone : h.pool.get? old = none)
include gone

theorem find?_of_none : h.find? (.ref old) = none := gone

theorem modify_of_none (f : Instance → Instance) : h.modify (.ref old) f = h := by
  show { h with pool := h.pool.modify old f } = h
  rw [Pool.modify_of_get?_eq_none gone]

theorem mark_of_none : h.mark (.ref old) = h := by
  unfold mark
  rw [find?_of_none gone]

theorem contains_of_none : h.contains (.ref old) = false := by
  rw [contains, find?_of_none gone]
  rfl

theorem attach_of_none : h.attach (.ref old) = (false, h) := by
  unfold attach
  rw [contains_of_none gone]
  rfl

theorem callback_of_none (b : Behavior) : h.callback b (.ref old) = .error (.stale old) := by
  show (h.find (.ref old)).map _ = _
  rw [find_of_none gone]
  rfl

theorem content_of_none (a : Access) (k : Kind) :
    h.content a (.ref old) k = .error (.stale old) := by
  unfold content
  rw [find_of_none gone]
  rfl

theorem descriptorOf_of_none : h.descriptorOf (.ref old) = none := by
  rw [descriptorOf, find?_of_none gone]
  rfl

end

end Heap

/-! ## Computations that such a name leads nowhere -/

def Operand.valueIn (c : Context) : Operand → Except Error Value
  | const v => .ok v
  | var name => .ok (c.lookup name)
  | malformed => .error (.raised "bad input: value")

theorem Operand.exec_resolve (o : Operand) (c : Context) (h : Heap) :
    o.resolve.run.exec ⟨c, h⟩ = (.ok (o.valueIn c), ⟨c, h⟩) := by
  cases o <;> rfl

/-- In the context `c` the computation changes nothing, and its answer is the same for all heaps in
which `old` stands for nothing. -/
def Run.Inert {α : Type} (c : Context) (old : InstanceId) (x : Run α) : Prop :=
  ∃ answer, ∀ h : Heap, h.pool.get? old = none → x.exec ⟨c, h⟩ = (answer, ⟨c, h⟩)

section
variable {α β : Type} {c : Context} {old : InstanceId}

theorem inert_pure (a : α) : (pure a : Attempt α).run.Inert c old := ⟨_, fun _ _ => rfl⟩

theorem inert_bind {x : Attempt α} {next : α → Attempt β} (hx : x.run.Inert c old)
    (hnext : ∀ a, (next a).run.Inert c old) : (x >>= next).run.Inert c old := by
  obtain ⟨answer, hx⟩ := hx
  rcases answer with why | e | a
  · exact ⟨.error why, fun h gone => by rw [Attempt.exec_bind, hx h gone]⟩
  · exact ⟨.ok (.error e), fun h gone => by rw [Attempt.exec_bind, hx h gone]⟩
  · obtain ⟨answer, hnext⟩ := hnext a
    exact ⟨answer, fun h gone => by rw [Attempt.exec_bind, hx h gone]; exact hnext h gone⟩

theorem inert_resolve (o : Operand) : o.resolve.run.Inert c old :=
  ⟨_, fun h _ => o.exec_resolve c h⟩

theorem inert_receiver {o : Operand} {v : Value} {next : Value → Attempt β}
    (ho : o.valueIn c = .ok v) (hnext : (next v).run.Inert c old) :
    (o.resolve >>= next).run.Inert c old := by
  obtain ⟨answer, hnext⟩ := hnext
  refine ⟨answer, fun h gone => ?_⟩
  rw [Attempt.exec_bind, o.exec_resolve, ho]
  exact hnext h gone

/-- A question about the name is refused, and what would come after it does not run. -/
theorem inert_ask {f : Heap → Except Error α} {e : Error} {next : α → Attempt β}
    (refused : ∀ h : Heap, h.pool.get? old = none → f h = .error e) :
    (Attempt.ask f >>= next).run.Inert c old := by
  refine ⟨.ok (.error e), fun h gone => ?_⟩
  rw [Attempt.exec_bind, Attempt.exec_ask, refused h gone]

theorem inert_act {a : Action α} (answer : α) {next : α → Attempt β}
    (idle : ∀ h : Heap, h.pool.get? old = none → a.apply h = (answer, h))
    (hnext : (next answer).run.Inert c old) : (Attempt.act a >>= next).run.Inert c old := by
  obtain ⟨reply, hnext⟩ := hnext
  refine ⟨reply, fun h gone => ?_⟩
  rw [Attempt.exec_bind, Attempt.exec_act]
  simp only [idle h gone]
  exact hnext h gone

theorem inert_change {change : Change} {next : Unit → Attempt β} :
    (Attempt.change (.ref old) change >>= next).run.Inert c old := by
  refine ⟨.ok (.error (.stale old)), fun h gone => ?_⟩
  unfold Attempt.change
  rw [Attempt.exec_bind, Attempt.exec_bind, Attempt.exec_ask, Heap.find_of_none gone]

theorem inert_look {f : Heap → α} (answer : α)
    (same : ∀ h : Heap, h.pool.get? old = none → f h = answer) :
    (do return f (← heap) : Attempt α).run.Inert c old := by
  refine ⟨.ok (.ok answer), fun h gone => ?_⟩
  rw [← same h gone]
  rfl

theorem inert_lift {x : Run α} (answer : α) {next : α → β}
    (same : ∀ h : Heap, h.pool.get? old = none → x.exec ⟨c, h⟩ = (.ok answer, ⟨c, h⟩)) :
    (do return next (← x) : Attempt β).run.Inert c old := by
  refine ⟨.ok (.ok (next answer)), fun h gone => ?_⟩
  rw [Attempt.exec_bind, Attempt.exec_lift, same h gone]
  rfl

end

/-! ## Operations -/

/-- The operand that stands for the instance an operation is about. -/
def Op.receiver? : Op → Option Operand
  | descriptorOf v | typeName v | behaviorsOf v | payloadIs v _ | tableFind _ v | tableKeys v
  | attach v | pin _ v | query _ v
  | setProperty v _ _ | property v _ | removeProperty v _ | propertyKeys v
  | setDebugHook v _ | debugHook v | nextCursor v _ | resetCursor v | invalidateSequence v
  | view _ v | toSequence v | copy v | get v _ | set v _ _ | equal v _ | length v | call v => some v
  | _ => none

def Step.receiver? : Step → Option Operand
  | op o => o.receiver?
  | payloadRead v _ _ | payloadWrite v _ _ _ => some v
  | _ => none

section
variable {c : Context} {old : InstanceId} {h : Heap} (r : Runner)

theorem exec_inspect_of_none (gone : h.pool.get? old = none) :
    (inspect r (.ref old)).exec ⟨c, h⟩ = (.ok (staleText (.ref old)), ⟨c, h⟩) := by
  unfold inspect
  simp only [exec_bind, heap, exec_look, Heap.callback_of_none gone]
  rfl

theorem exec_view_of_none (view : View) (gone : h.pool.get? old = none) :
    (view.run r (.ref old)).exec ⟨c, h⟩ = (.ok (staleText (.ref old)), ⟨c, h⟩) := by
  cases view with
  | inspect => exact exec_inspect_of_none r gone
  | stringify =>
    show (stringify r (.ref old)).exec ⟨c, h⟩ = _
    unfold stringify
    simp only [exec_bind, heap, exec_look, Heap.callback_of_none gone]
    exact exec_inspect_of_none r gone
  | dump =>
    show (TracedHeap.dump r (.ref old)).exec ⟨c, h⟩ = _
    unfold TracedHeap.dump
    simp only [exec_bind, heap, exec_look, Heap.callback_of_none gone]
    exact exec_inspect_of_none r gone

end

/-- An operation on an instance that is gone changes nothing, and its answer does not depend on the
heap. -/
theorem Op.inert {c : Context} {old : InstanceId} {o : Op} {v : Operand} (r : Runner)
    (ho : o.receiver? = some v) (hv : v.valueIn c = .ok (.ref old)) :
    (o.run r).run.Inert c old := by
  have unfound : ∀ {α : Type} (f : InstanceId × Instance → α) (h : Heap),
      h.pool.get? old = none → (h.find (.ref old)).map f = .error (.stale old) := by
    intro α f h gone
    rw [Heap.find_of_none gone]
    rfl
  have uncalled : ∀ (b : Behavior) (h : Heap), h.pool.get? old = none →
      h.callback b (.ref old) = .error (.stale old) := fun b _ gone => Heap.callback_of_none gone b
  cases o <;> cases ho
  case descriptorOf =>
    refine inert_receiver hv (inert_look (Reply.descriptor none) fun h gone => ?_)
    rw [Heap.descriptorOf_of_none gone]
  case typeName =>
    refine inert_receiver hv (inert_look (Reply.text "freed") fun h gone => ?_)
    rw [Heap.typeName, Heap.descriptorOf_of_none gone]
    rfl
  case behaviorsOf =>
    refine inert_receiver hv (inert_look (Reply.texts []) fun h gone => ?_)
    rw [Heap.behaviorsOf, Heap.descriptorOf_of_none gone]
    rfl
  case payloadIs =>
    refine inert_receiver hv (inert_look (Reply.flag false) fun h gone => ?_)
    rw [Heap.payloadIs, Heap.find?_of_none gone]
    rfl
  case tableFind =>
    refine inert_bind (inert_resolve _) fun key => inert_receiver hv ?_
    exact inert_ask fun h gone => Heap.content_of_none gone .read .table
  case tableKeys =>
    refine inert_receiver hv (inert_ask (e := .stale old) fun h gone => ?_)
    rw [Heap.read, Heap.content_of_none gone]
    rfl
  case attach =>
    exact inert_receiver hv (inert_act false (fun _ => Heap.attach_of_none) (inert_pure _))
  case pin p =>
    refine inert_receiver hv (inert_act () (fun h gone => ?_) (inert_pure _))
    cases p with
    | mark => exact Prod.ext rfl (Heap.mark_of_none gone)
    | _ => exact Prod.ext rfl (Heap.modify_of_none gone _)
  case query q =>
    refine inert_receiver hv (inert_look (Reply.flag false) fun h gone => ?_)
    have hnone := Heap.find?_of_none gone
    cases q <;>
      simp [Query.answer, Heap.contains, Heap.isMarked, Heap.isProtected, Heap.isPermanent, hnone]
  case setProperty => exact inert_receiver hv (inert_bind (inert_resolve _) fun _ => inert_change)
  case property =>
    refine inert_receiver hv (inert_ask (e := .stale old) fun h gone => ?_)
    rw [Heap.property, Heap.property?, unfound _ h gone]
    rfl
  case removeProperty => exact inert_receiver hv (inert_ask (unfound _))
  case propertyKeys => exact inert_receiver hv (inert_ask (unfound _))
  case setDebugHook => exact inert_receiver hv (inert_bind (inert_resolve _) fun _ => inert_change)
  case debugHook => exact inert_receiver hv (inert_ask (unfound _))
  case nextCursor => exact inert_receiver hv (inert_ask (unfound _))
  case resetCursor => exact inert_receiver hv inert_change
  case invalidateSequence => exact inert_receiver hv inert_change
  case view w => exact inert_receiver hv (inert_lift _ fun _ => exec_view_of_none r w)
  case toSequence =>
    exact inert_receiver hv (inert_bind (inert_ask (uncalled _)) fun _ => inert_pure _)
  case copy => exact inert_receiver hv (inert_bind (inert_ask (uncalled _)) fun _ => inert_pure _)
  case get =>
    refine inert_receiver hv (inert_bind (inert_resolve _) fun index => ?_)
    exact inert_bind (inert_ask (uncalled _)) fun _ => inert_pure _
  case set =>
    refine inert_receiver hv (inert_bind (inert_resolve _) fun index =>
      inert_bind (inert_resolve _) fun item => ?_)
    exact inert_bind (inert_ask (uncalled _)) fun _ => inert_pure _
  case equal =>
    refine inert_receiver hv (inert_bind (inert_resolve _) fun other =>
      inert_lift (Value.ref old == other) fun h gone => ?_)
    unfold TracedHeap.equal
    simp only [exec_bind, heap, exec_look, uncalled _ h gone]
    rfl
  case length =>
    refine inert_receiver hv (inert_lift 0 fun h gone => ?_)
    unfold TracedHeap.length
    simp only [exec_bind, heap, exec_look, uncalled _ h gone]
    rfl
  case call => exact inert_receiver hv (inert_bind (inert_ask (uncalled _)) fun _ => inert_pure _)

/-- The same of steps: the payload of an instance that is gone cannot be borrowed. -/
theorem Step.inert {c : Context} {old : InstanceId} {step : Step} {v : Operand} (r : Runner)
    (hstep : step.receiver? = some v) (hv : v.valueIn c = .ok (.ref old)) :
    (step.run r).run.Inert c old := by
  cases step with
  | op o =>
    rw [Step.run]
    exact Op.inert r hstep hv
  | payloadRead _ kind _ =>
    cases hstep
    rw [Step.run]
    exact inert_receiver hv (inert_ask fun _ gone => Heap.content_of_none gone .read kind)
  | payloadWrite _ kind _ _ =>
    cases hstep
    rw [Step.run]
    exact inert_receiver hv (inert_ask fun _ gone => Heap.content_of_none gone .write kind)
  | _ => cases hstep

/-! ## Allocation at any moment -/

section
variable {config : Config} {past since : List Transition} {w w' : World} {r : Runner}
  {d : Descriptor} {p : Payload} {v : Value} {h : Heap}

theorem allocate_clean (sound : w.heap.SoundPool)
    (ok : (allocate r d p).run.exec w = (.ok (.ok v), w')) :
    ∃ id, v = .ref id ∧ w'.heap.pool.get? id =
      some { descriptor := d, payload := p,
             marked := decide (w'.heap.collector.phase = .marking) } := by
  obtain ⟨w₁, hdue, rfl, hheap, _⟩ := allocate_eq_ok ok
  have path := (collectIfDue r).path_trace w
  rw [hdue] at path
  have sound₁ := path.soundPool sound
  refine ⟨_, rfl, ?_⟩
  rw [hheap, Heap.phase_place]
  exact Heap.get?_place_eq sound₁ d p

/-- The name of an earlier instance of a slot stands for nothing from the moment on at which the
slot is used again. -/
theorem Path.get?_of_reused {h₁ : Heap} {id old : InstanceId} {x : Instance} {t : Transition}
    (before : Path (Heap.new config) past h₁) (later : Path h₁ since h)
    (valid : config.fault? = none) (few : ∀ i, releases (past ++ since) i < UInt32.size)
    (hx : h₁.pool.get? id = some x) (ht : t ∈ past) (hold : t.placed? = some old)
    (hindex : old.index = id.index) (hne : old ≠ id) : h.pool.get? old = none := by
  have gone : h₁.pool.get? old = none := by
    cases hy : h₁.pool.get? old with
    | none => rfl
    | some y => exact absurd (Pool.eq_of_index_eq hy hx hindex) hne
  refine later.get?_eq_none gone fun u hu hplaced => ?_
  -- the name would be given twice
  have nodup := (before.append later).nodup_placed (Heap.soundPool_new valid) few
  rw [List.filterMap_append] at nodup
  exact List.disjoint_of_nodup_append nodup (List.mem_filterMap.mpr ⟨t, ht, hold⟩)
    (List.mem_filterMap.mpr ⟨u, hu, hplaced⟩)

end

/-- Slots that are used again carry nothing over.  At any moment, and whatever the earlier instances
of the slot had, an allocation that succeeds gives an instance with the type and the payload it was
given, and with nothing in its header, but for a mark if a marking is going on.  And from then on
the name of an earlier instance of the slot leads nowhere, as long as no slot is released 2³² times:
changes and marks do nothing, and a step that is about such a name changes nothing and answers the
same on all heaps in which the name stands for no instance.

Nor does the name lead anywhere in another place of a step, as the other side of a comparison or as
a key or an item.  It belongs to what is known where the new instance is hidden.  Let a step name
what is known, in whichever place, and not ask about all instances at once; let no collection begin
meanwhile, and let the callbacks that are called keep to the same.  Then the step does the same with
any other instance in the place of the new one, and leaves the new one as it is. -/
theorem recycled_slot_clean {config : Config} {past since : List Transition} {w w' : World}
    {r : Runner} {d : Descriptor} {p : Payload} {v : Value} {h : Heap}
    (valid : config.fault? = none) (reached : Path (Heap.new config) past w.heap)
    (ok : (allocate r d p).run.exec w = (.ok (.ok v), w')) (later : Path w'.heap since h)
    (few : ∀ i, releases (past ++ (allocate r d p).run.trace w ++ since) i < UInt32.size) :
    ∃ id, v = .ref id ∧
      w'.heap.pool.get? id =
        some { descriptor := d, payload := p,
               marked := decide (w'.heap.collector.phase = .marking) } ∧
      ∀ t ∈ past ++ (allocate r d p).run.trace w, ∀ old, t.placed? = some old →
        old.index = id.index → old ≠ id →
          h.find (.ref old) = .error (.stale old) ∧ h.mark (.ref old) = h ∧
          (∀ change, h.change (.ref old) change = h) ∧
          (∀ (runner : Runner) (step : Step) (o : Operand) (c : Context),
            step.receiver? = some o → o.valueIn c = .ok (.ref old) →
            ∃ answer, (step.run runner).run.exec ⟨c, h⟩ = (answer, ⟨c, h⟩) ∧
              ∀ k : Heap, k.contains (.ref old) = false →
                (step.run runner).run.exec ⟨c, k⟩ = (answer, ⟨c, k⟩)) ∧
          ∀ (H : Horizon id) (n : Nat) (step : Step) (c : Context),
            World.Confined H ⟨c, h⟩ → step.within H = true →
            (∀ t ∈ (step.run (.ofDepth n)).run.trace ⟨c, h⟩, t.within H = true) →
            H.known (.ref old) = true ∧
            ∃ answer after, (step.run (.ofDepth n)).run.exec ⟨c, h⟩ = (answer, after) ∧
              after.heap.pool.get? id = h.pool.get? id ∧
              ∀ y, (step.run (.ofDepth n)).run.exec ⟨c, h.put id y⟩ = (answer, after.put id y) := by
  have sound := (reached.invariant (fun t _ => t.soundPool) (Heap.soundPool_new valid)).1
  obtain ⟨id, rfl, hx⟩ := allocate_clean sound ok
  refine ⟨id, rfl, hx, fun t ht old hold hindex hne => ?_⟩
  have path := (allocate r d p).run.path_trace w
  rw [ok] at path
  have gone : h.pool.get? old = none :=
    (reached.append path).get?_of_reused later valid few hx ht hold hindex hne
  refine ⟨Heap.find_of_none gone, Heap.mark_of_none gone, fun _ => Heap.modify_of_none gone _,
    fun runner step o c hstep ho => ?_, fun H n step c confined hstep permitted => ?_⟩
  · obtain ⟨answer, same⟩ := Step.inert runner hstep ho
    exact ⟨answer, same h gone, fun k hk => same k (Option.not_isSome_iff_eq_none.mp
      (Bool.eq_false_iff.mp hk))⟩
  · exact ⟨confined.heap.dead _ (Heap.contains_of_none gone),
      Step.confined n hstep confined permitted⟩

/-- A session that keeps a string and a table in which it is a key, and leaves a slot in which one
with the same text was, and with a property, a hook and a cursor. -/
def leftSlot : Session where
  config := { reuseThreshold := 1 }
  steps := [.bind "s" (.op (.string "k")), .op (.pin .protect (.var "s")),
    .bind "t" (.op .table), .op (.pin .protect (.var "t")),
    .op (.set (.var "t") (.var "s") (.const (.int 3))),
    .bind "a" (.op (.string "k")),
    .op (.setProperty (.var "a") "colour" (.const (.int 1))),
    .op (.setDebugHook (.var "a") (.const (.int 2))), .op (.nextCursor (.var "a") 5),
    .op .collect]

theorem recycled_slot_clean_leftSlot :
    ∃ w', (allocate (.ofDepth 3) ⟨2⟩ (.text "k")).run.exec (leftSlot.closing (.ofDepth 3)) =
        (.ok (.ok (.ref ⟨2, 1⟩)), w') ∧
      w'.heap.pool.get? ⟨2, 1⟩ = some { descriptor := ⟨2⟩, payload := .text "k" } ∧
      w'.heap.find (.ref ⟨2, 0⟩) = .error (.stale ⟨2, 0⟩) ∧
      (∃ answer, ((Step.op (.property (.var "a") "colour")).run (.ofDepth 3)).run.exec w' =
        (answer, w')) ∧
      ∀ y, (((Step.op (.equal (.var "s") (.var "a"))).run (.ofDepth 3)).run.exec
          (w'.put ⟨2, 1⟩ y)).1 = .ok (.ok (.flag false)) ∧
        (((Step.op (.tableFind (.var "a") (.var "t"))).run (.ofDepth 3)).run.exec
          (w'.put ⟨2, 1⟩ y)).1 = .ok (.ok (.position none)) := by
  have hok : ((allocate (.ofDepth 3) ⟨2⟩ (.text "k")).run.exec (leftSlot.closing (.ofDepth 3))).1 =
      .ok (.ok (.ref ⟨2, 1⟩)) := by decide +kernel
  have hidle : ((allocate (.ofDepth 3) ⟨2⟩ (.text "k")).run.exec
      (leftSlot.closing (.ofDepth 3))).2.heap.collector.phase ≠ .marking := by decide +kernel
  have hvar : ((allocate (.ofDepth 3) ⟨2⟩ (.text "k")).run.exec
      (leftSlot.closing (.ofDepth 3))).2.lookup "a" = .ref ⟨2, 0⟩ := by decide +kernel
  obtain ⟨t, ht, hold⟩ := List.mem_map.mp (show some ⟨2, 0⟩ ∈
      (leftSlot.opening.trace (leftSlot.start (Heap.new leftSlot.config)) ++
        leftSlot.stepsTrace (.ofDepth 3) leftSlot.steps leftSlot.opened).map Transition.placed? by
    decide +kernel)
  obtain ⟨id, hid, hx, stale⟩ := recycled_slot_clean (by rfl) (leftSlot.path_closing (.ofDepth 3))
    (Prod.ext hok rfl) (.nil _) fun i =>
      Nat.lt_of_le_of_lt (releases_le_length _ i) (by decide +kernel)
  cases hid
  obtain ⟨hfind, _, _, silent, hidden⟩ :=
    stale t (List.mem_append_left _ ht) ⟨2, 0⟩ hold rfl (by decide)
  obtain ⟨answer, same, _⟩ := silent (.ofDepth 3) (.op (.property (.var "a") "colour")) (.var "a")
    _ rfl (congrArg Except.ok hvar)
  have sound := ((leftSlot.path_closing (.ofDepth 3)).append
    ((allocate (.ofDepth 3) ⟨2⟩ (.text "k")).run.path_trace _)).soundPool
      (Heap.soundPool_new (by rfl))
  have confined : World.Confined (.allBut ⟨2, 1⟩) _ := World.confined_allBut sound
    (by decide +kernel) (by decide +kernel) (by decide +kernel) (by decide +kernel)
  obtain ⟨_, equal, _, hequal, _, equals⟩ := hidden (.allBut ⟨2, 1⟩) 3
    (.op (.equal (.var "s") (.var "a"))) _ confined (by decide) (by decide +kernel)
  obtain ⟨_, found, _, hfound, _, finds⟩ := hidden (.allBut ⟨2, 1⟩) 3
    (.op (.tableFind (.var "a") (.var "t"))) _ confined (by decide) (by decide +kernel)
  have unequal : equal = .ok (.ok (.flag false)) :=
    (congrArg Prod.fst hequal).symm.trans (show (((Step.op (.equal (.var "s") (.var "a"))).run
      (.ofDepth 3)).run.exec ((allocate (.ofDepth 3) ⟨2⟩ (.text "k")).run.exec
        (leftSlot.closing (.ofDepth 3))).2).1 = _ by decide +kernel)
  have unfound : found = .ok (.ok (.position none)) :=
    (congrArg Prod.fst hfound).symm.trans (show (((Step.op (.tableFind (.var "a") (.var "t"))).run
      (.ofDepth 3)).run.exec ((allocate (.ofDepth 3) ⟨2⟩ (.text "k")).run.exec
        (leftSlot.closing (.ofDepth 3))).2).1 = _ by decide +kernel)
  rw [decide_eq_false hidle] at hx
  exact ⟨_, Prod.ext hok rfl, hx, hfind, ⟨answer, same⟩, fun y =>
    ⟨(congrArg Prod.fst (equals y)).trans unequal, (congrArg Prod.fst (finds y)).trans unfound⟩⟩

end TracedHeap
