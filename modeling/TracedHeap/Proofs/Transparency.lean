import TracedHeap.Proofs.Containers
import TracedHeap.Proofs.Likeness

/-!
# Collections are transparent

Reading a value that a collection keeps gives the same after the collection as before.

* `Heap.Alike`             two heaps that cannot be told apart by looking at `safe` values, and at
                           whatever is reached from there;
* `Run.Sim`                a computation on the one heap and a computation on the other go the same
                           way;
* `Runner.ReadsAlike`      the callbacks that read go the same way on both heaps, to whatever depth
                           they call one another;
* `Op.Reads`               the operations that read;
* `collect_transparent`    they give the same before and after a collection.
-/

namespace TracedHeap

open Run

/-! ## Heaps that look alike -/

/-- Two heaps of containers that cannot be told apart by looking at `safe` values: the instances
they stand for differ in their marks at most, and hold safe values only. -/
structure Heap.Alike (safe : Value → Prop) (h h' : Heap) : Prop where
  plain : h.registry.Plain
  registry : h'.registry = h.registry
  find? : ∀ v, safe v → h'.find? v = (h.find? v).map Instance.unmark
  held : ∀ v x, safe v → h.find? v = some x → ∀ u ∈ h.held containerParts x, safe u

namespace Heap.Alike

variable {safe : Value → Prop} {h h' : Heap} {v : Value}

theorem looksAlike (a : h.Alike safe h') (hv : safe v) : h.LooksAlike v h' :=
  ⟨a.registry, fun _ => false, a.find? v hv⟩

/-- A safe value whose type has a mark routine holds the values which that routine finds, and so
these are safe. -/
theorem parts (a : h.Alike safe h') (hv : safe v) {m : Routine .mark}
    (hm : ∀ d ∈ h.descriptorOf v, h.registry.callback? d .mark = some (.routine m)) {k : Kind}
    {c : k.Content} (hread : h.read v k = .ok c) :
    ∀ u ∈ containerParts (.routine m) (.of k c), safe u := by
  cases v with
  | ref id =>
    cases hx : h.pool.get? id with
    | none =>
      simp [Heap.read, Heap.content, Heap.find, hx, Bind.bind, Except.bind, Except.map] at hread
    | some x =>
      have hpayload : x.payload = .of k c := by
        have hfind : h.find (.ref id) = .ok (id, x) := by simp [Heap.find, hx]
        unfold Heap.read Heap.content at hread
        rw [hfind] at hread
        change Except.map _ (if Access.allowed .read x.borrow = true then _ else _) = _ at hread
        split at hread
        · cases hc : x.payload.as? k with
          | none =>
            rw [hc] at hread
            cases hread
          | some c' =>
            rw [hc] at hread
            cases hread
            exact Payload.as?_eq_some_iff.mp hc
        · cases hread
      have hfind : h.find? (.ref id) = some x := hx
      intro u hu
      refine a.held (.ref id) x hv hfind u ?_
      have hcallback := hm x.descriptor (by simp [Heap.descriptorOf, hfind])
      unfold Heap.held
      rw [hcallback, hpayload]
      exact List.mem_append_right _ hu
  | _ => simp [Heap.read, Heap.content, Heap.find, Bind.bind, Except.bind, Except.map] at hread

theorem entries (a : h.Alike safe h') (hv : safe v)
    (hm : ∀ d ∈ h.descriptorOf v, h.registry.callback? d .mark = some (.routine .tableMark))
    {es : List (Value × Value)} (hread : h.read v .table = .ok es) :
    ∀ e ∈ es, safe e.1 ∧ safe e.2 := by
  intro e he
  have hparts := a.parts hv hm hread
  have hmem : ∀ u ∈ [e.1, e.2], u ∈ es.flatMap fun e => [e.1, e.2] := fun u hu =>
    List.mem_flatMap.mpr ⟨e, he, hu⟩
  exact ⟨hparts _ (hmem _ (by simp)), hparts _ (hmem _ (by simp))⟩

/-- A callback of a value is found in the table of its type. -/
theorem entry_of_callback {b : Behavior} {c : Callback b} (hc : h.callback b v = .ok (some c)) :
    ∃ x record, h.find? v = some x ∧ h.registry.get? x.descriptor = some record ∧
      record.table.entry b = some c := by
  cases v with
  | ref id =>
    cases hx : h.pool.get? id with
    | none => simp [Heap.callback, Heap.find, hx, Except.map] at hc
    | some x =>
      have hentry : h.registry.callback? x.descriptor b = some c := by
        simpa [Heap.callback, Heap.find, hx, Except.map] using hc
      obtain ⟨record, hrecord, hentry⟩ := Option.bind_eq_some_iff.mp hentry
      exact ⟨x, record, hx, hrecord, hentry⟩
  | _ => cases hc

theorem exists_routine (a : h.Alike safe h') {b : Behavior} {c : Callback b}
    (hc : h.callback b v = .ok (some c)) : ∃ k, c = .routine k := by
  obtain ⟨x, record, _, hrecord, hentry⟩ := entry_of_callback hc
  obtain ⟨k, hk, _⟩ := (a.plain _ record hrecord).entry hentry
  exact ⟨k, hk⟩

theorem mark_of_callback (a : h.Alike safe h') {b : Behavior} {k : Routine b} {m : Routine .mark}
    (hc : h.callback b v = .ok (some (.routine k))) (hm : k.tracedBy? = some m) :
    ∀ d ∈ h.descriptorOf v, h.registry.callback? d .mark = some (.routine m) := by
  intro d hd
  obtain ⟨x, record, hx, hrecord, hentry⟩ := entry_of_callback hc
  obtain ⟨k', hk', hmark⟩ := (a.plain _ record hrecord).entry hentry
  obtain ⟨x', hx', rfl⟩ := Option.map_eq_some_iff.mp hd
  cases hk'
  cases hx.symm.trans hx'
  exact Option.bind_eq_some_iff.mpr ⟨record, hrecord, hmark m hm⟩

end Heap.Alike

/-! ## Computations that go the same way -/

/-- Two worlds with the heaps `h` and `h'` that are otherwise the same, but for their logs. -/
structure Twins (h h' : Heap) (u u' : World) : Prop where
  left : u.heap = h
  right : u'.heap = h'
  context : u'.toContext.unlogged = u.toContext.unlogged

/-- Started in twin worlds, the computations give the same and leave twin worlds. -/
def Run.Sim {α : Type} (h h' : Heap) (x x' : Run α) : Prop :=
  ∀ u u', Twins h h' u u' →
    (x'.exec u').1 = (x.exec u).1 ∧ Twins h h' (x.exec u).2 (x'.exec u').2

section
variable {α β : Type} {h h' : Heap}

theorem sim_pure (a : α) : Sim h h' (pure a : Run α) (pure a) := fun _ _ t => ⟨rfl, t⟩

theorem sim_halt (why : Halt) : Sim h h' (halt why : Run α) (halt why) := fun _ _ t => ⟨rfl, t⟩

theorem sim_note {f : Context → Context} (hf : ∀ c, (f c).unlogged = f c.unlogged) :
    Sim h h' (note f) (note f) := by
  refine fun u u' t => ⟨rfl, t.left, t.right, ?_⟩
  show (f u'.toContext).unlogged = (f u.toContext).unlogged
  rw [hf, hf, t.context]

theorem sim_bind {x x' : Run α} {next next' : α → Run β} (hx : Sim h h' x x')
    (hnext : ∀ a, Sim h h' (next a) (next' a)) : Sim h h' (x >>= next) (x' >>= next') := by
  intro u u' t
  obtain ⟨hfst, hsnd⟩ := hx u u' t
  rw [exec_bind, exec_bind]
  rcases hu : x.exec u with ⟨_ | a, w⟩ <;> rcases hu' : x'.exec u' with ⟨_ | a', w'⟩ <;>
    rw [hu, hu'] at hfst hsnd <;> cases hfst
  · exact ⟨rfl, hsnd⟩
  · exact hnext a w w' hsnd

theorem sim_ensuring {x x' : Run α} {last : Run Unit} (hx : Sim h h' x x')
    (hlast : Sim h h' last last) : Sim h h' (ensuring x last) (ensuring x' last) := by
  intro u u' t
  obtain ⟨hfst, hsnd⟩ := hx u u' t
  obtain ⟨hfst₂, hsnd₂⟩ := hlast _ _ hsnd
  rw [exec_ensuring_fst, exec_ensuring_fst, exec_ensuring_snd, exec_ensuring_snd, hfst, hfst₂]
  exact ⟨rfl, hsnd₂⟩

theorem sim_heap {next next' : Heap → Run β} (hnext : Sim h h' (next h) (next' h')) :
    Sim h h' (heap >>= next) (heap >>= next') := by
  intro u u' t
  cases t.left
  cases t.right
  rw [exec_bind, exec_bind]
  exact hnext u u' t

theorem sim_world {next next' : World → Run β}
    (hnext : ∀ u u', Twins h h' u u' → Sim h h' (next u) (next' u')) :
    Sim h h' (world >>= next) (world >>= next') := by
  intro u u' t
  rw [exec_bind, exec_bind]
  exact hnext u u' t u u' t

theorem sim_attempt_bind {x x' : Attempt α} {next next' : α → Attempt β}
    (hx : Sim h h' x.run x'.run) (hnext : ∀ a, Sim h h' (next a).run (next' a).run) :
    Sim h h' (x >>= next).run (x' >>= next').run := by
  refine sim_bind hx fun outcome => ?_
  cases outcome with
  | error e => exact sim_pure _
  | ok a => exact hnext a

theorem sim_const_bind {v : Value} {next next' : Value → Attempt β}
    (hnext : Sim h h' (next v).run (next' v).run) :
    Sim h h' ((Operand.const v).resolve >>= next).run
      ((Operand.const v).resolve >>= next').run := by
  intro u u' t
  rw [Attempt.exec_bind, Attempt.exec_bind]
  exact hnext u u' t

theorem sim_lift_heap {next next' : Heap → Attempt β}
    (hnext : Sim h h' (next h).run (next' h').run) :
    Sim h h' ((liftM heap : Attempt Heap) >>= next).run
      ((liftM heap : Attempt Heap) >>= next').run := by
  intro u u' t
  cases t.left
  cases t.right
  rw [Attempt.exec_bind, Attempt.exec_bind, Attempt.exec_lift, Attempt.exec_lift]
  exact hnext u u' t

theorem sim_lift {x x' : Run α} (hx : Sim h h' x x') :
    Sim h h' (liftM x : Attempt α).run (liftM x' : Attempt α).run :=
  sim_bind hx fun a => sim_pure (Except.ok a)

theorem sim_ask {f f' : Heap → Except Error α} (hf : f' h' = f h) :
    Sim h h' (Attempt.ask f).run (Attempt.ask f').run := by
  intro u u' t
  rw [Attempt.exec_ask, Attempt.exec_ask, t.left, t.right, hf]
  exact ⟨rfl, t⟩

theorem sim_ask_bind {f f' : Heap → Except Error α} {next next' : α → Attempt β} (hf : f' h' = f h)
    (hnext : ∀ a, f h = .ok a → Sim h h' (next a).run (next' a).run) :
    Sim h h' (Attempt.ask f >>= next).run (Attempt.ask f' >>= next').run := by
  intro u u' t
  rw [Attempt.exec_bind, Attempt.exec_bind, Attempt.exec_ask, Attempt.exec_ask, t.left, t.right, hf]
  cases ha : f h with
  | error e => exact ⟨rfl, t⟩
  | ok a => exact hnext a ha u u' t

end

/-! ## Reading -/

/-- The callbacks with which safe values are read go the same way on both heaps. -/
structure Runner.ReadsAlike (safe : Value → Prop) (h h' : Heap) (r : Runner) : Prop where
  inspect : ∀ v c, safe v → h.callback .inspect v = .ok (some c) →
    Sim h h' (r.run .inspect c v) (r.run .inspect c v)
  toText : ∀ v c, safe v → h.callback .toText v = .ok (some c) →
    Sim h h' (r.run .toText c v) (r.run .toText c v)
  dump : ∀ v c, safe v → h.callback .dump v = .ok (some c) →
    Sim h h' (r.run .dump c v) (r.run .dump c v)
  length : ∀ v c, safe v → h.callback .length v = .ok (some c) →
    Sim h h' (r.run .length c v) (r.run .length c v)
  equal : ∀ v c other, safe v → safe other → h.callback .equal v = .ok (some c) →
    Sim h h' (r.run .equal c (v, other)) (r.run .equal c (v, other))
  get : ∀ v c index, safe v → safe index → h.callback .get v = .ok (some c) →
    Sim h h' (r.run .get c (v, index)) (r.run .get c (v, index))

section
variable {safe : Value → Prop} {h h' : Heap} {r : Runner}

theorem sim_inspect (a : h.Alike safe h') (hr : r.ReadsAlike safe h h') {v : Value} (hv : safe v) :
    Sim h h' (inspect r v) (inspect r v) := by
  refine sim_heap ?_
  rw [(a.looksAlike hv).callback, (a.looksAlike hv).plainText]
  split
  · next c hc => exact hr.inspect v c hv hc
  · exact sim_pure _
  · exact sim_pure _

theorem sim_stringify (a : h.Alike safe h') (hr : r.ReadsAlike safe h h') {v : Value}
    (hv : safe v) : Sim h h' (stringify r v) (stringify r v) := by
  refine sim_heap ?_
  rw [(a.looksAlike hv).callback]
  split
  · next c hc => exact hr.toText v c hv hc
  · exact sim_inspect a hr hv

theorem sim_dump (a : h.Alike safe h') (hr : r.ReadsAlike safe h h') {v : Value} (hv : safe v) :
    Sim h h' (dump r v) (dump r v) := by
  refine sim_heap ?_
  rw [(a.looksAlike hv).callback]
  split
  · next c hc => exact hr.dump v c hv hc
  · exact sim_inspect a hr hv

theorem sim_length (a : h.Alike safe h') (hr : r.ReadsAlike safe h h') {v : Value} (hv : safe v) :
    Sim h h' (length r v) (length r v) := by
  refine sim_heap ?_
  rw [(a.looksAlike hv).callback]
  split
  · next c hc => exact hr.length v c hv hc
  · exact sim_pure _

theorem sim_equal (a : h.Alike safe h') (hr : r.ReadsAlike safe h h') {v other : Value}
    (hv : safe v) (ho : safe other) : Sim h h' (equal r v other) (equal r v other) := by
  refine sim_heap ?_
  rw [(a.looksAlike hv).callback]
  split
  · next c hc => exact hr.equal v c other hv ho hc
  · exact sim_pure _

theorem sim_getItem (a : h.Alike safe h') (hr : r.ReadsAlike safe h h') {v index : Value}
    (hv : safe v) (hi : safe index) : Sim h h' (getItem r v index).run (getItem r v index).run := by
  refine sim_ask_bind ((a.looksAlike hv).callback .get) fun found hfound => ?_
  cases found with
  | some c => exact hr.get v c index hv hi hfound
  | none => exact sim_pure _

/-! ## Containers -/

theorem sim_guardInspect {v : Value} {placeholder : String} {x x' : Run String}
    (hx : Sim h h' x x') :
    Sim h h' (guardInspect v placeholder x) (guardInspect v placeholder x') := by
  refine sim_world fun u u' t => ?_
  have hinspecting : u'.toContext.unlogged.inspecting = u.toContext.unlogged.inspecting :=
    congrArg _ t.context
  rw [show u'.inspecting = u.inspecting from hinspecting]
  split
  · exact sim_pure _
  · exact sim_bind (sim_note fun _ => rfl) fun _ => sim_ensuring hx (sim_note fun _ => rfl)

theorem sim_guardCompare {v other : Value} {x x' : Run Bool} (hx : Sim h h' x x') :
    Sim h h' (guardCompare v other x) (guardCompare v other x') := by
  refine sim_world fun u u' t => ?_
  have hcomparing : u'.toContext.unlogged.comparing = u.toContext.unlogged.comparing :=
    congrArg _ t.context
  rw [show u'.comparing = u.comparing from hcomparing]
  split
  · exact sim_pure _
  · exact sim_bind (sim_note fun _ => rfl) fun _ => sim_ensuring hx (sim_note fun _ => rfl)

theorem sim_inspectAll (a : h.Alike safe h') (hr : r.ReadsAlike safe h h') {vs : List Value}
    (hvs : ∀ v ∈ vs, safe v) : Sim h h' (inspectAll r vs) (inspectAll r vs) := by
  have heach : Sim h h' (inspectEach r vs) (inspectEach r vs) := by
    induction vs with
    | nil => exact sim_pure _
    | cons v vs ih =>
      obtain ⟨hv, hvs⟩ := List.forall_mem_cons.mp hvs
      exact sim_bind (sim_inspect a hr hv) fun _ => sim_bind (ih hvs) fun _ => sim_pure _
  exact sim_bind heach fun _ => sim_pure _

theorem sim_inspectEntries (a : h.Alike safe h') (hr : r.ReadsAlike safe h h')
    {es : List (Value × Value)} (hes : ∀ e ∈ es, safe e.1 ∧ safe e.2) :
    Sim h h' (inspectEntries r es) (inspectEntries r es) := by
  induction es with
  | nil => exact sim_pure _
  | cons e es ih =>
    obtain ⟨he, hes⟩ := List.forall_mem_cons.mp hes
    have hpair : ∀ v ∈ [e.1, e.2], safe v := by simp [he]
    exact sim_bind (sim_inspectAll a hr hpair) fun _ => sim_bind (ih hes) fun _ => sim_pure _

theorem sim_allEqual (a : h.Alike safe h') (hr : r.ReadsAlike safe h h')
    {es : List (Value × Value)} (hes : ∀ e ∈ es, safe e.1 ∧ safe e.2) :
    Sim h h' (allEqual r es) (allEqual r es) := by
  induction es with
  | nil => exact sim_pure _
  | cons e es ih =>
    obtain ⟨he, hes⟩ := List.forall_mem_cons.mp hes
    refine sim_bind (sim_equal a hr he.1 he.2) fun same => ?_
    cases same with
    | true => exact ih hes
    | false => exact sim_pure _

theorem sim_findKey (a : h.Alike safe h') (hr : r.ReadsAlike safe h h') {key : Value}
    (hkey : safe key) {es : List (Value × Value)} (hes : ∀ e ∈ es, safe e.1) :
    Sim h h' (findKey r key es) (findKey r key es) := by
  induction es with
  | nil => exact sim_pure _
  | cons e es ih =>
    obtain ⟨he, hes⟩ := List.forall_mem_cons.mp hes
    refine sim_bind (sim_equal a hr he hkey) fun same => ?_
    cases same with
    | true => exact sim_pure _
    | false => exact sim_bind (ih hes) fun _ => sim_pure _

theorem sim_sequenceText (a : h.Alike safe h') (hr : r.ReadsAlike safe h h') {v : Value}
    (hv : safe v) (b : Brackets)
    (hm : ∀ d ∈ h.descriptorOf v, h.registry.callback? d .mark = some (.routine .arrayMark)) :
    Sim h h' (sequenceText r b v) (sequenceText r b v) := by
  refine sim_guardInspect (sim_heap ?_)
  rw [(a.looksAlike hv).read]
  split
  · next items hread =>
    exact sim_bind (sim_inspectAll a hr (a.parts hv hm hread)) fun _ => sim_pure _
  · exact sim_pure _

theorem sim_tableInspect (a : h.Alike safe h') (hr : r.ReadsAlike safe h h') {v : Value}
    (hv : safe v)
    (hm : ∀ d ∈ h.descriptorOf v, h.registry.callback? d .mark = some (.routine .tableMark)) :
    Sim h h' (tableInspect r v) (tableInspect r v) := by
  refine sim_guardInspect (sim_heap ?_)
  rw [(a.looksAlike hv).read]
  split
  · next es hread =>
    exact sim_bind (sim_inspectEntries a hr (a.entries hv hm hread)) fun _ => sim_pure _
  · exact sim_pure _

theorem sim_quotationInspect (a : h.Alike safe h') (hr : r.ReadsAlike safe h h') {v : Value}
    (hv : safe v)
    (hm : ∀ d ∈ h.descriptorOf v, h.registry.callback? d .mark = some (.routine .quotationMark)) :
    Sim h h' (quotationInspect r v) (quotationInspect r v) := by
  refine sim_guardInspect (sim_heap ?_)
  rw [(a.looksAlike hv).read]
  split
  · exact sim_pure _
  · next words _ hread =>
    exact sim_bind (sim_inspectAll a hr (a.parts hv hm hread)) fun _ => sim_pure _
  · exact sim_pure _

theorem sim_arrayEqual (a : h.Alike safe h') (hr : r.ReadsAlike safe h h') {v other : Value}
    (hv : safe v) (ho : safe other)
    (hm : ∀ d ∈ h.descriptorOf v, h.registry.callback? d .mark = some (.routine .arrayMark)) :
    Sim h h' (arrayEqual r v other) (arrayEqual r v other) := by
  unfold arrayEqual
  split
  · exact sim_pure _
  · refine sim_heap ?_
    rw [(a.looksAlike hv).descriptorOf, (a.looksAlike ho).descriptorOf]
    split
    · exact sim_pure _
    · next hd =>
      -- arrays of one type have one mark routine
      rw [not_not] at hd
      have hmo := hm
      rw [hd] at hmo
      refine sim_guardCompare (sim_heap ?_)
      rw [(a.looksAlike hv).read, (a.looksAlike ho).read]
      split
      · next xs ys hxs hys =>
        split
        · refine sim_allEqual a hr fun e he => ?_
          obtain ⟨hx, hy⟩ := List.of_mem_zip he
          exact ⟨a.parts hv hm hxs _ hx, a.parts ho hmo hys _ hy⟩
        · exact sim_pure _
      · exact sim_pure _

theorem sim_tableGet (a : h.Alike safe h') (hr : r.ReadsAlike safe h h') {v key : Value}
    (hv : safe v) (hkey : safe key)
    (hm : ∀ d ∈ h.descriptorOf v, h.registry.callback? d .mark = some (.routine .tableMark)) :
    Sim h h' (tableGet r v key).run (tableGet r v key).run := by
  refine sim_ask_bind ((a.looksAlike hv).read .table) fun es hread => ?_
  have hes := a.entries hv hm hread
  refine sim_attempt_bind (sim_lift (sim_findKey a hr hkey fun e he => (hes e he).1))
    fun found => ?_
  cases found with
  | some n => exact sim_pure _
  | none => exact sim_pure _

theorem sim_arrayGet (a : h.Alike safe h') {v : Value} (hv : safe v) (index : Value) :
    Sim h h' (arrayGet v index).run (arrayGet v index).run := by
  refine sim_ask ?_
  rw [(a.looksAlike hv).read]

theorem sim_stringGet (a : h.Alike safe h') {v : Value} (hv : safe v) (index : Value) :
    Sim h h' (stringGet v index).run (stringGet v index).run := by
  refine sim_ask ?_
  rw [(a.looksAlike hv).read]

theorem sim_quotationGet (a : h.Alike safe h') {v : Value} (hv : safe v) (index : Value) :
    Sim h h' (quotationGet v index).run (quotationGet v index).run := by
  refine sim_ask ?_
  rw [(a.looksAlike hv).read]

/-- Callbacks inside callbacks, to whatever depth, read safe values of both heaps alike. -/
theorem Heap.Alike.readsAlike_ofDepth (a : h.Alike safe h') (n : Nat) :
    (Runner.ofDepth n).ReadsAlike safe h h' := by
  induction n with
  | zero =>
    exact ⟨fun _ _ _ _ => sim_halt _, fun _ _ _ _ => sim_halt _, fun _ _ _ _ => sim_halt _,
      fun _ _ _ _ => sim_halt _, fun _ _ _ _ _ _ => sim_halt _, fun _ _ _ _ _ _ => sim_halt _⟩
  | succ n ih =>
    constructor
    case inspect =>
      intro v c hv hc
      obtain ⟨k, rfl⟩ := a.exists_routine hc
      cases k with
      | arrayInspect => exact sim_sequenceText a ih hv .array (a.mark_of_callback hc rfl)
      | listInspect => exact sim_sequenceText a ih hv .list (a.mark_of_callback hc rfl)
      | tableInspect => exact sim_tableInspect a ih hv (a.mark_of_callback hc rfl)
      | quotationInspect => exact sim_quotationInspect a ih hv (a.mark_of_callback hc rfl)
      | stringInspect =>
        refine sim_heap ?_
        rw [(a.looksAlike hv).read]
        split <;> exact sim_pure _
    case toText =>
      intro v c hv hc
      obtain ⟨k, rfl⟩ := a.exists_routine hc
      cases k with
      | stringText =>
        refine sim_heap ?_
        rw [(a.looksAlike hv).read]
        split <;> exact sim_pure _
    case dump =>
      intro v c hv hc
      obtain ⟨k, rfl⟩ := a.exists_routine hc
      cases k
    case length =>
      intro v c hv hc
      obtain ⟨k, rfl⟩ := a.exists_routine hc
      cases k <;>
      · refine sim_heap ?_
        rw [(a.looksAlike hv).read]
        split <;> exact sim_pure _
    case equal =>
      intro v c other hv ho hc
      obtain ⟨k, rfl⟩ := a.exists_routine hc
      cases k with
      | arrayEqual => exact sim_arrayEqual a ih hv ho (a.mark_of_callback hc rfl)
      | stringEqual =>
        refine sim_heap ?_
        rw [(a.looksAlike hv).read, (a.looksAlike ho).read]
        split <;> exact sim_pure _
    case get =>
      intro v c index hv hi hc
      obtain ⟨k, rfl⟩ := a.exists_routine hc
      cases k with
      | tableGet => exact sim_tableGet a ih hv hi (a.mark_of_callback hc rfl)
      | arrayGet => exact sim_arrayGet a hv index
      | stringGet => exact sim_stringGet a hv index
      | quotationGet => exact sim_quotationGet a hv index

end

/-! ## Operations -/

/-- The operations that read values, where the values are `safe`. -/
inductive Op.Reads (safe : Value → Prop) : Op → Prop where
  | view (view : View) {v : Value} : safe v → Reads safe (.view view (.const v))
  | length {v : Value} : safe v → Reads safe (.length (.const v))
  | get {v index : Value} : safe v → safe index → Reads safe (.get (.const v) (.const index))
  | equal {v other : Value} : safe v → safe other → Reads safe (.equal (.const v) (.const other))
  | typeName {v : Value} : safe v → Reads safe (.typeName (.const v))
  | behaviorsOf {v : Value} : safe v → Reads safe (.behaviorsOf (.const v))
  | property {v : Value} (key : String) : safe v → Reads safe (.property (.const v) key)
  | propertyKeys {v : Value} : safe v → Reads safe (.propertyKeys (.const v))
  | debugHook {v : Value} : safe v → Reads safe (.debugHook (.const v))
  | isProtected {v : Value} : safe v → Reads safe (.query .isProtected (.const v))
  | isPermanent {v : Value} : safe v → Reads safe (.query .isPermanent (.const v))

section
variable {safe : Value → Prop} {h h' : Heap} {r : Runner}

theorem sim_view (a : h.Alike safe h') (hr : r.ReadsAlike safe h h') (view : View) {v : Value}
    (hv : safe v) : Sim h h' (view.run r v) (view.run r v) := by
  cases view with
  | inspect => exact sim_inspect a hr hv
  | stringify => exact sim_stringify a hr hv
  | dump => exact sim_dump a hr hv

theorem Op.Reads.sim {o : Op} (reads : o.Reads safe) (a : h.Alike safe h')
    (hr : r.ReadsAlike safe h h') : Sim h h' (o.run r).run (o.run r).run := by
  cases reads with
  | view view hv =>
    exact sim_const_bind (sim_attempt_bind (sim_lift (sim_view a hr view hv)) fun _ => sim_pure _)
  | length hv =>
    exact sim_const_bind (sim_attempt_bind (sim_lift (sim_length a hr hv)) fun _ => sim_pure _)
  | get hv hi =>
    exact sim_const_bind (sim_const_bind (sim_attempt_bind (sim_getItem a hr hv hi) fun _ =>
      sim_pure _))
  | equal hv ho =>
    exact sim_const_bind (sim_const_bind (sim_attempt_bind (sim_lift (sim_equal a hr hv ho))
      fun _ => sim_pure _))
  | typeName hv =>
    refine sim_const_bind (sim_lift_heap ?_)
    rw [(a.looksAlike hv).typeName]
    exact sim_pure _
  | behaviorsOf hv =>
    refine sim_const_bind (sim_lift_heap ?_)
    rw [(a.looksAlike hv).behaviorsOf]
    exact sim_pure _
  | property key hv =>
    exact sim_const_bind (sim_ask_bind ((a.looksAlike hv).property key) fun _ _ => sim_pure _)
  | propertyKeys hv =>
    exact sim_const_bind (sim_ask_bind (a.looksAlike hv).propertyKeys fun _ _ => sim_pure _)
  | debugHook hv =>
    exact sim_const_bind (sim_ask_bind (a.looksAlike hv).debugHook fun _ _ => sim_pure _)
  | isProtected hv =>
    refine sim_const_bind (sim_lift_heap ?_)
    rw [Query.answer, Query.answer, (a.looksAlike hv).isProtected]
    exact sim_pure _
  | isPermanent hv =>
    refine sim_const_bind (sim_lift_heap ?_)
    rw [Query.answer, Query.answer, (a.looksAlike hv).isPermanent]
    exact sim_pure _

end

/-! ## Before and after a collection -/

/-- A value that does not stand for an instance which a collection releases: an immediate, an
instance that can be reached, or a reference whose instance is gone already. -/
def Heap.Retains (h : Heap) (v : Value) : Prop :=
  ∀ id, v = .ref id → h.contains v = true → h.Reachable containerParts id

/-- A heap and what a collection leaves of it look alike. -/
theorem Heap.Collected.alike {h h' : Heap} {dead : List InstanceId}
    (c : h.Collected containerParts dead h') (plain : h.registry.Plain) :
    h.Alike h.Retains h' where
  plain := plain
  registry := c.registry
  find? v hv := by
    cases v with
    | ref id =>
      show h'.pool.get? id = (h.pool.get? id).map Instance.unmark
      cases hx : h.pool.get? id with
      | none =>
        refine c.gone id fun hid => ?_
        obtain ⟨x, hx'⟩ := hid.live
        rw [hx] at hx'
        cases hx'
      | some x =>
        have hlive : h.contains (.ref id) = true := Option.isSome_iff_exists.mpr ⟨x, hx⟩
        rw [c.kept id (hv id rfl hlive), hx]
    | _ => rfl
  held v x hv hx u hu child hchild hlive := by
    obtain ⟨y, hy⟩ := Option.isSome_iff_exists.mp hlive
    subst hchild
    cases v with
    | ref id =>
      have hid : h.Reachable containerParts id := hv id rfl (Option.isSome_iff_exists.mpr ⟨x, hx⟩)
      exact hid.held hx hu hy
    | _ => cases hx

/-- Collections are transparent.  On a heap of containers where the collector is idle and no
payload is in use, a collection comes to an end, and every operation that reads values gives the
same after it as before, errors included, as long as no value is an instance that cannot be
reached. -/
theorem collect_transparent (n : Nat) (w : World) (plain : w.heap.registry.Plain)
    (quiet : w.heap.Quiet) (enough : w.heap.pool.instances.length ≤ n + 1) :
    ∃ freed w', (collect (.ofDepth (n + 1))).exec w = (.ok freed, w') ∧
      ∀ (m : Nat) (o : Op), o.Reads w.heap.Retains →
        ((o.run (.ofDepth m)).run.exec w').1 = ((o.run (.ofDepth m)).run.exec w).1 := by
  have traces := Runner.traces_ofDepth n plain quiet
  obtain ⟨dead, h', ⟨w', hexec, hheap, hctx⟩, collected⟩ := traces.collect quiet.ready enough
  refine ⟨dead.length, w', hexec, fun m o reads => ?_⟩
  have alike := collected.alike plain
  exact (reads.sim alike (alike.readsAlike_ofDepth m) w w' ⟨rfl, hheap, hctx⟩).1

theorem collect_transparent_mutualArrays :
    ∃ freed w',
      (collect (.ofDepth 4)).exec (mutualArrays.closing (.ofDepth 4)) = (.ok freed, w') ∧
      (((Op.view .inspect (.const (.ref ⟨0, 0⟩))).run (.ofDepth 4)).run.exec w').1 =
        (((Op.view .inspect (.const (.ref ⟨0, 0⟩))).run (.ofDepth 4)).run.exec
          (mutualArrays.closing (.ofDepth 4))).1 := by
  obtain ⟨freed, w', hexec, hreads⟩ := collect_transparent 3 (mutualArrays.closing (.ofDepth 4))
    plain_mutualArrays quiet_mutualArrays (by decide +kernel)
  refine ⟨freed, w', hexec, hreads 4 _ (.view .inspect fun id hid _ => ?_)⟩
  cases hid
  exact .root ⟨_, rfl, Or.inl (by decide +kernel)⟩

end TracedHeap
