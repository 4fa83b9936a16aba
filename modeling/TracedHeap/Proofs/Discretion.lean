import TracedHeap.Proofs.Blindness

/-!
# Containers keep within a horizon

What the containers do with the values they are given leads to these and to what is in them, and to
nothing else.  This is where the second operand of a comparison and the key of a table matter: both
are looked up by name like a receiver, and a name that is known is not the hidden one.

* `blind_allocate`  a new instance is known, whichever slot it comes into;
* `blind_stringEqual`, `blind_arrayEqual`, `blind_findKey`
                    comparisons, also with a key;
* `blind_routine`   every routine of the containers.
-/

namespace TracedHeap

open Run

/-! ## Allocation -/

section
variable {id : InstanceId} {H : Horizon id} {y : Instance} {r : Runner}

/-- A collection that is refused does nothing, and another one would go beyond the horizon. -/
theorem blind_collect (r : Runner) : (collect r).Blind H y fun _ => True := by
  refine blind_heap_bind (fun _ _ => rfl) fun h _ => ?_
  split
  · exact blind_bind (blind_report _) fun _ _ => blind_pure trivial
  · exact blind_ensuring (blind_beyond rfl _) (blind_act nofun)

theorem blind_teardown (r : Runner) : (teardown r).Blind H y fun _ => True := by
  refine blind_heap_bind (fun _ _ => rfl) fun h _ => ?_
  split
  · exact blind_bind (blind_report _) fun _ _ => blind_pure trivial
  · exact blind_ensuring (blind_beyond rfl _) (blind_act nofun)

theorem blind_collectIfDue (r : Runner) : (collectIfDue r).Blind H y fun _ => True := by
  refine blind_heap_bind (fun h _ => ?_) fun h _ => ?_
  · obtain ⟨_, _, hput⟩ := h.put_eq id y
    rw [hput]
    rfl
  · split
    · exact blind_bind (blind_collect r) fun _ _ => blind_act nofun
    · exact blind_pure trivial

theorem blind_allocate (r : Runner) (d : Descriptor) {p : Payload}
    (hp : ∀ u ∈ p.values, H.known u = true) :
    (allocate r d p).Blind H y fun u => H.known u = true := by
  have capacity : ∀ w : World, (w.put id y).heap.pool.capacity = w.heap.pool.capacity := by
    intro w
    obtain ⟨_, _, hput⟩ := w.heap.put_eq id y
    show (w.heap.put id y).pool.capacity = _
    rw [hput]
  -- the name of the new instance stood for nothing before, and such names are known
  have placed : (act (.place d p)).Blind H y fun new => H.known (.ref new) = true := by
    refine blind_act_of hp fun h c => c.dead _ ?_
    have free : h.pool.get? (h.place d p).1 = none :=
      Pool.get?_eq_none_of_occupant? (c.sound.occupant?_place d p)
    show (h.pool.get? (h.place d p).1).isSome = false
    rw [free]
    rfl
  have now : (allocateNow r d p).Blind H y fun u => H.known u = true := by
    refine blind_bind (blind_collectIfDue r) fun _ _ => ?_
    refine blind_look_bind (fun w _ => by rw [capacity]) fun w _ => ?_
    refine blind_bind placed fun new hnew => ?_
    refine blind_look_bind (fun w _ => by rw [capacity]) fun w _ => ?_
    split
    · exact blind_bind (blind_report _) fun _ _ => blind_pure hnew
    · exact blind_pure hnew
  refine blind_lift_heap_bind (fun _ _ => rfl) fun h _ => ?_
  split
  · have refused : (throw (.unknownDescriptor d) : Attempt PUnit).Blind H y fun _ => False :=
      blind_throw _
    exact blind_attempt_bind refused fun _ => False.elim
  · exact blind_lift now

end

/-! ## Containers -/

section
variable {id : InstanceId} {H : Horizon id} {y : Instance} {r : Runner} {v other : Value}
  {vs : List Value} {es : List (Value × Value)}

theorem Horizon.known_entries_iff :
    (∀ u ∈ (Payload.table es).values, H.known u = true) ↔
      ∀ e ∈ es, H.known e.1 = true ∧ H.known e.2 = true := by
  simp only [Payload.values, List.mem_flatMap, List.mem_cons, List.not_mem_nil, or_false]
  constructor
  · exact fun h e he => ⟨h _ ⟨e, he, .inl rfl⟩, h _ ⟨e, he, .inr rfl⟩⟩
  · rintro h u ⟨e, he, rfl | rfl⟩
    · exact (h e he).1
    · exact (h e he).2

theorem blind_guardInspect {placeholder : String} {text : Run String}
    (htext : text.Blind H y fun _ => True) :
    (guardInspect v placeholder text).Blind H y fun _ => True := by
  refine blind_look_bind (fun _ _ => rfl) fun w _ => ?_
  split
  · exact blind_pure trivial
  · exact blind_bind (blind_note fun _ c => ⟨c.heap, c.globals, c.scopes⟩) fun _ _ =>
      blind_ensuring htext (blind_note fun _ c => ⟨c.heap, c.globals, c.scopes⟩)

theorem blind_guardCompare {verdict : Run Bool} (hverdict : verdict.Blind H y fun _ => True) :
    (guardCompare v other verdict).Blind H y fun _ => True := by
  refine blind_look_bind (fun _ _ => rfl) fun w _ => ?_
  split
  · exact blind_pure trivial
  · exact blind_bind (blind_note fun _ c => ⟨c.heap, c.globals, c.scopes⟩) fun _ _ =>
      blind_ensuring hverdict (blind_note fun _ c => ⟨c.heap, c.globals, c.scopes⟩)

theorem blind_inspectAll (hr : r.Blind H y) (hvs : ∀ u ∈ vs, H.known u = true) :
    (inspectAll r vs).Blind H y fun _ => True := by
  have each : (inspectEach r vs).Blind H y fun _ => True := by
    induction vs with
    | nil => exact blind_pure trivial
    | cons v vs ih =>
      obtain ⟨hv, hvs⟩ := List.forall_mem_cons.mp hvs
      exact blind_bind (blind_inspect hr hv) fun _ _ => blind_bind (ih hvs) fun _ _ =>
        blind_pure trivial
  exact blind_bind each fun _ _ => blind_pure trivial

theorem blind_inspectEntries (hr : r.Blind H y)
    (hes : ∀ e ∈ es, H.known e.1 = true ∧ H.known e.2 = true) :
    (inspectEntries r es).Blind H y fun _ => True := by
  induction es with
  | nil => exact blind_pure trivial
  | cons e es ih =>
    obtain ⟨he, hes⟩ := List.forall_mem_cons.mp hes
    have pair : ∀ u ∈ [e.1, e.2], H.known u = true := by simp [he]
    exact blind_bind (blind_inspectAll hr pair) fun _ _ => blind_bind (ih hes) fun _ _ =>
      blind_pure trivial

theorem blind_allEqual (hr : r.Blind H y)
    (hes : ∀ e ∈ es, H.known e.1 = true ∧ H.known e.2 = true) :
    (allEqual r es).Blind H y fun _ => True := by
  induction es with
  | nil => exact blind_pure trivial
  | cons e es ih =>
    obtain ⟨he, hes⟩ := List.forall_mem_cons.mp hes
    refine blind_bind (blind_equal hr he.1 he.2) fun same _ => ?_
    cases same with
    | true => exact ih hes
    | false => exact blind_pure trivial

/-- The keys of a table are compared with a known key only. -/
theorem blind_findKey (hr : r.Blind H y) {key : Value} (hkey : H.known key = true)
    (hes : ∀ e ∈ es, H.known e.1 = true ∧ H.known e.2 = true) :
    (findKey r key es).Blind H y fun _ => True := by
  induction es with
  | nil => exact blind_pure trivial
  | cons e es ih =>
    obtain ⟨he, hes⟩ := List.forall_mem_cons.mp hes
    refine blind_bind (blind_equal hr he.1 hkey) fun same _ => ?_
    cases same with
    | true => exact blind_pure trivial
    | false => exact blind_bind (ih hes) fun _ _ => blind_pure trivial

theorem blind_markAll (hvs : ∀ u ∈ vs, H.known u = true) :
    (markAll vs).Blind H y fun _ => True := by
  induction vs with
  | nil => exact blind_pure trivial
  | cons v vs ih =>
    obtain ⟨hv, hvs⟩ := List.forall_mem_cons.mp hvs
    exact blind_bind (blind_act (List.forall_mem_singleton.mpr hv)) fun _ _ => ih hvs

theorem blind_markParts (container : Traced) {parts : Heap → Except Error (List Value)}
    (same : ∀ h : Heap, parts (h.put id y) = parts h)
    (hparts : ∀ h vs, h.Confined H → parts h = .ok vs → ∀ u ∈ vs, H.known u = true) :
    (markParts container v parts).Blind H y fun _ => True := by
  refine blind_heap_bind (fun h _ => by rw [same]) fun h c => ?_
  split
  · next vs hvs => exact blind_markAll (hparts h vs c hvs)
  · exact blind_report _

theorem blind_sequenceText (hr : r.Blind H y) (hv : H.known v = true) (b : Brackets) :
    (sequenceText r b v).Blind H y fun _ => True := by
  refine blind_guardInspect (blind_heap_bind (fun h _ => ?_) fun h c => ?_)
  · rw [(H.looksAlike hv h y).read]
  · split
    · next items hread =>
      exact blind_bind (blind_inspectAll hr (c.read hv hread)) fun _ _ => blind_pure trivial
    · exact blind_pure trivial

theorem blind_tableInspect (hr : r.Blind H y) (hv : H.known v = true) :
    (tableInspect r v).Blind H y fun _ => True := by
  refine blind_guardInspect (blind_heap_bind (fun h _ => ?_) fun h c => ?_)
  · rw [(H.looksAlike hv h y).read]
  · split
    · next es hread =>
      have hes := Horizon.known_entries_iff.mp (c.read hv hread)
      exact blind_bind (blind_inspectEntries hr hes) fun _ _ => blind_pure trivial
    · exact blind_pure trivial

theorem blind_quotationInspect (hr : r.Blind H y) (hv : H.known v = true) :
    (quotationInspect r v).Blind H y fun _ => True := by
  refine blind_guardInspect (blind_heap_bind (fun h _ => ?_) fun h c => ?_)
  · rw [(H.looksAlike hv h y).read]
  · split
    · exact blind_pure trivial
    · next words _ hread =>
      exact blind_bind (blind_inspectAll hr (c.read hv hread)) fun _ _ => blind_pure trivial
    · exact blind_pure trivial

theorem blind_arrayEqual (hr : r.Blind H y) (hv : H.known v = true)
    (hother : H.known other = true) : (arrayEqual r v other).Blind H y fun _ => True := by
  unfold arrayEqual
  split
  · exact blind_pure trivial
  · refine blind_heap_bind (fun h _ => ?_) fun h _ => ?_
    · rw [(H.looksAlike hv h y).descriptorOf, (H.looksAlike hother h y).descriptorOf]
    · split
      · exact blind_pure trivial
      · refine blind_guardCompare (blind_heap_bind (fun h _ => ?_) fun h c => ?_)
        · rw [(H.looksAlike hv h y).read, (H.looksAlike hother h y).read]
        · split
          · next xs ys hxs hys =>
            split
            · refine blind_allEqual hr fun e he => ?_
              obtain ⟨hx, hy⟩ := List.of_mem_zip he
              exact ⟨c.read hv hxs _ hx, c.read hother hys _ hy⟩
            · exact blind_pure trivial
          · exact blind_pure trivial

theorem blind_stringEqual (hv : H.known v = true) (hother : H.known other = true) :
    (stringEqual v other).Blind H y fun _ => True := by
  refine blind_heap_bind (fun h _ => ?_) fun h _ => ?_
  · rw [(H.looksAlike hv h y).read, (H.looksAlike hother h y).read]
  · split <;> exact blind_pure trivial

theorem Horizon.known_elementAt (hvs : ∀ u ∈ vs, H.known u = true) {index u : Value}
    (hu : elementAt vs index = .ok u) : H.known u = true := by
  unfold elementAt at hu
  cases hn : position index vs.length with
  | error e =>
    rw [hn] at hu
    cases hu
  | ok n =>
    rw [hn] at hu
    cases hu
    cases hget : vs[n]? with
    | none => exact H.immediate _ rfl
    | some u => exact hvs u (List.mem_of_getElem? hget)

theorem blind_element {k : Kind} (hv : H.known v = true) {elements : k.Content → List Value}
    (helements : ∀ c, (∀ u ∈ (Payload.of k c).values, H.known u = true) →
      ∀ u ∈ elements c, H.known u = true) (index : Value) :
    (Attempt.ask fun h => do elementAt (elements (← h.read v k)) index).Blind H y fun u =>
      H.known u = true := by
  refine blind_ask (fun h => ?_) fun h u c hu => ?_
  · rw [(H.looksAlike hv h y).read]
  · cases hread : h.read v k with
    | error e =>
      rw [hread] at hu
      cases hu
    | ok content =>
      rw [hread] at hu
      exact Horizon.known_elementAt (helements content (c.read hv hread)) hu

theorem blind_tableGet (hr : r.Blind H y) {key : Value} (hv : H.known v = true)
    (hkey : H.known key = true) : (tableGet r v key).Blind H y fun u => H.known u = true := by
  refine blind_attempt_bind (blind_read hv .table) fun es hes => ?_
  have hes := Horizon.known_entries_iff.mp hes
  refine blind_attempt_bind (blind_lift (blind_findKey hr hkey hes)) fun found _ => ?_
  cases found with
  | none => exact blind_attempt_pure (H.immediate _ rfl)
  | some n =>
    refine blind_attempt_pure ?_
    cases hn : es[n]? with
    | none => exact H.immediate _ rfl
    | some e => exact (hes e (List.mem_of_getElem? hn)).2

theorem blind_arraySet {index item : Value} (hv : H.known v = true)
    (hitem : H.known item = true) : (arraySet v index item).Blind H y fun _ => True := by
  refine blind_writePayload hv fun items items' hitems heq u hu => ?_
  split at heq
  · cases heq
    rcases List.mem_append.mp hu with hu | hu
    · exact hitems u hu
    · exact List.mem_singleton.mp hu ▸ hitem
  · cases hn : position index items.length with
    | error e =>
      rw [hn] at heq
      cases heq
    | ok n =>
      rw [hn] at heq
      cases heq
      rcases List.mem_or_eq_of_mem_set hu with hu | rfl
      · exact hitems u hu
      · exact hitem

theorem Horizon.known_putEntry {found : Option Nat} {key item : Value}
    (hes : ∀ u ∈ (Payload.table es).values, H.known u = true) (hkey : H.known key = true)
    (hitem : H.known item = true) :
    ∀ u ∈ (Payload.table (putEntry es found key item)).values, H.known u = true := by
  rw [known_entries_iff] at hes ⊢
  intro e he
  unfold putEntry at he
  split at he
  · next n k hfound =>
    obtain ⟨m, _, hm⟩ := Option.bind_eq_some_iff.mp hfound
    obtain ⟨e', he', heq⟩ := Option.map_eq_some_iff.mp hm
    cases heq
    rcases List.mem_or_eq_of_mem_set he with he | rfl
    · exact hes e he
    · exact ⟨(hes e' (List.mem_of_getElem? he')).1, hitem⟩
  · rcases List.mem_append.mp he with he | he
    · exact hes e he
    · cases List.mem_singleton.mp he
      exact ⟨hkey, hitem⟩

theorem blind_tableSet (hr : r.Blind H y) {key item : Value} (hv : H.known v = true)
    (hkey : H.known key = true) (hitem : H.known item = true) :
    (tableSet r v key item).Blind H y fun _ => True := by
  refine blind_attempt_bind (blind_read hv .table) fun es hes => ?_
  refine blind_attempt_bind (blind_lift (blind_findKey hr hkey
    (Horizon.known_entries_iff.mp hes))) fun found _ => ?_
  refine blind_writePayload hv fun es es' hes heq => ?_
  cases heq
  exact Horizon.known_putEntry hes hkey hitem

theorem blind_callEach (hr : r.Blind H y) (hvs : ∀ u ∈ vs, H.known u = true) :
    (callEach r vs).Blind H y fun _ => True := by
  induction vs with
  | nil => exact blind_attempt_pure trivial
  | cons v vs ih =>
    obtain ⟨hv, hvs⟩ := List.forall_mem_cons.mp hvs
    exact blind_attempt_bind (blind_call hr hv) fun _ _ => ih hvs

theorem blind_quotationCall (hr : r.Blind H y) (hv : H.known v = true) :
    (quotationCall r v).Blind H y fun _ => True := by
  refine blind_lift_heap_bind (fun h _ => ?_) fun h c => ?_
  · rw [(H.looksAlike hv h y).read]
  · split
    · next words hread => exact blind_callEach hr (c.read hv hread)
    · exact blind_attempt_pure trivial

theorem Horizon.known_codePoints (H : Horizon id) (s : String) :
    ∀ u ∈ codePoints s, H.known u = true := by
  intro u hu
  obtain ⟨c, _, rfl⟩ := List.mem_map.mp hu
  exact H.immediate _ rfl

theorem blind_arrayCopy (r : Runner) (array : Descriptor) (hv : H.known v = true) :
    (arrayCopy r array v).Blind H y fun u => H.known u = true := by
  refine blind_attempt_bind (blind_read hv .items) fun items hitems => ?_
  refine blind_lift_heap_bind (fun h _ => ?_) fun h _ => ?_
  · rw [(H.looksAlike hv h y).descriptorOf]
  · exact blind_allocate r _ hitems

/-- Routines on known values keep within the horizon. -/
theorem blind_routine (hr : r.Blind H y) {b : Behavior} (k : Routine b) (args : b.Args)
    (given : ∀ u ∈ b.given args, H.known u = true) : (k.run r args).Blind H y (b.Known H) := by
  cases k
  case stringInspect | stringText | arrayLength | stringLength | tableLength | quotationLength =>
    refine blind_heap_bind (fun h _ => ?_) fun h _ => ?_
    · rw [(H.looksAlike (given args List.mem_cons_self) h y).read]
    · split <;> exact blind_pure trivial
  case arrayInspect => exact blind_sequenceText hr (given args List.mem_cons_self) .array
  case listInspect => exact blind_sequenceText hr (given args List.mem_cons_self) .list
  case tableInspect => exact blind_tableInspect hr (given args List.mem_cons_self)
  case quotationInspect => exact blind_quotationInspect hr (given args List.mem_cons_self)
  case arraySequence => exact blind_attempt_pure (given args List.mem_cons_self)
  case stringSequence array =>
    exact blind_attempt_bind (blind_read (given args List.mem_cons_self) .text) fun s _ =>
      blind_allocate r array (H.known_codePoints s)
  case tableSequence array =>
    refine blind_attempt_bind (blind_read (given args List.mem_cons_self) .table) fun es hes => ?_
    refine blind_allocate r array fun u hu => ?_
    obtain ⟨e, he, rfl⟩ := List.mem_map.mp hu
    exact (Horizon.known_entries_iff.mp hes e he).1
  case arrayCopy array => exact blind_arrayCopy r array (given args List.mem_cons_self)
  case stringCopy string =>
    exact blind_attempt_bind (blind_read (given args List.mem_cons_self) .text) fun s _ =>
      blind_allocate r string nofun
  case tableCopy table =>
    exact blind_attempt_bind (blind_read (given args List.mem_cons_self) .table) fun es hes =>
      blind_allocate r table hes
  case arrayGet | quotationGet =>
    obtain ⟨v, index⟩ := args
    exact blind_element (given v List.mem_cons_self) (fun _ hc => hc) index
  case stringGet =>
    obtain ⟨v, index⟩ := args
    exact blind_element (given v List.mem_cons_self) (fun s _ => H.known_codePoints s) index
  case tableGet =>
    obtain ⟨v, key⟩ := args
    exact blind_tableGet hr (given v List.mem_cons_self) (given key (by simp [Behavior.given]))
  case arraySet =>
    obtain ⟨v, index, item⟩ := args
    exact (blind_arraySet (given v List.mem_cons_self)
      (given item (by simp [Behavior.given]))).mono fun _ _ => trivial
  case tableSet =>
    obtain ⟨v, key, item⟩ := args
    exact (blind_tableSet hr (given v List.mem_cons_self) (given key (by simp [Behavior.given]))
      (given item (by simp [Behavior.given]))).mono fun _ _ => trivial
  case arrayEqual =>
    obtain ⟨v, other⟩ := args
    exact blind_arrayEqual hr (given v List.mem_cons_self)
      (given other (by simp [Behavior.given]))
  case stringEqual =>
    obtain ⟨v, other⟩ := args
    exact blind_stringEqual (given v List.mem_cons_self) (given other (by simp [Behavior.given]))
  case arrayMark | quotationMark =>
    have hv := given args List.mem_cons_self
    exact blind_markParts _ (fun h => (H.looksAlike hv h y).read _) fun h vs c hread =>
      c.read hv hread
  case tableMark =>
    have hv := given args List.mem_cons_self
    refine blind_markParts _ (fun h => by rw [(H.looksAlike hv h y).read]) fun h vs c hvs => ?_
    cases hread : h.read args .table with
    | error e =>
      rw [hread] at hvs
      cases hvs
    | ok es =>
      rw [hread] at hvs
      cases hvs
      exact c.read hv hread
  case quotationCall =>
    exact (blind_quotationCall hr (given args List.mem_cons_self)).mono fun _ _ => trivial

end

end TracedHeap
