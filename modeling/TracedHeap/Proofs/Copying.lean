import TracedHeap.Proofs.Conservation
import TracedHeap.Proofs.Honesty
import TracedHeap.Proofs.Horizon
import TracedHeap.Proofs.Lending
import TracedHeap.Proofs.Receiver

/-!
# Copies of containers

A copy is made of what a payload holds, by an allocation that may collect first.  The payload has
been read by then, and what is in it can be reached from the original.

* `Routine.copyType`         the type of a copy.  A copy of an array has the type of the array; a copy
                             of a string or a table is a plain string or table;
* `Registry.Furnished`       types have callbacks of containers only, and copies have a type;
* `allocate_keeps`           an allocation on such a heap succeeds, and what can be reached stays;
* `get?_setItem_of_ne`       to set an element changes one instance only;
* `copy_faithful`            what a copy has in common with its original, and what it has not.
-/

namespace TracedHeap

open Run

/-! ## What is copied -/

def Routine.copyKind : Routine .copy → Kind
  | .arrayCopy _ => .items
  | .stringCopy _ => .text
  | .tableCopy _ => .table

def Routine.copyType : Routine .copy → Descriptor → Descriptor
  | .arrayCopy _, d => d
  | .stringCopy string, _ => string
  | .tableCopy table, _ => table

/-- The callbacks are those of containers, and the types of the copies they make are registered. -/
structure Registry.Furnished (g : Registry) : Prop where
  plain : g.Plain
  known : ∀ d k, g.callback? d .copy = some (.routine k) → (k.copyType d).index < g.size

/-- The mark routine of the types that have a copy routine. -/
def Routine.markBeside? : Routine .copy → Option (Routine .mark)
  | .arrayCopy _ => some .arrayMark
  | .stringCopy _ => none
  | .tableCopy _ => some .tableMark

theorem ContainerRoutines.mark_of_copy {routines : List ((b : Behavior) × Routine b)}
    (h : ContainerRoutines routines) {k : Routine .copy} (hk : ⟨.copy, k⟩ ∈ routines)
    {m : Routine .mark} (hm : k.markBeside? = some m) :
    (DispatchTable.installAll .empty routines).entry .mark = some (.routine m) := by
  cases h with
  | none => cases hk
  | array array | list array =>
    simp [arrayRoutines, listRoutines] at hk
    subst hk
    cases hm
    rfl
  | string array string =>
    simp [stringRoutines] at hk
    subst hk
    cases hm
  | table array table =>
    simp [tableRoutines] at hk
    subst hk
    cases hm
    rfl
  | quotation => simp [quotationRoutines] at hk

theorem Registry.Plain.exists_routine {g : Registry} (plain : g.Plain) {d : Descriptor}
    {b : Behavior} {c : Callback b} (hc : g.callback? d b = some c) :
    ∃ k : Routine b, c = .routine k := by
  obtain ⟨record, hrecord, hentry⟩ := Option.bind_eq_some_iff.mp hc
  obtain ⟨k, heq, _⟩ := (plain d record hrecord).entry hentry
  exact ⟨k, heq⟩

theorem Registry.Plain.mark_of_copy {g : Registry} (plain : g.Plain) {d : Descriptor}
    {k : Routine .copy} (hk : g.callback? d .copy = some (.routine k)) {m : Routine .mark}
    (hm : k.markBeside? = some m) : g.callback? d .mark = some (.routine m) := by
  obtain ⟨record, hrecord, hentry⟩ := Option.bind_eq_some_iff.mp hk
  obtain ⟨routines, hroutines, htable⟩ := plain d record hrecord
  refine Option.bind_eq_some_iff.mpr ⟨record, hrecord, ?_⟩
  rw [htable] at hentry ⊢
  rcases DispatchTable.entry_installAll hentry with ⟨k', hk', heq⟩ | hentry
  · cases heq
    exact hroutines.mark_of_copy hk' hm
  · cases hentry

section
variable {w : World} {id : InstanceId} {x : Instance} {k : Routine .copy} {c : k.copyKind.Content}

theorem Heap.reachable_of_copied {h : Heap} (plain : h.registry.Plain)
    (reachable : h.Reachable containerParts id) (hx : h.pool.get? id = some x)
    (hk : h.registry.callback? x.descriptor .copy = some (.routine k))
    (fits : x.payload = .of k.copyKind c) {a : InstanceId} {y : Instance}
    (ha : .ref a ∈ x.payload.values) (hy : h.pool.get? a = some y) :
    h.Reachable containerParts a := by
  refine reachable.held hx (List.mem_append_right _ ?_) hy
  rw [fits] at ha ⊢
  cases k with
  | arrayCopy array =>
    rw [plain.mark_of_copy hk rfl]
    exact ha
  | stringCopy string => cases ha
  | tableCopy table =>
    rw [plain.mark_of_copy hk rfl]
    exact ha

theorem exec_copy (n : Nat) (hx : w.heap.pool.get? id = some x)
    (hk : w.heap.registry.callback? x.descriptor .copy = some (.routine k))
    (fits : x.payload = .of k.copyKind c) (readable : x.borrow.readable = true) :
    (copy (.ofDepth (n + 1)) (.ref id)).run.exec w =
      (allocate (.ofDepth n) (k.copyType x.descriptor) x.payload).run.exec w := by
  have hc : w.heap.callback .copy (.ref id) = .ok (some (.routine k)) := by
    rw [Heap.callback_of_get? hx, hk]
  have hread : w.heap.read (.ref id) k.copyKind = .ok c := by
    rw [Heap.read_of_get? hx readable, fits, Payload.as?_of]
  unfold copy
  rw [(ask_bind_of_ok (f := fun h => h.callback .copy (.ref id)) hc _).1]
  show ((Runner.ofDepth (n + 1)).run .copy (.routine k) (.ref id)).exec w = _
  rw [(run_ofDepth_succ n (.routine k) (.ref id) w).1, fits]
  cases k with
  | arrayCopy array =>
    have hd : w.heap.descriptorOf (.ref id) = some x.descriptor := by
      show (w.heap.pool.get? id).map _ = _
      rw [hx]
      rfl
    show (arrayCopy (.ofDepth n) array (.ref id)).run.exec w = _
    unfold arrayCopy
    rw [(ask_bind_of_ok (f := fun h => h.read (.ref id) .items) hread _).1, (lift_heap_bind w _).1,
      hd]
    rfl
  | stringCopy string =>
    show (stringCopy (.ofDepth n) string (.ref id)).run.exec w = _
    unfold stringCopy
    rw [(ask_bind_of_ok (f := fun h => h.read (.ref id) .text) hread _).1]
    rfl
  | tableCopy table =>
    show (tableCopy (.ofDepth n) table (.ref id)).run.exec w = _
    unfold tableCopy
    rw [(ask_bind_of_ok (f := fun h => h.read (.ref id) .table) hread _).1]
    rfl

end

/-! ## The allocation -/

section
variable {w : World} {n : Nat}

theorem Instance.Marks.unmark {x y : Instance} (m : x.Marks y) : y.unmark = x.unmark := by
  rcases m with rfl | rfl <;> rfl

/-- The collection before an allocation, if one is due, ends well and keeps what can be reached. -/
theorem collectIfDue_keeps (plain : w.heap.registry.Plain)
    (quiet : w.heap.refusal? = none → w.heap.Quiet)
    (enough : w.heap.pool.instances.length ≤ n + 1) :
    ∃ w₁, (collectIfDue (.ofDepth (n + 1))).exec w = (.ok (), w₁) ∧
      ∀ a x, w.heap.Reachable containerParts a → w.heap.pool.get? a = some x →
        ∃ y, w₁.heap.pool.get? a = some y ∧ y.unmark = x.unmark := by
  cases due : w.heap.collectionDue with
  | true =>
    obtain ⟨_, _, ready⟩ := Heap.collectionDue_iff.mp due
    obtain ⟨dead, h, ⟨w', hexec, rfl, _⟩, collected⟩ :=
      (Runner.traces_ofDepth n plain (quiet ready)).collect ready enough
    rw [(collectIfDue_of_due _ due).1, exec_bind, hexec]
    refine ⟨_, rfl, fun a x ha hx => ⟨x.unmark, ?_, rfl⟩⟩
    show w'.heap.pool.get? a = _
    rw [collected.kept a ha, hx]
    rfl
  | false => exact ⟨w, (collectIfDue_of_not_due _ due).1, fun _ x _ hx => ⟨x, hx, rfl⟩⟩

theorem releases_append_of_none {us : List Transition} (h : ∀ t ∈ us, t.released? = none)
    (ts : List Transition) (i : Nat) : releases (ts ++ us) i = releases ts i := by
  unfold releases
  rw [List.filterMap_append, List.filterMap_eq_nil_iff.mpr h, List.append_nil]

theorem releases_allocate_lt {r : Runner} (hr : r.Lawful) (sound : w.heap.SoundPool)
    (d : Descriptor) (p : Payload) (i : Nat) :
    releases ((allocate r d p).run.trace w) i < UInt32.size := by
  have hnil : releases [] i < UInt32.size := by
    show 0 < UInt32.size
    decide
  have collecting : releases ((collectIfDue r).trace w) i < UInt32.size := by
    rcases trace_collectIfDue r w with htrace | ⟨_, last, htrace, hlast⟩
    · rw [htrace]
      exact hnil
    · rw [htrace, releases_append_of_none]
      · exact releases_lt_of_nodup (nodup_released_collect hr sound) i
      · intro t ht
        obtain ⟨h, rfl⟩ := hlast t ht
        rfl
  rcases trace_allocate r d p w with htrace | ⟨last, htrace, hlast⟩
  · rw [htrace]
    exact hnil
  · rw [htrace, releases_append_of_none]
    · exact collecting
    · intro t ht
      obtain ⟨h, rfl⟩ := hlast t ht
      rfl

/-- On a heap of containers an allocation succeeds, whether it collects or not.  It gives a new
instance, and what could be reached is there as it was. -/
theorem allocate_keeps (sound : w.heap.SoundPool) (plain : w.heap.registry.Plain)
    (quiet : w.heap.refusal? = none → w.heap.Quiet)
    (enough : w.heap.pool.instances.length ≤ n + 1) {d : Descriptor}
    (known : d.index < w.heap.registry.size) (p : Payload) :
    ∃ new y w', (allocate (.ofDepth (n + 1)) d p).run.exec w = (.ok (.ok (.ref new)), w') ∧
      w.heap.pool.get? new = none ∧ w'.heap.pool.get? new = some y ∧ y.descriptor = d ∧
      y.payload = p ∧
      ∀ a x, w.heap.Reachable containerParts a → w.heap.pool.get? a = some x →
        ∃ x', w'.heap.pool.get? a = some x' ∧ x'.unmark = x.unmark := by
  obtain ⟨w₁, hdue, kept⟩ := collectIfDue_keeps plain quiet enough
  have sound₁ := ((collectIfDue _).path_of_exec hdue).soundPool sound
  obtain ⟨hplaced, hanswer, hheap⟩ := allocateNow_of_ok (d := d) (p := p) hdue
  obtain ⟨htrace, hexec⟩ := allocate_of_known (r := .ofDepth (n + 1)) (p := p) known
  obtain ⟨y, hy, m⟩ := Heap.get?_place_self sound₁ d p
  rcases hnow : (allocateNow (.ofDepth (n + 1)) d p).exec w with ⟨outcome, w'⟩
  rw [hnow] at hanswer hheap
  obtain rfl : outcome = .ok (.ref (w₁.heap.place d p).1) := hanswer
  have hheap : w'.heap = (w₁.heap.place d p).2 := hheap
  refine ⟨(w₁.heap.place d p).1, y, w', ?_, ?_, by rw [hheap]; exact hy, m.descriptor, m.payload, ?_⟩
  · rw [hexec, Attempt.exec_lift, hnow]
  · -- a name that was in use cannot be given again by one collection
    refine Option.eq_none_iff_forall_ne_some.mpr fun z hz => ?_
    have few := releases_allocate_lt (Runner.lawful_ofDepth (n + 1)) sound d p
      (w₁.heap.place d p).1.index
    refine ((allocate (.ofDepth (n + 1)) d p).run.path_trace w).placed?_ne sound few ⟨z, hz⟩
      ⟨.place d p, w₁.heap⟩ ?_ rfl
    rw [htrace, hplaced]
    exact List.mem_append_right _ List.mem_cons_self
  · intro a x ha hx
    obtain ⟨x₁, hx₁, heq₁⟩ := kept a x ha hx
    obtain ⟨x₂, hx₂, m₂⟩ := Heap.get?_place sound₁ d p hx₁
    exact ⟨x₂, by rw [hheap]; exact hx₂, m₂.unmark.trans heq₁⟩

end

/-! ## Setting elements -/

/-- One instance is left alone, and so are the types, which are those of containers. -/
def Conduct.sparing (b : InstanceId) : Conduct where
  pre h := h.registry.Plain
  rel h _ h' := h'.registry = h.registry ∧ h'.pool.get? b = h.pool.get? b
  nil _ := ⟨rfl, rfl⟩
  append first second := ⟨second.1.trans first.1, second.2.trans first.2⟩
  keeps _ plain rel := rel.1 ▸ plain

theorem follows_ask_bind {C : Conduct} {α β : Type} {f : Heap → Except Error α}
    {next : α → Attempt β} (hnext : ∀ h a, C.pre h → f h = .ok a → (next a).run.Follows C) :
    (Attempt.ask f >>= next).run.Follows C := by
  intro w hw
  cases hf : f w.heap with
  | error e =>
    rw [(ask_bind_of_error hf next).1, (ask_bind_of_error hf next).2]
    exact C.nil hw
  | ok a =>
    rw [(ask_bind_of_ok hf next).1, (ask_bind_of_ok hf next).2]
    exact hnext w.heap a hw hf w hw

@[grind ←]
theorem follows_guardCompare {C : Conduct} (v other : Value) {x : Run Bool} (hx : x.Follows C) :
    (guardCompare v other x).Follows C := by
  refine follows_bind (follows_look _) fun w => ?_
  split
  · exact follows_pure _
  · exact follows_bind (follows_note _) fun _ => follows_ensuring hx (follows_note _)

section
variable {a b : InstanceId} {r : Runner}

theorem sparing_equal (hr : r.FollowsOn (.sparing b) .equal) (v other : Value) :
    (equal r v other).Follows (.sparing b) := by
  refine follows_heap_bind fun h plain => ?_
  split
  · next c hc =>
    obtain ⟨_, _, _, _, hc⟩ := Heap.callback_eq_some hc
    exact hr h plain _ c hc (v, other)
  · exact follows_pure _

theorem sparing_allEqual (hr : r.FollowsOn (.sparing b) .equal) (es : List (Value × Value)) :
    (allEqual r es).Follows (.sparing b) := by
  induction es with
  | nil => exact follows_pure _
  | cons e es ih =>
    have hequal := sparing_equal hr e.1 e.2
    unfold allEqual
    grind

theorem sparing_findKey (hr : r.FollowsOn (.sparing b) .equal) (key : Value)
    (es : List (Value × Value)) : (findKey r key es).Follows (.sparing b) := by
  induction es with
  | nil => exact follows_pure _
  | cons e es ih =>
    have hequal := sparing_equal hr e.1 key
    unfold findKey
    grind

theorem sparing_arrayEqual (hr : r.FollowsOn (.sparing b) .equal) (v other : Value) :
    (arrayEqual r v other).Follows (.sparing b) := by
  have hall := sparing_allEqual hr
  unfold arrayEqual
  grind

theorem sparing_stringEqual (v other : Value) : (stringEqual v other).Follows (.sparing b) := by
  unfold stringEqual
  grind

theorem sparing_invoke {β : Behavior} (c : Callback β) (args : β.Args) :
    (act (.invoke β c args)).Follows (.sparing b) :=
  fun _ _ => ⟨rfl, rfl⟩

/-- Comparisons change nothing, to whatever depth they go. -/
theorem sparing_ofDepth (n : Nat) : (Runner.ofDepth n).FollowsOn (.sparing b) .equal := by
  induction n with
  | zero => exact fun _ _ _ c _ args => follows_bind (sparing_invoke c args) fun _ => follows_exhausted
  | succ n ih =>
    intro h plain d c hc args
    obtain ⟨k, rfl⟩ := Registry.Plain.exists_routine plain hc
    refine follows_bind (sparing_invoke _ args) fun _ => ?_
    cases k with
    | arrayEqual => exact sparing_arrayEqual ih args.1 args.2
    | stringEqual => exact sparing_stringEqual args.1 args.2

theorem sparing_change (hne : b ≠ a) (c : Change) : (act (.change (.ref a) c)).Follows (.sparing b) :=
  fun w _ => ⟨rfl, Heap.get?_modify_of_ne (h := w.heap) c.apply hne⟩

theorem sparing_writePayload (hne : b ≠ a) {k : Kind} (f : k.Content → Except Error k.Content) :
    (writePayload (.ref a) k f).run.Follows (.sparing b) := by
  intro w plain
  rcases writePayload_cases (.ref a) k f w with ⟨e, hexec, htrace⟩ | ⟨id, c, c', hc, _, hexec, htrace⟩
  · rw [hexec, htrace]
    exact (Conduct.sparing b).nil plain
  · obtain ⟨_, heq, _⟩ := Heap.content_eq_ok hc
    cases heq
    rw [hexec, htrace]
    exact sparing_change hne (.write (.of k c')) w plain

/-- To set an element changes the instance whose element it is and no other, however it ends. -/
theorem get?_setItem_of_ne (hne : b ≠ a) {u : World} (plain : u.heap.registry.Plain) (m : Nat)
    (index item : Value) :
    ((setItem (.ofDepth m) (.ref a) index item).run.exec u).2.heap.pool.get? b =
      u.heap.pool.get? b := by
  have hset : ∀ (k : Routine .set) m,
      (Routine.run (.ofDepth m) k (.ref a, index, item)).Follows (.sparing b) := by
    intro k m
    cases k with
    | arraySet =>
      show (arraySet (.ref a) index item).run.Follows _
      exact sparing_writePayload hne _
    | tableSet =>
      show (tableSet (.ofDepth m) (.ref a) index item).run.Follows _
      refine follows_attempt_bind (follows_ask _) fun entries => ?_
      refine follows_attempt_bind (follows_lift (sparing_findKey (sparing_ofDepth m) _ _)) fun _ => ?_
      exact sparing_writePayload hne _
  have follows : (setItem (.ofDepth m) (.ref a) index item).run.Follows (.sparing b) := by
    refine follows_ask_bind fun h found hplain hfound => ?_
    cases found with
    | none => exact follows_attempt_pure _
    | some c =>
      obtain ⟨_, _, _, _, hc⟩ := Heap.callback_eq_some hfound
      obtain ⟨k, rfl⟩ := Registry.Plain.exists_routine hplain hc
      refine follows_attempt_bind (x := Attempt.ofRun _) ?_ fun _ => ?_
      · cases m with
        | zero => exact follows_bind (sparing_invoke _ _) fun _ => follows_exhausted
        | succ m => exact follows_bind (sparing_invoke _ _) fun _ => hset k m
      · refine follows_attempt_bind ?_ fun _ => follows_attempt_pure _
        exact follows_attempt_bind (follows_ask _) fun _ =>
          follows_lift (sparing_change hne .invalidateSequence)
  exact (follows u plain).2

end

/-! ## Copies -/

/-- Copies are faithful, but for their type.  At any moment of a session let the callbacks be those of
containers, and let `id` be an instance that can be reached, with a copy routine and a payload that
fits it and that nobody is writing.  Then the copy succeeds, also when its allocation collects.  It is
a new instance with the same payload, whose values are all live if they were.  It has the type of the
original if this has the routine of arrays.  A copy by the routine of strings or tables has the type of
which the routine is, even if the original is of a type derived from that.  The original stays as it is
but for its mark, and to set an element of one of the two never changes the other. -/
theorem copy_faithful (s : Session) {r : Runner} (hr : r.Lawful) (valid : s.config.fault? = none)
    {w : World} (moment : w.heap ∈ s.moments r) (furnished : w.heap.registry.Furnished)
    {id : InstanceId} {x : Instance} (reachable : w.heap.Reachable containerParts id)
    (hx : w.heap.pool.get? id = some x) {k : Routine .copy}
    (hk : w.heap.registry.callback? x.descriptor .copy = some (.routine k))
    {c : k.copyKind.Content} (fits : x.payload = .of k.copyKind c)
    (readable : x.borrow.readable = true) {n : Nat} (deep : w.heap.pool.instances.length < n) :
    ∃ new y x' w', (copy (.ofDepth (n + 1)) (.ref id)).run.exec w = (.ok (.ok (.ref new)), w') ∧
      new ≠ id ∧ w.heap.contains (.ref new) = false ∧
      w'.heap.pool.get? new = some y ∧ y.payload = x.payload ∧
      y.descriptor = k.copyType x.descriptor ∧
      w'.heap.pool.get? id = some x' ∧ x'.unmark = x.unmark ∧
      (∀ a, .ref a ∈ x.payload.values → w.heap.contains (.ref a) = true →
        w'.heap.contains (.ref a) = true) ∧
      ∀ (u : World) (m : Nat) (index item : Value), u.heap.registry.Plain →
        let set v := ((setItem (.ofDepth m) v index item).run.exec u).2.heap
        (set (.ref id)).pool.get? new = u.heap.pool.get? new ∧
          (set (.ref new)).pool.get? id = u.heap.pool.get? id := by
  obtain ⟨m, rfl⟩ : ∃ m, n = m + 1 := ⟨n - 1, (Nat.succ_pred_eq_of_pos (Nat.zero_lt_of_lt deep)).symm⟩
  obtain ⟨new, y, w', hexec, hnew, hy, hd, hp, kept⟩ :=
    allocate_keeps (s.soundPool_moments r valid _ moment) furnished.plain
      (s.quiet_moments hr valid _ moment) (Nat.le_of_lt deep) (furnished.known _ k hk) x.payload
  obtain ⟨x', hx', heq⟩ := kept id x reachable hx
  have hne : new ≠ id := by
    rintro rfl
    rw [hx] at hnew
    cases hnew
  refine ⟨new, y, x', w', (exec_copy (m + 1) hx hk fits readable).trans hexec, hne, ?_, hy, hp, hd,
    hx', heq, fun a ha hlive => ?_, fun u m index item plain => ⟨?_, ?_⟩⟩
  · show (w.heap.pool.get? new).isSome = false
    rw [hnew]
    rfl
  · obtain ⟨z, hz⟩ := Option.isSome_iff_exists.mp hlive
    obtain ⟨z', hz', _⟩ :=
      kept a z (Heap.reachable_of_copied furnished.plain reachable hx hk fits ha hz) hz
    exact Option.isSome_iff_exists.mpr ⟨z', hz'⟩
  · exact get?_setItem_of_ne hne plain m index item
  · exact get?_setItem_of_ne hne.symm plain m index item

/-- Types that come after the containers and have the callbacks of one of them, or none. -/
theorem Registry.furnished_of_tables {g : Registry} {more : List DispatchTable}
    (htables : g.tables = standardTables ++ more)
    (inherited : ∀ t ∈ more, t = .empty ∨ t ∈ standardTables) : g.Furnished := by
  have each : ∀ t ∈ g.tables, t = .empty ∨ t ∈ standardTables := by
    rw [htables]
    exact List.forall_mem_append.mpr ⟨fun t ht => .inr ht, inherited⟩
  refine ⟨fun d record hrecord => ?_, fun d k hk => ?_⟩
  · rcases each _ (table_mem_tables hrecord) with heq | hmem
    · exact ⟨[], .none, heq⟩
    · obtain ⟨routines, hroutines, heq⟩ := List.mem_map.mp hmem
      refine ⟨routines, ?_, heq.symm⟩
      simp only [List.mem_cons, List.not_mem_nil, or_false] at hroutines
      rcases hroutines with rfl | rfl | rfl | rfl | rfl
      · exact .array _
      · exact .list _
      · exact .string _ _
      · exact .table _ _
      · exact .quotation
  · have hsize : 5 ≤ g.size := by
      have hlength : g.tables.length = g.size := List.length_map _
      rw [← hlength, htables, List.length_append]
      exact Nat.le_add_right _ _
    rw [callback?_eq] at hk
    obtain ⟨t, ht, hentry⟩ := Option.bind_eq_some_iff.mp hk
    have hstandard : (Callback.routine k).standard = true := by
      rcases each t (List.mem_of_getElem? ht) with rfl | hmem
      · cases hentry
      · exact standard_standardTables t hmem _ _ hentry
    cases k with
    | arrayCopy array =>
      have hlt := (List.getElem?_eq_some_iff.mp ht).1
      exact Nat.lt_of_lt_of_eq hlt (List.length_map _)
    | stringCopy string =>
      obtain rfl : string = Containers.standard.string := of_decide_eq_true hstandard
      exact Nat.lt_of_lt_of_le (by decide : 2 < 5) hsize
    | tableCopy table =>
      obtain rfl : table = Containers.standard.table := of_decide_eq_true hstandard
      exact Nat.lt_of_lt_of_le (by decide : 3 < 5) hsize

/-- A session that leaves a row, which is an array of a type of its own, on the stack.  The row holds a
label, which is a string of a type of its own.  A third instance is of no use, and the next allocation
collects. -/
def labelledRow : Session where
  config := { highWaterMark := 3 }
  steps := [.op (.derive "row" none (.index ⟨0⟩)), .op (.derive "label" none (.index ⟨2⟩)),
    .bind "a" (.op (.alloc (.text "a") (.index ⟨6⟩))),
    .bind "r" (.op (.alloc (.items [.var "a"]) (.index ⟨5⟩))), .op (.push (.var "r")),
    .op (.array [])]

theorem furnished_labelledRow : (labelledRow.closing (.ofDepth 5)).heap.registry.Furnished := by
  have htables : (labelledRow.closing (.ofDepth 5)).heap.registry.tables = standardTables ++
      [arrayRoutines ⟨0⟩, stringRoutines ⟨0⟩ ⟨2⟩].map (DispatchTable.installAll .empty) := rfl
  refine Registry.furnished_of_tables htables fun t ht => ?_
  obtain ⟨routines, hroutines, rfl⟩ := List.mem_map.mp ht
  simp only [List.mem_cons, List.not_mem_nil, or_false] at hroutines
  rcases hroutines with rfl | rfl
  · exact .inr List.mem_cons_self
  · exact .inr (List.mem_cons_of_mem _ (List.mem_cons_of_mem _ List.mem_cons_self))

theorem copy_faithful_labelledRow :
    let w := labelledRow.closing (.ofDepth 5)
    ∃ new y w', w.heap.collectionDue = true ∧
      (copy (.ofDepth 5) (.ref ⟨1, 0⟩)).run.exec w = (.ok (.ok (.ref new)), w') ∧
      w'.heap.pool.get? new = some y ∧ y.descriptor = ⟨5⟩ ∧ y.payload = .items [.ref ⟨0, 0⟩] ∧
      w'.heap.contains (.ref ⟨0, 0⟩) = true := by
  intro w
  have hroot : w.heap.Reachable containerParts ⟨1, 0⟩ :=
    .root ⟨_, rfl, Or.inl (by decide +kernel)⟩
  obtain ⟨new, y, _, w', hexec, _, _, hy, hp, hd, _, _, live, _⟩ :=
    copy_faithful labelledRow (Runner.lawful_ofDepth 5) (by decide)
      (labelledRow.closing_mem_moments (.ofDepth 5)) furnished_labelledRow hroot rfl
      (k := .arrayCopy ⟨0⟩) rfl (c := [.ref ⟨0, 0⟩]) rfl rfl (n := 4) (by decide +kernel)
  exact ⟨new, y, w', by decide +kernel, hexec, hy, hd, hp, live ⟨0, 0⟩ List.mem_cons_self
    (by decide +kernel)⟩

theorem copy_of_label_is_string :
    let w := labelledRow.closing (.ofDepth 5)
    let e := (copy (.ofDepth 5) (.ref ⟨0, 0⟩)).run.exec w
    w.heap.descriptorOf (.ref ⟨0, 0⟩) = some ⟨6⟩ ∧
      e.1.toOption.bind Except.toOption = some (.ref ⟨3, 0⟩) ∧
      e.2.heap.descriptorOf (.ref ⟨3, 0⟩) = some Containers.standard.string := by
  decide +kernel

end TracedHeap
