import TracedHeap.Proofs.Collection

/-!
# Heaps of containers

Heaps whose types are the containers, types derived from them and types without callbacks.

* `DispatchTable.Plain`, `Registry.Plain`   the tables such types have, and registries of them;
* `containerParts`                          what the mark routines of the containers mark;
* `Routine.tracedBy?`                       the mark routine that a routine which goes into the
                                            elements of a container relies on;
* `Runner.traces_ofDepth`                   on such heaps the callbacks are as `Runner.Traces` asks;
* `collect_exact`                           collections release what cannot be reached, and only
                                            that.
-/

namespace TracedHeap

open Run

/-! ## Tables of containers -/

/-- The routines of the types that have no others: of each container, or none at all. -/
inductive ContainerRoutines : List ((b : Behavior) × Routine b) → Prop where
  | none : ContainerRoutines []
  | array (array : Descriptor) : ContainerRoutines (arrayRoutines array)
  | list (array : Descriptor) : ContainerRoutines (arrayRoutines array ++ listRoutines)
  | string (array string : Descriptor) : ContainerRoutines (stringRoutines array string)
  | table (array table : Descriptor) : ContainerRoutines (tableRoutines array table)
  | quotation : ContainerRoutines quotationRoutines

/-- The mark routine that finds the values a routine goes into. -/
def Routine.tracedBy? : {b : Behavior} → Routine b → Option (Routine .mark)
  | _, arrayInspect | _, listInspect | _, arrayEqual => some .arrayMark
  | _, tableInspect | _, tableGet => some .tableMark
  | _, quotationInspect => some .quotationMark
  | _, _ => none

namespace DispatchTable

def installAll (t : DispatchTable) (routines : List ((b : Behavior) × Routine b)) : DispatchTable :=
  routines.foldl (fun t e => t.install e.1 (.routine e.2)) t

def Plain (t : DispatchTable) : Prop :=
  ∃ routines, ContainerRoutines routines ∧ t = installAll .empty routines

theorem entry_installAll {routines : List ((b : Behavior) × Routine b)} {t : DispatchTable}
    {b : Behavior} {c : Callback b} (h : (t.installAll routines).entry b = some c) :
    (∃ k, ⟨b, k⟩ ∈ routines ∧ c = .routine k) ∨ t.entry b = some c := by
  induction routines generalizing t with
  | nil => exact Or.inr h
  | cons e rest ih =>
    obtain ⟨b', k⟩ := e
    rcases ih h with ⟨k', hk', hc⟩ | h
    · exact Or.inl ⟨k', List.mem_cons_of_mem _ hk', hc⟩
    · by_cases hb : b' = b
      · subst hb
        rw [entry_install_self] at h
        exact Or.inl ⟨k, List.mem_cons_self, (Option.some.inj h).symm⟩
      · rw [entry_install_of_ne _ _ hb] at h
        exact Or.inr h

end DispatchTable

namespace ContainerRoutines

variable {routines : List ((b : Behavior) × Routine b)}

/-- No routine of a container goes into values that its mark routine does not find. -/
theorem covered (h : ContainerRoutines routines) :
    ∀ e ∈ routines, ∀ m, e.2.tracedBy? = some m →
      (DispatchTable.installAll .empty routines).entry .mark = some (.routine m) := by
  cases h with
  | none => simp
  | array array =>
    simp only [arrayRoutines, List.forall_mem_cons, Routine.tracedBy?, Option.some.injEq,
      forall_eq']
    exact ⟨rfl, nofun, nofun, nofun, nofun, rfl, nofun, nofun, nofun⟩
  | list array =>
    simp only [arrayRoutines, listRoutines, List.cons_append, List.nil_append,
      List.forall_mem_cons, Routine.tracedBy?, Option.some.injEq, forall_eq']
    exact ⟨rfl, nofun, nofun, nofun, nofun, rfl, nofun, nofun, rfl, nofun⟩
  | string array string =>
    simp only [stringRoutines, List.forall_mem_cons, Routine.tracedBy?]
    exact ⟨nofun, nofun, nofun, nofun, nofun, nofun, nofun, nofun⟩
  | table array table =>
    simp only [tableRoutines, List.forall_mem_cons, Routine.tracedBy?, Option.some.injEq,
      forall_eq']
    exact ⟨rfl, nofun, nofun, rfl, nofun, nofun, nofun, nofun⟩
  | quotation =>
    simp only [quotationRoutines, List.forall_mem_cons, Routine.tracedBy?, Option.some.injEq,
      forall_eq']
    exact ⟨rfl, nofun, nofun, nofun, nofun, nofun⟩

theorem ne_free (h : ContainerRoutines routines) : ∀ e ∈ routines, e.1 ≠ .free := by
  cases h <;> simp [arrayRoutines, listRoutines, stringRoutines, tableRoutines, quotationRoutines]

end ContainerRoutines

namespace DispatchTable

/-- The callbacks of a container are routines, and they go into the values that its mark routine
finds and into no others. -/
theorem Plain.entry {t : DispatchTable} (h : t.Plain) {b : Behavior} {c : Callback b}
    (hc : t.entry b = some c) :
    ∃ k : Routine b, c = .routine k ∧
      ∀ m, k.tracedBy? = some m → t.entry .mark = some (.routine m) := by
  obtain ⟨routines, hroutines, rfl⟩ := h
  rcases entry_installAll hc with ⟨k, hk, rfl⟩ | hc
  · exact ⟨k, rfl, hroutines.covered _ hk⟩
  · cases hc

theorem Plain.free {t : DispatchTable} (h : t.Plain) : t.entry .free = none := by
  obtain ⟨routines, hroutines, rfl⟩ := h
  refine Option.eq_none_iff_forall_ne_some.mpr fun c hc => ?_
  rcases entry_installAll hc with ⟨k, hk, _⟩ | hc
  · exact hroutines.ne_free _ hk rfl
  · cases hc

end DispatchTable

def Registry.Plain (g : Registry) : Prop := ∀ d r, g.get? d = some r → r.table.Plain

/-! ## What the mark routines mark -/

/-- The values that a mark routine of a container finds in a payload. -/
def containerParts : Callback .mark → Payload → List Value
  | .routine .arrayMark, .items vs => vs
  | .routine .tableMark, .table es => es.flatMap fun e => [e.1, e.2]
  | .routine .quotationMark, .words vs => vs
  | _, _ => []

/-- The collector is idle, and no payload is being used. -/
structure Heap.Quiet (h : Heap) : Prop where
  ready : h.refusal? = none
  borrow : ∀ id x, h.pool.get? id = some x → x.borrow = .shared 0

theorem Heap.read_of_get? {h : Heap} {id : InstanceId} {x : Instance} (hx : h.pool.get? id = some x)
    (hb : x.borrow.readable = true) (k : Kind) :
    h.read (.ref id) k =
      match x.payload.as? k with
      | some c => .ok c
      | none => .error (.payloadType id k) := by
  have hfind : h.find (.ref id) = .ok (id, x) := by simp [find, hx]
  unfold read content
  rw [hfind]
  show Except.map _ (if x.borrow.readable = true then _ else _) = _
  rw [if_pos hb]
  cases x.payload.as? k <;> rfl

/-- A mark routine that reads a payload of kind `k` marks the values it makes of the content, and
only reports when the payload is of another kind. -/
theorem yields_markParts {container : Traced} {k : Kind} {f : k.Content → List Value} {w : World}
    {id : InstanceId} {x : Instance} {parts : Heap → Except Error (List Value)}
    (hx : w.heap.pool.get? id = some x) (hb : x.borrow = .shared 0)
    (hparts : parts w.heap = (w.heap.read (.ref id) k).map f) :
    (markParts container (.ref id) parts).Yields w ()
      (w.heap.markAll (((x.payload.as? k).map f).getD [])) := by
  refine yields_heap_bind ?_
  rw [hparts, Heap.read_of_get? hx (by rw [hb]; rfl)]
  cases x.payload.as? k with
  | none => exact yields_report _ w
  | some c => exact yields_markAll (f c) w

/-- On a quiet heap of containers the mark routines mark the parts of payloads and do nothing else,
and there are no free callbacks. -/
theorem Runner.traces_ofDepth (n : Nat) {w : World} (plain : w.heap.registry.Plain)
    (quiet : w.heap.Quiet) : (Runner.ofDepth (n + 1)).Traces w containerParts where
  mark w' i x c _ same _ hx hc := by
    obtain ⟨x₀, hx₀, heq⟩ := Heap.exists_of_unmarked_eq same hx
    have hborrow : x.borrow = .shared 0 := by
      have hb : x.unmark.borrow = x₀.unmark.borrow := congrArg _ heq
      exact hb.trans (quiet.borrow i x₀ hx₀)
    rw [Heap.registry_of_unmarked_eq same] at hc
    obtain ⟨record, hrecord, hentry⟩ := Option.bind_eq_some_iff.mp hc
    obtain ⟨k, rfl, _⟩ := (plain _ record hrecord).entry hentry
    cases k with
    | arrayMark =>
      have hparts : containerParts (.routine .arrayMark) x.payload =
          ((x.payload.as? .items).map id).getD [] := by cases x.payload <;> rfl
      rw [hparts]
      refine yields_markParts hx hborrow ?_
      rw [Except.map_id, id]
    | tableMark =>
      have hparts : containerParts (.routine .tableMark) x.payload =
          ((x.payload.as? .table).map (List.flatMap fun e => [e.1, e.2])).getD [] := by
        cases x.payload <;> rfl
      rw [hparts]
      exact yields_markParts (k := .table) hx hborrow rfl
    | quotationMark =>
      have hparts : containerParts (.routine .quotationMark) x.payload =
          ((x.payload.as? .words).map id).getD [] := by cases x.payload <;> rfl
      rw [hparts]
      refine yields_markParts hx hborrow ?_
      rw [Except.map_id, id]
  free w' d c p _ hregistry _ hc := by
    rw [hregistry] at hc
    obtain ⟨record, hrecord, hentry⟩ := Option.bind_eq_some_iff.mp hc
    rw [(plain _ record hrecord).free] at hentry
    cases hentry

/-! ## Exactness -/

/-- Collections are exact.  Let the collector be idle, let the mark callbacks mark `parts` of
payloads and do nothing else, and let the free callbacks leave the heap alone, as it is where no
payload is in use and the types are those of containers or have no callbacks.
Then a collection that may trace as many instances as there are comes to an end and gives the
number of instances that cannot be reached.  These are gone; those that can be reached have their
names and all that is in them, but for the mark; and the stack, the frames and the types are as
they were. -/
theorem collect_exact (r : Runner) (w : World) (parts : Callback .mark → Payload → List Value)
    (ready : w.heap.refusal? = none) (traces : r.Traces w parts)
    (enough : w.heap.pool.instances.length ≤ r.rounds) :
    ∃ (dead : List InstanceId) (w' : World), (collect r).exec w = (.ok dead.length, w') ∧
      dead.Nodup ∧
      (∀ id, id ∈ dead ↔ w.heap.contains (.ref id) = true ∧ ¬ w.heap.Reachable parts id) ∧
      (∀ id, w.heap.Reachable parts id → ∃ x, w.heap.pool.get? id = some x ∧
        w'.heap.pool.get? id = some { x with marked := false }) ∧
      (∀ id, ¬ w.heap.Reachable parts id → w'.heap.contains (.ref id) = false) ∧
      w'.heap.stack = w.heap.stack ∧ w'.heap.frames = w.heap.frames ∧
      w'.heap.registry = w.heap.registry ∧ w'.heap.config = w.heap.config ∧
      w'.heap.refusal? = none ∧ w'.toContext.unlogged = w.toContext.unlogged := by
  obtain ⟨dead, h, ⟨w', hexec, rfl, hctx⟩, c⟩ := traces.collect ready enough
  refine ⟨dead, w', hexec, c.nodup, c.mem_dead, fun id hid => ?_, fun id hid => ?_, c.stack,
    c.frames, c.registry, c.config, c.ready, hctx⟩
  · obtain ⟨x, hx⟩ := hid.live
    refine ⟨x, hx, ?_⟩
    rw [c.kept id hid, hx]
    rfl
  · show (w'.heap.pool.get? id).isSome = false
    rw [c.gone id hid]
    rfl

def mutualArrays : Session where
  steps := [.bind "a" (.op (.array [])), .bind "b" (.op (.array [.var "a"])),
    .op (.set (.var "a") (.const (.int 0)) (.var "b")), .op (.push (.var "a")), .op (.array [])]

theorem plain_mutualArrays : (mutualArrays.closing (.ofDepth 4)).heap.registry.Plain := by
  have htables : (mutualArrays.closing (.ofDepth 4)).heap.registry.records.toList.map
      TypeRecord.table =
        [arrayRoutines ⟨0⟩, arrayRoutines ⟨0⟩ ++ listRoutines, stringRoutines ⟨0⟩ ⟨2⟩,
          tableRoutines ⟨0⟩ ⟨3⟩, quotationRoutines].map (DispatchTable.installAll .empty) := by rfl
  intro d r hr
  have hmem : r.table ∈ (mutualArrays.closing (.ofDepth 4)).heap.registry.records.toList.map
      TypeRecord.table :=
    List.mem_map_of_mem (Array.mem_toList_iff.mpr (Array.mem_of_getElem? hr))
  rw [htables] at hmem
  obtain ⟨routines, hroutines, heq⟩ := List.mem_map.mp hmem
  refine ⟨routines, ?_, heq.symm⟩
  simp only [List.mem_cons, List.not_mem_nil, or_false] at hroutines
  rcases hroutines with rfl | rfl | rfl | rfl | rfl
  · exact .array _
  · exact .list _
  · exact .string _ _
  · exact .table _ _
  · exact .quotation

theorem quiet_mutualArrays : (mutualArrays.closing (.ofDepth 4)).heap.Quiet := by
  refine ⟨by decide +kernel, fun id x hx => ?_⟩
  have hall : ∀ e ∈ (mutualArrays.closing (.ofDepth 4)).heap.pool.instances,
      e.2.borrow = .shared 0 := by decide +kernel
  exact hall (id, x) (Pool.mem_instances.mpr hx)

theorem collect_exact_mutualArrays :
    ∃ (dead : List InstanceId) (w' : World),
      (collect (.ofDepth 4)).exec (mutualArrays.closing (.ofDepth 4)) = (.ok dead.length, w') ∧
      dead.length = 1 ∧ ∃ x, w'.heap.pool.get? ⟨1, 0⟩ = some x := by
  obtain ⟨dead, w', hexec, _, _, kept, _⟩ := collect_exact (.ofDepth 4) _ containerParts
    quiet_mutualArrays.ready (Runner.traces_ofDepth 3 plain_mutualArrays quiet_mutualArrays)
    (by decide +kernel)
  have hone : ((collect (.ofDepth 4)).exec (mutualArrays.closing (.ofDepth 4))).1.toOption =
      some 1 := by decide +kernel
  rw [hexec] at hone
  -- the second array is only held by the first, which is on the stack
  have hfirst : (mutualArrays.closing (.ofDepth 4)).heap.Reachable containerParts ⟨0, 0⟩ :=
    .root ⟨_, rfl, Or.inl (by decide +kernel)⟩
  have hsecond : (mutualArrays.closing (.ofDepth 4)).heap.Reachable containerParts ⟨1, 0⟩ :=
    hfirst.held rfl (by decide +kernel) rfl
  obtain ⟨x, _, hx⟩ := kept _ hsecond
  exact ⟨dead, w', hexec, Option.some.inj hone, _, hx⟩

end TracedHeap
