import TracedHeap.Proofs.Marking

/-!
# Collections are exact

A collection keeps what can be reached, as it is, and releases everything else.

* `Run.Yields`         what a computation gives and which heap it leaves, if all else it does is to
                       log something;
* `Runner.Traces`      the mark callbacks mark parts of payloads and nothing else, and the free
                       callbacks leave the heap alone;
* `Heap.Collected`     the heap before and after a collection;
* `Runner.Traces.collect`
                       every collection that starts comes to an end and leaves a collected heap.
-/

namespace TracedHeap

open Run

/-! ## Computations that only log beside what they do to the heap -/

def Context.unlogged (c : Context) : Context := { c with log := #[] }

/-- Started in `w`, the computation gives `a` and leaves the heap `h`; beside the heap it changes
the log at most. -/
def Run.Yields {α : Type} (x : Run α) (w : World) (a : α) (h : Heap) : Prop :=
  ∃ w', x.exec w = (.ok a, w') ∧ w'.heap = h ∧ w'.toContext.unlogged = w.toContext.unlogged

section
variable {α β : Type} {w : World} {a : α} {b : β} {h h' : Heap}

theorem yields_pure (a : α) (w : World) : (pure a : Run α).Yields w a w.heap :=
  ⟨w, rfl, rfl, rfl⟩

theorem yields_act {x : Action α} (hx : x.apply w.heap = (a, h)) : (act x).Yields w a h := by
  refine ⟨{ w with heap := h }, ?_, rfl, rfl⟩
  rw [exec_act, hx]

theorem yields_report (e : Event) (w : World) : (report e).Yields w () w.heap := by
  refine ⟨_, rfl, rfl, ?_⟩
  show (w.toContext.record _).unlogged = _
  unfold Context.record
  split <;> rfl

theorem yields_bind {x : Run α} {next : α → Run β} {w₁ : World} (hexec : x.exec w = (.ok a, w₁))
    (hctx : w₁.toContext.unlogged = w.toContext.unlogged) (hnext : (next a).Yields w₁ b h) :
    (x >>= next).Yields w b h := by
  obtain ⟨w₂, hexec₂, hheap, hctx₂⟩ := hnext
  refine ⟨w₂, ?_, hheap, hctx₂.trans hctx⟩
  rw [exec_bind, hexec]
  exact hexec₂

theorem Run.Yields.bind {x : Run α} {next : α → Run β} (hx : x.Yields w a h)
    (hnext : ∀ w', w'.heap = h → w'.toContext.unlogged = w.toContext.unlogged →
      (next a).Yields w' b h') : (x >>= next).Yields w b h' := by
  obtain ⟨w₁, hexec, hheap, hctx⟩ := hx
  exact yields_bind hexec hctx (hnext w₁ hheap hctx)

theorem Run.Yields.ensuring {x : Run α} {last : Run Unit} (hx : x.Yields w a h)
    (hlast : ∀ w', w'.heap = h → w'.toContext.unlogged = w.toContext.unlogged →
      last.Yields w' () h') : (ensuring x last).Yields w a h' := by
  obtain ⟨w₁, hexec, hheap, hctx⟩ := hx
  obtain ⟨w₂, hexec₂, hheap₂, hctx₂⟩ := hlast w₁ hheap hctx
  refine ⟨w₂, ?_, hheap₂, hctx₂.trans hctx⟩
  rw [exec, hexec]
  simp only [hexec₂]

theorem yields_heap_bind {next : Heap → Run β} (hnext : (next w.heap).Yields w b h) :
    (heap >>= next).Yields w b h :=
  yields_bind rfl rfl hnext

end

theorem yields_markAll (vs : List Value) (w : World) :
    (markAll vs).Yields w () (w.heap.markAll vs) := by
  induction vs generalizing w with
  | nil => exact yields_pure () w
  | cons v vs ih =>
    refine (yields_act rfl).bind fun w' hheap _ => ?_
    have hrest := ih w'
    rw [hheap] at hrest
    exact hrest

/-! ## Callbacks -/

/-- The free callbacks that the types of `w` have do nothing to the heap. -/
def Runner.Frees (r : Runner) (w : World) : Prop :=
  ∀ (w' : World) (d : Descriptor) (c : Callback .free) (p : Payload),
    w'.toContext.unlogged = w.toContext.unlogged → w'.heap.registry = w.heap.registry →
    w'.heap.collector.phase = .sweeping → w'.heap.registry.callback? d .free = some c →
    (r.run .free c p).Yields w' () w'.heap

/-- During a collection that starts in `w`, the mark callbacks mark the `parts` of payloads and do
nothing else, and the free callbacks do nothing to the heap. -/
structure Runner.Traces (r : Runner) (w : World) (parts : Callback .mark → Payload → List Value) :
    Prop where
  mark : ∀ (w' : World) (id : InstanceId) (x : Instance) (c : Callback .mark),
    w'.toContext.unlogged = w.toContext.unlogged → w'.heap.unmarked = w.heap.unmarked →
    w'.heap.collector.phase = .marking → w'.heap.pool.get? id = some x →
    w'.heap.registry.callback? x.descriptor .mark = some c →
    (r.run .mark c (.ref id)).Yields w' () (w'.heap.markAll (parts c x.payload))
  free : r.Frees w

section
variable {r : Runner} {w : World} {parts : Callback .mark → Payload → List Value}

/-- Tracing an instance marks what it holds. -/
theorem Runner.Traces.traceInstance (t : r.Traces w parts) {w' : World} {id : InstanceId}
    {x : Instance} (hctx : w'.toContext.unlogged = w.toContext.unlogged)
    (same : w'.heap.unmarked = w.heap.unmarked) (marking : w'.heap.collector.phase = .marking)
    (hx : w.heap.pool.get? id = some x) :
    (traceInstance r id).Yields w' () (w'.heap.markAll (w.heap.held parts x)) := by
  obtain ⟨x', hx', heq⟩ := Heap.exists_of_unmarked_eq same.symm hx
  obtain ⟨hdescriptor, hpayload, hchildren⟩ := Instance.eq_of_unmark_eq heq
  unfold TracedHeap.traceInstance
  refine yields_heap_bind ?_
  rw [hx']
  refine (yields_markAll x'.children w').bind fun w₁ hheap hctx₁ => yields_heap_bind ?_
  have same₁ : w₁.heap.unmarked = w'.heap.unmarked := by
    rw [hheap]
    exact w'.heap.unmarked_markAll _
  rw [Heap.held, hchildren, hdescriptor, hpayload, ← Heap.registry_of_unmarked_eq same,
    ← Heap.registry_of_unmarked_eq same₁, Heap.markAll, List.foldl_append]
  show Run.Yields _ w₁ () (Heap.markAll (w'.heap.markAll x'.children) _)
  rw [← hheap]
  cases hc : w₁.heap.registry.callback? x'.descriptor .mark with
  | none => exact yields_pure () w₁
  | some c =>
    obtain ⟨x₁, hx₁, heq₁⟩ := Heap.exists_of_unmarked_eq same₁.symm hx'
    obtain ⟨hdescriptor₁, hpayload₁, _⟩ := Instance.eq_of_unmark_eq heq₁
    simp only
    rw [hpayload₁]
    refine t.mark w₁ id x₁ c (hctx₁.trans hctx) (same₁.trans same) ?_ hx₁ (hdescriptor₁ ▸ hc)
    rw [hheap]
    exact (w'.heap.phase_markAll _).trans marking

theorem yields_drain_of_gray_eq_nil (r : Runner) (rounds : Nat)
    (hgray : w.heap.collector.gray = []) : (drain r rounds).Yields w () w.heap := by
  have hnext : Action.nextGray.apply w.heap = (none, w.heap) := by
    simp [Action.apply, Heap.nextGray, hgray]
  unfold drain
  refine (yields_act hnext).bind fun w₁ hheap _ => ?_
  rw [← hheap]
  exact yields_pure () w₁

/-- The loop that traces comes to an end: in each round an instance turns black that was not, so
there cannot be more rounds than instances. -/
theorem Runner.Traces.drain (t : r.Traces w parts) (rounds : Nat) {w' : World}
    {black : List InstanceId} (hctx : w'.toContext.unlogged = w.toContext.unlogged)
    (coloured : w.heap.Coloured parts black w'.heap) (closed : w.heap.Closed parts black w'.heap)
    (enough : w.heap.pool.instances.length ≤ black.length + rounds) :
    ∃ h' black', (drain r rounds).Yields w' () h' ∧ w.heap.Coloured parts black' h' ∧
      w.heap.Closed parts black' h' ∧ h'.collector.gray = [] := by
  induction rounds generalizing w' black with
  | zero =>
    have hgray : w'.heap.collector.gray = [] := by
      have hle := Pool.length_le_instances coloured.nodup fun id hid =>
        (coloured.reachable id hid).live
      rw [List.length_append] at hle
      exact List.length_eq_zero_iff.mp (by omega)
    exact ⟨w'.heap, black, yields_drain_of_gray_eq_nil r 0 hgray, coloured, closed, hgray⟩
  | succ rounds ih =>
    cases hgray : w'.heap.collector.gray with
    | nil =>
      exact ⟨w'.heap, black, yields_drain_of_gray_eq_nil r _ hgray, coloured, closed, hgray⟩
    | cons id rest =>
      have hid : id ∈ black ++ w'.heap.collector.gray := by
        rw [hgray]
        exact List.mem_append_right black List.mem_cons_self
      obtain ⟨x, hx⟩ := (coloured.reachable id hid).live
      obtain ⟨coloured', closed'⟩ := coloured.trace closed hgray hx
      have hnext : Action.nextGray.apply w'.heap =
          (some id, { w'.heap with collector := { w'.heap.collector with gray := rest } }) := by
        simp [Action.apply, Heap.nextGray, hgray]
      obtain ⟨w₁, hexec₁, hheap₁, hctx₁⟩ := yields_act hnext
      have same₁ : w₁.heap.unmarked = w.heap.unmarked := by
        rw [hheap₁]
        exact coloured.same
      have marking₁ : w₁.heap.collector.phase = .marking := by
        rw [hheap₁]
        exact coloured.marking
      obtain ⟨w₂, hexec₂, hheap₂, hctx₂⟩ := t.traceInstance (hctx₁.trans hctx) same₁ marking₁ hx
      rw [hheap₁] at hheap₂
      rw [← hheap₂] at coloured' closed'
      have hlen : w.heap.pool.instances.length ≤ (id :: black).length + rounds := by
        rw [List.length_cons]
        omega
      obtain ⟨h', black', hyields, rest⟩ :=
        ih (hctx₂.trans (hctx₁.trans hctx)) coloured' closed' hlen
      refine ⟨h', black', ?_, rest⟩
      unfold TracedHeap.drain
      exact yields_bind hexec₁ hctx₁ (yields_bind hexec₂ hctx₂ hyields)

end

/-! ## Releasing -/

theorem Pool.get?_evict {p q : Pool} {i : Nat} {x : Instance} (he : p.evict i = some (x, q))
    (id : InstanceId) : q.get? id = if id.index = i then none else p.get? id := by
  split
  · next hi =>
    obtain ⟨_, _, _, hself⟩ := getElem?_evict_self he
    unfold get?
    rw [hi, hself]
    exact ite_self _
  · next hi =>
    unfold get?
    rw [getElem?_evict_of_ne he hi]

section
variable {r : Runner} {w : World}

/-- Releasing empties a slot and leaves the others as they are. -/
theorem Runner.Frees.release (frees : r.Frees w) (slot : Nat) {w' : World}
    (hctx : w'.toContext.unlogged = w.toContext.unlogged)
    (hregistry : w'.heap.registry = w.heap.registry)
    (sweeping : w'.heap.collector.phase = .sweeping) :
    ∃ pool, (release r slot).Yields w' () { w'.heap with pool } ∧
      ∀ id, pool.get? id = if id.index = slot then none else w'.heap.pool.get? id := by
  cases he : w'.heap.pool.evict slot with
  | none =>
    have happly : (Action.evict slot).apply w'.heap = (none, w'.heap) := by
      simp [Action.apply, Heap.evict, he]
    refine ⟨w'.heap.pool, ?_, fun id => ?_⟩
    · refine (yields_act happly).bind fun w₁ hheap _ => ?_
      rw [← hheap]
      exact yields_pure () w₁
    · have hfree := Option.map_eq_none_iff.mp he
      split
      · next hi =>
        rw [← hi] at hfree
        exact Pool.get?_eq_none_of_occupant? hfree
      · rfl
  | some e =>
    obtain ⟨x, q⟩ := e
    have happly : (Action.evict slot).apply w'.heap = (some x, { w'.heap with pool := q }) := by
      simp [Action.apply, Heap.evict, he]
    refine ⟨q, (yields_act happly).bind fun w₁ hheap hctx₁ => ?_, Pool.get?_evict he⟩
    refine yields_heap_bind ?_
    rw [← hheap]
    cases hc : w₁.heap.registry.callback? x.descriptor .free with
    | none => exact yields_pure () w₁
    | some c =>
      refine frees w₁ x.descriptor c x.payload (hctx₁.trans hctx) ?_ ?_ hc
      · rw [hheap]
        exact hregistry
      · rw [hheap]
        exact sweeping

theorem Runner.Frees.releaseAll (frees : r.Frees w) (slots : List Nat) {w' : World}
    (hctx : w'.toContext.unlogged = w.toContext.unlogged)
    (hregistry : w'.heap.registry = w.heap.registry)
    (sweeping : w'.heap.collector.phase = .sweeping) :
    ∃ pool, (releaseAll r slots).Yields w' () { w'.heap with pool } ∧
      ∀ id, pool.get? id = if id.index ∈ slots then none else w'.heap.pool.get? id := by
  induction slots generalizing w' with
  | nil => exact ⟨w'.heap.pool, yields_pure () w', fun id => by simp⟩
  | cons slot slots ih =>
    obtain ⟨p₁, ⟨w₁, hexec, hheap, hctx₁⟩, hget₁⟩ := frees.release slot hctx hregistry sweeping
    obtain ⟨p₂, hyields, hget₂⟩ := ih (hctx₁.trans hctx)
      (by rw [hheap]; exact hregistry) (by rw [hheap]; exact sweeping)
    rw [hheap] at hyields hget₂
    refine ⟨p₂, yields_bind hexec hctx₁ hyields, fun id => ?_⟩
    rw [hget₂, hget₁]
    by_cases hslot : id.index = slot <;> by_cases hslots : id.index ∈ slots <;>
      simp [hslot, hslots]

end

/-! ## The whole collection -/

/-- A heap before and after a collection that released the instances `dead`. -/
structure Heap.Collected (h : Heap) (parts : Callback .mark → Payload → List Value)
    (dead : List InstanceId) (h' : Heap) : Prop where
  nodup : dead.Nodup
  mem_dead : ∀ id, id ∈ dead ↔ h.contains (.ref id) = true ∧ ¬ h.Reachable parts id
  kept : ∀ id, h.Reachable parts id → h'.pool.get? id = (h.pool.get? id).map Instance.unmark
  gone : ∀ id, ¬ h.Reachable parts id → h'.pool.get? id = none
  stack : h'.stack = h.stack
  frames : h'.frames = h.frames
  registry : h'.registry = h.registry
  config : h'.config = h.config
  ready : h'.refusal? = none

/-- What the sweep releases is what cannot be reached. -/
theorem Heap.Coloured.mem_namesOf_not_pinned {h₀ h : Heap}
    {parts : Callback .mark → Payload → List Value} {black : List InstanceId}
    (c : h₀.Coloured parts black h) (closed : h₀.Closed parts black h)
    (hgray : h.collector.gray = []) (id : InstanceId) :
    id ∈ h.pool.namesOf (fun x => !x.pinned) ↔
      h₀.contains (.ref id) = true ∧ ¬ h₀.Reachable parts id := by
  rw [Pool.mem_namesOf, ← c.isMarked_iff closed hgray]
  have hcontains : h₀.contains (.ref id) = true ↔ ∃ x, h.pool.get? id = some x := by
    rw [exists_get?_iff_of_unmarked_eq c.same]
    exact Option.isSome_iff_exists
  rw [hcontains]
  constructor
  · rintro ⟨x, hx, hpin⟩
    refine ⟨⟨x, hx⟩, fun hm => ?_⟩
    have hmarked : x.marked = true := by simpa [isMarked, find?, Value.instance?, hx] using hm
    simp [Instance.pinned, hmarked] at hpin
  · rintro ⟨⟨x, hx⟩, hm⟩
    refine ⟨x, hx, ?_⟩
    rw [Bool.not_eq_true']
    -- a pinned instance was pinned from the start, or is marked by now
    by_contra hpin
    rw [Bool.not_eq_false] at hpin
    obtain ⟨x₀, hx₀, heq⟩ := exists_of_unmarked_eq c.same hx
    have hmarked : x.marked = false := by
      simpa [isMarked, find?, Value.instance?, hx] using hm
    have hroot : h₀.IsRoot id := by
      refine ⟨x₀, hx₀, Or.inr ?_⟩
      have hprot : x.unmark.isProtected = x₀.unmark.isProtected := congrArg (·.isProtected) heq
      have hperm : x.unmark.permanent = x₀.unmark.permanent := congrArg (·.permanent) heq
      have hprot' : x.isProtected = x₀.isProtected := hprot
      have hperm' : x.permanent = x₀.permanent := hperm
      simp only [Instance.pinned, hmarked, hprot', hperm', Bool.false_or] at hpin
      simp only [Instance.pinned, Bool.or_assoc, hpin, Bool.or_true]
    exact hm ((c.marked_iff id).mpr (c.roots id hroot))

/-- A heap that is swept after a complete marking, so that the slots of the instances no pin holds
are emptied, has been collected. -/
theorem Heap.Coloured.collected {h₀ h h' : Heap}
    {parts : Callback .mark → Payload → List Value} {black : List InstanceId}
    (c : h₀.Coloured parts black h) (closed : h₀.Closed parts black h)
    (hgray : h.collector.gray = []) (ready : h₀.refusal? = none)
    (hget : ∀ id, h'.pool.get? id =
      if id.index ∈ h.slotsOf (fun x => !x.pinned) then none
      else (h.pool.get? id).map Instance.unmark)
    (hphase : h'.collector.phase = .idle) (hstack : h'.stack = h.stack)
    (hframes : h'.frames = h.frames) (hregistry : h'.registry = h.registry)
    (hconfig : h'.config = h.config) (hborrows : h'.borrows = h.borrows) :
    h₀.Collected parts (h.pool.namesOf fun x => !x.pinned) h' := by
  have hdead := c.mem_namesOf_not_pinned closed hgray
  obtain ⟨econfig, eregistry, eframes, estack, eborrows⟩ := eq_of_unmarked_eq c.same
  refine ⟨Pool.nodup_namesOf _ _, hdead, fun id hid => ?_, fun id hid => ?_, hstack.trans estack,
    hframes.trans eframes, hregistry.trans eregistry, hconfig.trans econfig, ?_⟩
  · -- no dead instance can be in the slot of one that is reachable
    have hslot : id.index ∉ h.slotsOf fun x => !x.pinned := by
      intro hmem
      obtain ⟨other, hother, hindex⟩ := List.mem_map.mp hmem
      obtain ⟨y, hy, _⟩ := Pool.mem_namesOf.mp hother
      obtain ⟨x, hx⟩ := (exists_get?_iff_of_unmarked_eq c.same id).mpr hid.live
      have heq : other = id := Pool.eq_of_index_eq hy hx hindex
      exact ((hdead other).mp hother).2 (heq ▸ hid)
    rw [hget, if_neg hslot]
    exact get?_of_unmarked_eq c.same id
  · rw [hget]
    split
    · rfl
    · next hslot =>
      rw [get?_of_unmarked_eq c.same, Option.map_eq_none_iff]
      refine Option.eq_none_iff_forall_ne_some.mpr fun x hx => hslot ?_
      have hlive : h₀.contains (.ref id) = true := Option.isSome_iff_exists.mpr ⟨x, hx⟩
      exact List.mem_map.mpr ⟨id, (hdead id).mpr ⟨hlive, hid⟩, rfl⟩
  · unfold refusal? at ready ⊢
    rw [hphase, hborrows, eborrows]
    split at ready
    · cases ready
    · simpa using ready

section
variable {r : Runner} {w : World} {parts : Callback .mark → Payload → List Value}

theorem Runner.Traces.collectNow (t : r.Traces w parts) (ready : w.heap.refusal? = none)
    (enough : w.heap.pool.instances.length ≤ r.rounds) :
    ∃ dead h, (collectNow r).Yields w dead.length h ∧
      w.heap.Collected parts dead (h.setPhase .idle) := by
  obtain ⟨w₁, hexec₁, hheap₁, hctx₁⟩ := yields_act (x := .startMarking) (w := w) rfl
  obtain ⟨coloured, closed⟩ := w.heap.coloured_startMarking parts
  rw [show Heap.startMarking w.heap = w₁.heap from hheap₁.symm] at coloured closed
  obtain ⟨h, black, ⟨w₂, hexec₂, hheap₂, hctx₂⟩, coloured, closed, hgray⟩ :=
    t.drain r.rounds hctx₁ coloured closed (by simpa using enough)
  subst hheap₂
  obtain ⟨w₃, hexec₃, hheap₃, hctx₃⟩ := yields_act (x := .startSweep) (w := w₂) rfl
  have hregistry₃ : w₃.heap.registry = w.heap.registry := by
    rw [hheap₃]
    show w₂.heap.registry = w.heap.registry
    exact Heap.registry_of_unmarked_eq coloured.same
  have sweeping₃ : w₃.heap.collector.phase = .sweeping := by rw [hheap₃]
  obtain ⟨pool, ⟨w₄, hexec₄, hheap₄, hctx₄⟩, hget⟩ :=
    t.free.releaseAll (w₂.heap.slotsOf fun x => !x.pinned) (hctx₃.trans (hctx₂.trans hctx₁))
      hregistry₃ sweeping₃
  rw [hheap₃] at hheap₄ hget
  refine ⟨w₂.heap.pool.namesOf fun x => !x.pinned,
    w₄.heap.finishCollection (w₂.heap.pool.namesOf fun x => !x.pinned).length, ?_, ?_⟩
  · unfold TracedHeap.collectNow
    refine yields_bind hexec₁ hctx₁ (yields_bind hexec₂ hctx₂ (yields_bind hexec₃ hctx₃
      (yields_bind hexec₄ hctx₄ ?_)))
    have hlen : (w₂.heap.slotsOf fun x => !x.pinned).length =
        (w₂.heap.pool.namesOf fun x => !x.pinned).length := List.length_map _
    rw [← hlen]
    refine (yields_act rfl).bind fun w₅ hheap₅ _ => yields_heap_bind ?_
    refine (yields_report _ w₅).bind fun w₆ hheap₆ _ => ?_
    have hpure := yields_pure (w₂.heap.slotsOf fun x => !x.pinned).length w₆
    rw [hheap₆, hheap₅] at hpure
    exact hpure
  · rw [hheap₄]
    refine coloured.collected closed hgray ready (fun id => ?_) rfl rfl rfl rfl rfl rfl
    show pool.get? id = _
    rw [hget]
    congr 1
    exact Pool.get?_modifyAll _ _ id

/-- A collection that is not refused comes to an end, keeps what can be reached and releases the
rest. -/
theorem Runner.Traces.collect (t : r.Traces w parts) (ready : w.heap.refusal? = none)
    (enough : w.heap.pool.instances.length ≤ r.rounds) :
    ∃ dead h, (collect r).Yields w dead.length h ∧ w.heap.Collected parts dead h := by
  obtain ⟨dead, h, hyields, hcollected⟩ := t.collectNow ready enough
  refine ⟨dead, h.setPhase .idle, ?_, hcollected⟩
  unfold TracedHeap.collect
  refine yields_heap_bind ?_
  rw [ready]
  refine hyields.ensuring fun w' hheap _ => ?_
  rw [← hheap]
  exact yields_act rfl

end

end TracedHeap
