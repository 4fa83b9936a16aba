import TracedHeap.Proofs.Conversion
import TracedHeap.Proofs.Effect
import TracedHeap.Proofs.Standard

/-!
# What a collection of containers leaves

A marking may be cut short, as callbacks may run only so deep, and then nothing is released.  If it
comes to its end, what the header of a marked instance holds is marked, whatever is found in its
payload.  Either way an instance that is left has all that its header holds, if it had it before.

* `Heap.Traced`        the invariant of a marking: what is pinned is marked, and what is marked
                       waits to be traced or has its children marked;
* `drain_traced`       the loop that traces keeps it, and nothing waits when it comes to its end;
* `Heap.Sifts`         some instances are gone, but none that the header of one left holds;
* `collect_sifts`, `teardown_sifts`
                       collections and teardowns of containers do no more than that.
-/

namespace TracedHeap

open Run

/-! ## Marking -/

/-- What is pinned is marked.  What is marked is to be traced, as the gray instances and those
`pending` are, or the values in its header are marked. -/
structure Heap.Traced (h : Heap) (pending : List InstanceId) : Prop where
  pinned : ∀ id x, h.pool.get? id = some x → x.pinned = true → x.marked = true
  children : ∀ id x, h.pool.get? id = some x → x.marked = true →
    id ∈ h.collector.gray ++ pending ∨
      ∀ child y, .ref child ∈ x.children → h.pool.get? child = some y → y.marked = true

/-- Marks and the beginnings of callbacks. -/
def Action.marks : {α : Type} → Action α → Bool
  | _, mark _ | _, invoke .. => true
  | _, _ => false

namespace Heap

variable {h : Heap} {pending : List InstanceId}

theorem traced_startMarking (h : Heap) : h.startMarking.Traced [] := by
  have hget : ∀ id, h.startMarking.pool.get? id =
      (h.markRoots.pool.get? id).map fun x => { x with marked := x.pinned } :=
    Pool.get?_modifyAll _ _
  refine ⟨fun id x hx hpin => ?_, fun id x hx hmarked => .inl ?_⟩
  · rw [hget] at hx
    obtain ⟨y, hy, rfl⟩ := Option.map_eq_some_iff.mp hx
    simp only [Instance.pinned, Bool.or_eq_true] at hpin ⊢
    tauto
  · rw [hget] at hx
    obtain ⟨y, hy, rfl⟩ := Option.map_eq_some_iff.mp hx
    rw [List.append_nil]
    exact List.mem_reverse.mpr (Pool.mem_namesOf.mpr ⟨y, hy, hmarked⟩)

theorem marked_mark (marking : h.collector.phase = .marking) (v : Value) {id : InstanceId}
    {y : Instance} (hy : (h.mark v).pool.get? id = some y) :
    (v = .ref id → y.marked = true) ∧
      ∀ x, h.pool.get? id = some x → x.marked = true → y.marked = true := by
  refine ⟨?_, fun x hx hmarked => ?_⟩
  · rintro rfl
    rcases mark_of_marking marking (.ref id) with ⟨same, hall⟩ | ⟨other, x, heq, hx, _, hmark⟩
    · rw [same] at hy
      have hm := hall id y rfl hy
      simpa [isMarked, find?, Value.instance?, hy] using hm
    · cases heq
      rw [hmark] at hy
      have hself := h.pool.get?_modify_self id fun x => { x with marked := true }
      rw [hx] at hself
      have hy : (h.pool.modify id fun x => { x with marked := true }).get? id = some y := hy
      rw [hself] at hy
      cases hy
      rfl
  · obtain ⟨z, hz, m⟩ := get?_mark v hx
    rw [hy] at hz
    cases hz
    exact m.marked hmarked

theorem Traced.mark (marking : h.collector.phase = .marking) (t : h.Traced pending) (v : Value) :
    (h.mark v).Traced pending := by
  rcases mark_of_marking marking v with ⟨same, _⟩ | ⟨id, x, rfl, hx, _, heq⟩
  · rw [same]
    exact t
  · have hget : ∀ other y, (h.mark (.ref id)).pool.get? other = some y →
        other = id ∨ h.pool.get? other = some y := by
      intro other y hy
      rw [heq] at hy
      by_cases ho : other = id
      · exact .inl ho
      · exact .inr ((h.pool.get?_modify_of_ne _ ho).symm.trans hy)
    have hgray : (h.mark (.ref id)).collector.gray = id :: h.collector.gray := by rw [heq]
    refine ⟨fun other y hy hpin => ?_, fun other y hy hmarked => ?_⟩
    · rcases hget other y hy with rfl | hold
      · exact (marked_mark marking _ hy).1 rfl
      · exact t.pinned other y hold hpin
    · rw [hgray]
      rcases hget other y hy with rfl | hold
      · exact .inl List.mem_cons_self
      · refine (t.children other y hold hmarked).imp (List.mem_cons_of_mem _) ?_
        intro hall child z hchild hz
        rcases hget child z hz with rfl | hz'
        · exact (marked_mark marking _ hz).1 rfl
        · exact hall child z hchild hz'

theorem Traced.markAll (marking : h.collector.phase = .marking) (t : h.Traced pending)
    (vs : List Value) :
    (h.markAll vs).Traced pending ∧
      (∀ id x y, h.pool.get? id = some x → (h.markAll vs).pool.get? id = some y →
        x.marked = true → y.marked = true) ∧
      ∀ id y, .ref id ∈ vs → (h.markAll vs).pool.get? id = some y → y.marked = true := by
  induction vs generalizing h with
  | nil =>
    refine ⟨t, fun id x y hx hy hmarked => ?_, fun id y hid => by cases hid⟩
    cases hx.symm.trans hy
    exact hmarked
  | cons v vs ih =>
    have marking' := (h.phase_mark v).trans marking
    obtain ⟨traced, grows, found⟩ := ih marking' (t.mark marking v)
    -- the instance is there after the first mark too, as marking adds none and takes none
    have between : ∀ {id y}, (h.markAll (v :: vs)).pool.get? id = some y →
        ∃ z, (h.mark v).pool.get? id = some z := by
      intro id y hy
      obtain ⟨z, hz, _⟩ := exists_of_unmarked_eq ((h.mark v).unmarked_markAll vs) hy
      exact ⟨z, hz⟩
    refine ⟨traced, fun id x y hx hy hmarked => ?_, fun id y hid hy => ?_⟩
    · obtain ⟨z, hz⟩ := between hy
      exact grows id z y hz hy ((marked_mark marking v hz).2 x hx hmarked)
    · rcases List.mem_cons.mp hid with hid | hid
      · obtain ⟨z, hz⟩ := between hy
        exact grows id z y hz hy ((marked_mark marking v hz).1 hid.symm)
      · exact found id y hid hy

theorem Traced.settle {id : InstanceId} (t : h.Traced [id])
    (settled : ∀ x, h.pool.get? id = some x → ∀ child y, .ref child ∈ x.children →
      h.pool.get? child = some y → y.marked = true) : h.Traced [] := by
  refine ⟨t.pinned, fun other x hx hmarked => ?_⟩
  rcases t.children other x hx hmarked with hmem | hall
  · rcases List.mem_append.mp hmem with hgray | hid
    · exact .inl (List.mem_append_left _ hgray)
    · cases List.mem_singleton.mp hid
      exact .inr (settled x hx)
  · exact .inr hall

end Heap

/-- Along marks the marking keeps its invariant, and nothing else changes. -/
theorem Path.traced {h h' : Heap} {ts : List Transition} (p : Path h ts h')
    (marks : ∀ t ∈ ts, t.action.marks = true) (marking : h.collector.phase = .marking) :
    h'.unmarked = h.unmarked ∧ h'.collector.phase = .marking ∧
      (h.Traced [] → h'.Traced []) := by
  induction p with
  | nil => exact ⟨rfl, marking, id⟩
  | cons t _ ih =>
    obtain ⟨here, later⟩ := List.forall_mem_cons.mp marks
    obtain ⟨a, h₀⟩ := t
    cases a with
    | mark v =>
      obtain ⟨same, marking', traced⟩ := ih later ((h₀.phase_mark v).trans marking)
      exact ⟨same.trans (h₀.unmarked_mark v), marking', fun t => traced (t.mark marking v)⟩
    | invoke b c args => exact ih later marking
    | _ => cases here

theorem marks_run (n : Nat) {c : Callback .mark} (hc : c.standard = true) (v : Value) (w : World) :
    ∀ t ∈ ((Runner.ofDepth n).run .mark c v).trace w, t.action.marks = true := by
  have parts : ∀ (container : Traced) (parts : Heap → Except Error (List Value)),
      (markParts container v parts).Follows (.each fun t => t.action.marks = true) := by
    intro container parts
    refine follows_bind follows_heap fun h => ?_
    split
    · refine follows_markAll (fun v => follows_act fun h _ t ht => ?_) _
      cases List.mem_singleton.mp ht
      rfl
    · exact follows_report _
  obtain ⟨k, rfl, _⟩ := Callback.exists_routine hc
  cases n with
  | zero =>
    rw [(run_ofDepth_zero (.routine k : Callback .mark) v w).2]
    exact List.forall_mem_singleton.mpr rfl
  | succ n =>
    rw [(run_ofDepth_succ n (.routine k : Callback .mark) v w).2]
    refine List.forall_mem_cons.mpr ⟨rfl, ?_⟩
    cases k with
    | arrayMark | tableMark | quotationMark => exact parts _ _ w trivial

section
variable {n : Nat} {w : World}

/-- Once an instance is traced, its children are marked, even if the tracing is cut short. -/
theorem traceInstance_traced {id : InstanceId} (stocked : w.heap.registry.Stocked)
    (marking : w.heap.collector.phase = .marking) (t : w.heap.Traced [id]) :
    let h' := ((traceInstance (.ofDepth n) id).exec w).2.heap
    h'.unmarked = w.heap.unmarked ∧ h'.collector.phase = .marking ∧ h'.Traced [] := by
  unfold traceInstance
  rw [(bind_of_ok (show heap.exec w = (.ok w.heap, w) from rfl) _).1]
  cases hx : w.heap.pool.get? id with
  | none =>
    refine ⟨rfl, marking, t.settle fun x hx' => ?_⟩
    rw [hx] at hx'
    cases hx'
  | some x =>
    obtain ⟨w₁, hexec, hheap, _⟩ := yields_markAll x.children w
    obtain ⟨traced, _, found⟩ := t.markAll marking x.children
    have same : w₁.heap.unmarked = w.heap.unmarked := by
      rw [hheap]
      exact w.heap.unmarked_markAll _
    have marking₁ : w₁.heap.collector.phase = .marking := by
      rw [hheap]
      exact (w.heap.phase_markAll _).trans marking
    have traced₁ : w₁.heap.Traced [] := by
      rw [hheap]
      refine traced.settle fun y hy child z hchild hz => found child z ?_ hz
      obtain ⟨x₀, hx₀, heq⟩ := Heap.exists_of_unmarked_eq (w.heap.unmarked_markAll _) hy
      cases hx.symm.trans hx₀
      rwa [(Instance.eq_of_unmark_eq heq).2.2] at hchild
    simp only
    rw [(bind_of_ok hexec _).1, (bind_of_ok (show heap.exec w₁ = (.ok w₁.heap, w₁) from rfl) _).1]
    cases hc : w₁.heap.registry.callback? x.descriptor .mark with
    | none => exact ⟨same, marking₁, traced₁⟩
    | some c =>
      have hstandard : c.standard = true := by
        rw [Heap.registry_of_unmarked_eq same] at hc
        exact stocked.callback hc
      obtain ⟨same', marking', traced'⟩ :=
        (Run.path_trace _ w₁).traced (marks_run n hstandard (.ref id) w₁) marking₁
      exact ⟨same'.trans same, marking', traced' traced₁⟩

theorem Heap.Traced.nextGray {h : Heap} {id : InstanceId} {rest : List InstanceId}
    (t : h.Traced []) (hgray : h.collector.gray = id :: rest) :
    Heap.Traced { h with collector := { h.collector with gray := rest } } [id] := by
  refine ⟨t.pinned, fun other x hx hmarked => (t.children other x hx hmarked).imp ?_ (fun h => h)⟩
  intro hmem
  rw [hgray, List.append_nil] at hmem
  rcases List.mem_cons.mp hmem with rfl | hrest
  · exact List.mem_append_right _ (List.mem_singleton.mpr rfl)
  · exact List.mem_append_left _ hrest

/-- A marking that comes to its end has nothing left to trace. -/
theorem drain_traced (rounds : Nat) (stocked : w.heap.registry.Stocked)
    (marking : w.heap.collector.phase = .marking) (t : w.heap.Traced []) :
    let e := (drain (.ofDepth n) rounds).exec w
    e.2.heap.unmarked = w.heap.unmarked ∧
      (e.1 = .ok () → e.2.heap.Traced [] ∧ e.2.heap.collector.gray = []) := by
  -- when nothing is gray, nothing is left to do
  have finished : ∀ {w : World} (rounds : Nat), w.heap.Traced [] → w.heap.collector.gray = [] →
      let e := (drain (.ofDepth n) rounds).exec w
      e.2.heap.unmarked = w.heap.unmarked ∧
        (e.1 = .ok () → e.2.heap.Traced [] ∧ e.2.heap.collector.gray = []) := by
    intro w rounds t hgray e
    obtain ⟨w', hexec, hheap, _⟩ := yields_drain_of_gray_eq_nil (.ofDepth n) rounds hgray
    rw [show e = _ from hexec, hheap]
    exact ⟨rfl, fun _ => ⟨t, hgray⟩⟩
  induction rounds generalizing w with
  | zero =>
    cases hgray : w.heap.collector.gray with
    | nil => exact finished 0 t hgray
    | cons id rest =>
      unfold drain
      rw [(bind_of_ok (exec_act .nextGray w) _).1]
      simp only [Action.apply, Heap.nextGray, hgray]
      exact ⟨rfl, fun done => by cases done⟩
  | succ rounds ih =>
    cases hgray : w.heap.collector.gray with
    | nil => exact finished (rounds + 1) t hgray
    | cons id rest =>
      unfold drain
      rw [(bind_of_ok (exec_act .nextGray w) _).1]
      simp only [Action.apply, Heap.nextGray, hgray]
      obtain ⟨same, marking', traced⟩ :=
        traceInstance_traced (n := n) (w := { w with heap := { w.heap with
          collector := { w.heap.collector with gray := rest } } })
          stocked marking (t.nextGray hgray)
      rcases htrace : (traceInstance (.ofDepth n) id).exec { w with heap := { w.heap with
          collector := { w.heap.collector with gray := rest } } } with ⟨why | _, w₂⟩
      · rw [(bind_of_error htrace _).1]
        rw [htrace] at same
        exact ⟨same, fun done => by cases done⟩
      · rw [(bind_of_ok htrace _).1]
        rw [htrace] at same marking' traced
        obtain ⟨same', ended⟩ := ih (Heap.registry_of_unmarked_eq same ▸ stocked) marking' traced
        exact ⟨same'.trans same, ended⟩

end

/-! ## Sweeping -/

/-- From `h` to `h'` some instances may have gone, and others have lost or got a mark.  Where an
instance is left, so is what its header holds. -/
structure Heap.Sifts (h h' : Heap) : Prop where
  registry : h'.registry = h.registry
  came : ∀ id x', h'.pool.get? id = some x' → ∃ x, h.pool.get? id = some x ∧ x'.unmark = x.unmark
  holds : ∀ id x', h'.pool.get? id = some x' → ∀ child y, .ref child ∈ x'.children →
    h.pool.get? child = some y → ∃ y', h'.pool.get? child = some y'

theorem Heap.Sifts.of_unmarked_eq {h h' : Heap} (same : h'.unmarked = h.unmarked) : h.Sifts h' where
  registry := registry_of_unmarked_eq same
  came _ _ hx := exists_of_unmarked_eq same hx
  holds _ _ _ child y _ hy := (exists_get?_iff_of_unmarked_eq same child).mpr ⟨y, hy⟩

/-- The sweep after a marking that came to its end takes nothing that the header of an instance left
holds: both are marked. -/
theorem Heap.Traced.sifts {h h₁ h' : Heap} (t : h₁.Traced []) (hgray : h₁.collector.gray = [])
    (same : h₁.unmarked = h.unmarked) (registry : h'.registry = h₁.registry)
    (hget : ∀ id, h'.pool.get? id = if id.index ∈ h₁.slotsOf (fun x => !x.pinned) then none
      else (h₁.pool.get? id).map Instance.unmark) : h.Sifts h' := by
  have left : ∀ {id x'}, h'.pool.get? id = some x' → ∃ x, h₁.pool.get? id = some x ∧
      x' = x.unmark ∧ x.pinned = true := by
    intro id x' hx'
    rw [hget] at hx'
    split at hx'
    · cases hx'
    · next hslot =>
      obtain ⟨x, hx, rfl⟩ := Option.map_eq_some_iff.mp hx'
      refine ⟨x, hx, rfl, by_contra fun hpin => hslot ?_⟩
      refine List.mem_map.mpr ⟨id, Pool.mem_namesOf.mpr ⟨x, hx, ?_⟩, rfl⟩
      simpa using hpin
  have stays : ∀ {id x}, h₁.pool.get? id = some x → x.pinned = true →
      ∃ x', h'.pool.get? id = some x' := by
    intro id x hx hpin
    have hslot : id.index ∉ h₁.slotsOf (fun x => !x.pinned) := by
      intro hmem
      obtain ⟨other, hother, hindex⟩ := List.mem_map.mp hmem
      obtain ⟨y, hy, hfree⟩ := Pool.mem_namesOf.mp hother
      cases Pool.eq_of_index_eq hy hx hindex
      cases hx.symm.trans hy
      simp [hpin] at hfree
    rw [hget, if_neg hslot, hx]
    exact ⟨_, rfl⟩
  refine ⟨registry.trans (registry_of_unmarked_eq same), fun id x' hx' => ?_,
    fun id x' hx' child y hchild hy => ?_⟩
  · obtain ⟨x, hx, rfl, _⟩ := left hx'
    obtain ⟨x₀, hx₀, heq⟩ := exists_of_unmarked_eq same hx
    exact ⟨x₀, hx₀, heq⟩
  · obtain ⟨x, hx, rfl, hpin⟩ := left hx'
    obtain ⟨z, hz⟩ := (exists_get?_iff_of_unmarked_eq same child).mpr ⟨y, hy⟩
    rcases t.children id x hx (t.pinned id x hx hpin) with hmem | hall
    · rw [hgray] at hmem
      cases hmem
    · refine stays hz ?_
      unfold Instance.pinned
      rw [hall child z hchild hz]
      rfl

section
variable {w : World} (n : Nat)

theorem Registry.Stocked.frees (stocked : w.heap.registry.Stocked) :
    (Runner.ofDepth n).Frees w := by
  intro w' d c p _ hregistry _ hc
  rw [hregistry, stocked.free d] at hc
  cases hc

theorem collectNow_sifts (stocked : w.heap.registry.Stocked) :
    w.heap.Sifts ((collectNow (.ofDepth n)).exec w).2.heap := by
  obtain ⟨w₁, hexec₁, hheap₁, _⟩ := yields_act (x := .startMarking) (w := w) rfl
  have same₁ : w₁.heap.unmarked = w.heap.unmarked := by
    rw [hheap₁]
    exact (w.heap.coloured_startMarking containerParts).1.same
  have stocked₁ : w₁.heap.registry.Stocked := by
    rw [Heap.registry_of_unmarked_eq same₁]
    exact stocked
  have marking₁ : w₁.heap.collector.phase = .marking := by
    rw [hheap₁]
    rfl
  have traced₁ : w₁.heap.Traced [] := by
    rw [hheap₁]
    exact w.heap.traced_startMarking
  obtain ⟨same₂, ended⟩ :=
    drain_traced (n := n) (Runner.ofDepth n).rounds stocked₁ marking₁ traced₁
  unfold collectNow
  rw [(bind_of_ok hexec₁ _).1]
  rcases hdrain : (drain (.ofDepth n) (Runner.ofDepth n).rounds).exec w₁ with ⟨why | _, w₂⟩
  · -- nothing is released
    rw [(bind_of_error hdrain _).1]
    rw [hdrain] at same₂
    exact .of_unmarked_eq (same₂.trans same₁)
  · rw [hdrain] at same₂ ended
    obtain ⟨traced₂, hgray⟩ := ended rfl
    obtain ⟨w₃, hexec₃, hheap₃, _⟩ := yields_act (x := .startSweep) (w := w₂) rfl
    have stocked₃ : w₃.heap.registry.Stocked := by
      rw [hheap₃]
      show w₂.heap.registry.Stocked
      rw [Heap.registry_of_unmarked_eq same₂]
      exact stocked₁
    obtain ⟨pool, ⟨w₄, hexec₄, hheap₄, _⟩, hget⟩ :=
      (stocked₃.frees n).releaseAll (w₂.heap.slotsOf fun x => !x.pinned) rfl rfl
        (by rw [hheap₃])
    rw [(bind_of_ok hdrain _).1, (bind_of_ok hexec₃ _).1]
    erw [(bind_of_ok hexec₄ _).1]
    refine traced₂.sifts hgray (same₂.trans same₁) ?_ fun id => ?_
    · show w₄.heap.registry = _
      rw [hheap₄, hheap₃]
    · show w₄.heap.pool.get? id = _
      rw [hheap₄]
      show pool.get? id = _
      rw [hget, hheap₃]
      congr 1
      exact Pool.get?_modifyAll _ _ id

/-- A collection of containers, cut short or not, takes nothing that an instance left holds in its
header. -/
theorem collect_sifts (stocked : w.heap.registry.Stocked) :
    w.heap.Sifts ((collect (.ofDepth n)).exec w).2.heap := by
  by_cases ready : w.heap.refusal? = none
  · rw [(collect_ready _ ready).2.2]
    obtain ⟨registry, came, holds⟩ := collectNow_sifts n stocked
    exact ⟨registry, came, holds⟩
  · rw [(collect_refused _ ready).1]
    exact .of_unmarked_eq rfl

/-- A teardown of containers leaves no instance, or all of them. -/
theorem teardown_sifts (stocked : w.heap.registry.Stocked) :
    w.heap.Sifts ((teardown (.ofDepth n)).exec w).2.heap := by
  by_cases ready : w.heap.refusal? = none
  · rw [(teardown_ready _ ready).2.2]
    obtain ⟨w₁, hexec₁, hheap₁, _⟩ := yields_act (x := .startTeardown) (w := w) rfl
    have registry₁ : w₁.heap.registry = w.heap.registry := by
      rw [hheap₁]
      rfl
    obtain ⟨pool, ⟨w₂, hexec₂, hheap₂, _⟩, hget⟩ :=
      ((registry₁ ▸ stocked : w₁.heap.registry.Stocked).frees n).releaseAll
        (w.heap.slotsOf fun _ => true) rfl rfl (by rw [hheap₁]; rfl)
    have gone : ∀ id, (((teardownNow (.ofDepth n)).exec w).2.heap.setPhase .idle).pool.get? id =
        none := by
      intro id
      unfold teardownNow
      rw [(bind_of_ok hexec₁ _).1]
      erw [(bind_of_ok hexec₂ _).1]
      show w₂.heap.pool.get? id = none
      rw [hheap₂]
      show pool.get? id = none
      rw [hget, hheap₁]
      show (if _ then none else w.heap.pool.get? id) = none
      split
      · rfl
      · next hslot =>
        refine Option.eq_none_iff_forall_ne_some.mpr fun x hx => hslot ?_
        exact List.mem_map.mpr ⟨id, Pool.mem_namesOf.mpr ⟨x, hx, rfl⟩, rfl⟩
    refine ⟨?_, fun id x' hx' => ?_, fun id x' hx' => ?_⟩
    · unfold teardownNow
      rw [(bind_of_ok hexec₁ _).1]
      erw [(bind_of_ok hexec₂ _).1]
      show w₂.heap.registry = _
      rw [hheap₂]
      exact registry₁
    · rw [gone] at hx'
      cases hx'
    · rw [gone] at hx'
      cases hx'
  · rw [(teardown_refused _ ready).1]
    exact .of_unmarked_eq rfl

end

end TracedHeap
