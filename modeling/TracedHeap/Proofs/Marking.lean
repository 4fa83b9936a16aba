import Mathlib.Data.List.Nodup
import Mathlib.Data.List.Perm.Subperm
import TracedHeap.Proofs.Slots

/-!
# Marking

What marking does to a heap, and which instances a marking that is complete has found.

* `Heap.unmarked`      the heap without what a marking leaves in it.  Two heaps that are equal
                       without it differ in marks, the gray list and the phase at most;
* `Heap.Reachable`     the instances a collection has to keep, as the least set with the roots and
                       the pinned instances that is closed under what instances hold;
* `Heap.Gathered`      the invariant of a marking: what is marked is black or gray, each once;
* `Heap.Coloured`      all of it is reachable, and it includes the roots and what is pinned;
* `Heap.Closed`        what black instances hold is marked;
* `Heap.Coloured.isMarked_iff`
                       when nothing is gray, the marked instances are the reachable ones.
-/

namespace TracedHeap

def Instance.unmark (x : Instance) : Instance := { x with marked := false }

theorem Instance.eq_of_unmark_eq {x y : Instance} (h : x.unmark = y.unmark) :
    x.descriptor = y.descriptor ∧ x.payload = y.payload ∧ x.children = y.children := by
  have hd : x.unmark.descriptor = y.unmark.descriptor := congrArg _ h
  have hp : x.unmark.payload = y.unmark.payload := congrArg _ h
  have hc : x.unmark.children = y.unmark.children := congrArg _ h
  exact ⟨hd, hp, hc⟩

namespace Pool

theorem get?_modify (p : Pool) (id other : InstanceId) (f : Instance → Instance) :
    (p.modify id f).get? other = if other = id then (p.get? other).map f else p.get? other := by
  split
  · next h =>
    subst h
    exact p.get?_modify_self other f
  · next h => exact p.get?_modify_of_ne f h

theorem get?_modifyAll (p : Pool) (f : Instance → Instance) (id : InstanceId) :
    (p.modifyAll f).get? id = (p.get? id).map f := by
  unfold get? modifyAll
  rw [Array.getElem?_map]
  cases p.slots[id.index]? with
  | none => rfl
  | some s =>
    simp only [Option.map_some, Slot.generation_update, Slot.occupant_update]
    split <;> rfl

theorem mem_namesOf {p : Pool} {f : Instance → Bool} {id : InstanceId} :
    id ∈ p.namesOf f ↔ ∃ x, p.get? id = some x ∧ f x = true := by
  simp only [namesOf, List.mem_map, List.mem_filter, Prod.exists, exists_and_right, exists_eq_right,
    mem_instances]

theorem eq_of_index_eq {p : Pool} {id other : InstanceId} {x y : Instance}
    (hx : p.get? id = some x) (hy : p.get? other = some y) (h : id.index = other.index) :
    id = other := by
  obtain ⟨s, hs, hg, _⟩ := get?_eq_some_iff.mp hx
  obtain ⟨t, ht, hg', _⟩ := get?_eq_some_iff.mp hy
  rw [h, ht] at hs
  cases hs
  exact InstanceId.ext h (hg.symm.trans hg')

theorem nodup_index_namesOf (p : Pool) (f : Instance → Bool) :
    ((p.namesOf f).map InstanceId.index).Nodup := by
  rw [namesOf, List.map_map]
  exact p.nodup_instances.sublist (List.filter_sublist.map _)

theorem nodup_namesOf (p : Pool) (f : Instance → Bool) : (p.namesOf f).Nodup :=
  List.Nodup.of_map _ (p.nodup_index_namesOf f)

theorem length_namesOf_true (p : Pool) :
    (p.namesOf fun _ => true).length = p.instances.length := by
  rw [namesOf, List.length_map, List.filter_true]

theorem length_le_instances {p : Pool} {ids : List InstanceId} (nodup : ids.Nodup)
    (live : ∀ id ∈ ids, ∃ x, p.get? id = some x) : ids.length ≤ p.instances.length := by
  have hnames : (p.instances.map Prod.fst).length = p.instances.length := List.length_map _
  rw [← hnames]
  refine (List.subperm_of_subset nodup fun id hid => ?_).length_le
  obtain ⟨x, hx⟩ := live id hid
  exact List.mem_map.mpr ⟨(id, x), mem_instances.mpr hx, rfl⟩

/-- The pool without marks. -/
def unmarked (p : Pool) : Pool := p.modifyAll Instance.unmark

theorem unmarked_modifyAll (p : Pool) {f : Instance → Instance}
    (hf : ∀ x, (f x).unmark = x.unmark) : (p.modifyAll f).unmarked = p.unmarked := by
  unfold unmarked modifyAll
  simp only [Array.map_map]
  congr 2
  funext s
  rw [Function.comp_apply, Slot.update_update]
  congr 1
  funext x
  exact hf x

theorem unmarked_modify (p : Pool) (id : InstanceId) {f : Instance → Instance}
    (hf : ∀ x, (f x).unmark = x.unmark) : (p.modify id f).unmarked = p.unmarked := by
  unfold modify
  split
  · unfold unmarked modifyAll
    simp only
    congr 1
    refine Array.ext_getElem? fun i => ?_
    rw [Array.getElem?_map, Array.getElem?_map, Array.getElem?_modify]
    split
    · cases p.slots[i]? with
      | none => rfl
      | some s =>
        rw [Option.map_some, Option.map_some, Option.map_some, Slot.update_update]
        congr 2
        funext x
        exact hf x
    · rfl
  · rfl

end Pool

namespace Heap

/-- The heap without what a marking leaves in it. -/
def unmarked (h : Heap) : Heap :=
  { h with
    pool := h.pool.unmarked
    collector := { h.collector with phase := .idle, gray := [] } }

theorem eq_of_unmarked_eq {h h' : Heap} (same : h'.unmarked = h.unmarked) :
    h'.config = h.config ∧ h'.registry = h.registry ∧ h'.frames = h.frames ∧
      h'.stack = h.stack ∧ h'.borrows = h.borrows := by
  have hconfig : h'.unmarked.config = h.unmarked.config := congrArg _ same
  have hregistry : h'.unmarked.registry = h.unmarked.registry := congrArg _ same
  have hframes : h'.unmarked.frames = h.unmarked.frames := congrArg _ same
  have hstack : h'.unmarked.stack = h.unmarked.stack := congrArg _ same
  have hborrows : h'.unmarked.borrows = h.unmarked.borrows := congrArg _ same
  exact ⟨hconfig, hregistry, hframes, hstack, hborrows⟩

theorem registry_of_unmarked_eq {h h' : Heap} (same : h'.unmarked = h.unmarked) :
    h'.registry = h.registry := (eq_of_unmarked_eq same).2.1

theorem get?_of_unmarked_eq {h h' : Heap} (same : h'.unmarked = h.unmarked) (id : InstanceId) :
    (h'.pool.get? id).map Instance.unmark = (h.pool.get? id).map Instance.unmark := by
  have hpool : h'.pool.unmarked = h.pool.unmarked := congrArg Heap.pool same
  rw [← Pool.get?_modifyAll, ← Pool.get?_modifyAll]
  exact congrArg (fun p : Pool => p.get? id) hpool

theorem exists_get?_iff_of_unmarked_eq {h h' : Heap} (same : h'.unmarked = h.unmarked)
    (id : InstanceId) : (∃ x, h'.pool.get? id = some x) ↔ ∃ x, h.pool.get? id = some x := by
  have := get?_of_unmarked_eq same id
  rw [← Option.isSome_iff_exists, ← Option.isSome_iff_exists,
    ← Option.isSome_map (f := Instance.unmark), this, Option.isSome_map]

theorem exists_of_unmarked_eq {h h' : Heap} (same : h'.unmarked = h.unmarked) {id : InstanceId}
    {x : Instance} (hx : h'.pool.get? id = some x) :
    ∃ x₀, h.pool.get? id = some x₀ ∧ x.unmark = x₀.unmark := by
  have hmap := get?_of_unmarked_eq same id
  rw [hx] at hmap
  obtain ⟨x₀, hx₀, heq⟩ := Option.map_eq_some_iff.mp hmap.symm
  exact ⟨x₀, hx₀, heq.symm⟩

theorem unmarked_modify (h : Heap) (v : Value) {f : Instance → Instance}
    (hf : ∀ x, (f x).unmark = x.unmark) : (h.modify v f).unmarked = h.unmarked := by
  cases v with
  | ref id =>
    unfold modify unmarked
    simp only [h.pool.unmarked_modify id hf]
  | _ => rfl

theorem unmarked_mark (h : Heap) (v : Value) : (h.mark v).unmarked = h.unmarked := by
  have hmodify := h.unmarked_modify v (f := fun x => { x with marked := true }) fun _ => rfl
  unfold mark
  split
  · split
    · rfl
    · simp only
      split <;> exact hmodify
  · rfl

theorem phase_mark (h : Heap) (v : Value) :
    (h.mark v).collector.phase = h.collector.phase := by
  unfold mark modify
  split
  · split
    · rfl
    · simp only
      split <;> rfl
  · rfl

theorem unmarked_markAll (h : Heap) (vs : List Value) : (h.markAll vs).unmarked = h.unmarked := by
  induction vs generalizing h with
  | nil => rfl
  | cons v vs ih => exact (ih (h.mark v)).trans (h.unmarked_mark v)

theorem phase_markAll (h : Heap) (vs : List Value) :
    (h.markAll vs).collector.phase = h.collector.phase := by
  induction vs generalizing h with
  | nil => rfl
  | cons v vs ih => exact (ih (h.mark v)).trans (h.phase_mark v)

/-! ## Reachable instances -/

/-- What an instance holds on to: the values in its header, and the `parts` that the mark callback
of its type finds in its payload. -/
def held (h : Heap) (parts : Callback .mark → Payload → List Value) (x : Instance) : List Value :=
  x.children ++
    match h.registry.callback? x.descriptor .mark with
    | some c => parts c x.payload
    | none => []

/-- A collection starts from the instances on the stack and in the frames, and from those that are
pinned. -/
def IsRoot (h : Heap) (id : InstanceId) : Prop :=
  ∃ x, h.pool.get? id = some x ∧ (.ref id ∈ h.roots ∨ x.pinned = true)

inductive Reachable (h : Heap) (parts : Callback .mark → Payload → List Value) :
    InstanceId → Prop where
  | root {id : InstanceId} : h.IsRoot id → Reachable h parts id
  | held {id child : InstanceId} {x y : Instance} : Reachable h parts id →
      h.pool.get? id = some x → .ref child ∈ h.held parts x → h.pool.get? child = some y →
      Reachable h parts child

theorem Reachable.live {h : Heap} {parts : Callback .mark → Payload → List Value}
    {id : InstanceId} (hid : h.Reachable parts id) : ∃ x, h.pool.get? id = some x := by
  cases hid with
  | root hroot =>
    obtain ⟨x, hx, _⟩ := hroot
    exact ⟨x, hx⟩
  | held _ _ _ hy => exact ⟨_, hy⟩

/-! ## The invariant of a marking -/

/-- During a marking what is marked is black or gray, each once. -/
structure Gathered (black : List InstanceId) (h : Heap) : Prop where
  marking : h.collector.phase = .marking
  nodup : (black ++ h.collector.gray).Nodup
  marked_iff : ∀ id, h.isMarked (.ref id) = true ↔ id ∈ black ++ h.collector.gray

/-- During a marking that began in `h₀` all that is black or gray is reachable, and the roots are
part of it. -/
structure Coloured (h₀ : Heap) (parts : Callback .mark → Payload → List Value)
    (black : List InstanceId) (h : Heap) : Prop extends h.Gathered black where
  same : h.unmarked = h₀.unmarked
  reachable : ∀ id ∈ black ++ h.collector.gray, h₀.Reachable parts id
  roots : ∀ id, h₀.IsRoot id → id ∈ black ++ h.collector.gray

/-- What the black instances hold is marked. -/
def Closed (h₀ : Heap) (parts : Callback .mark → Payload → List Value) (black : List InstanceId)
    (h : Heap) : Prop :=
  ∀ id ∈ black, ∀ x, h₀.pool.get? id = some x → ∀ child y, .ref child ∈ h₀.held parts x →
    h₀.pool.get? child = some y → h.isMarked (.ref child) = true

section
variable {h₀ h : Heap} {parts : Callback .mark → Payload → List Value} {black : List InstanceId}

theorem mark_of_marking (hm : h.collector.phase = .marking) (v : Value) :
    (h.mark v = h ∧ ∀ id x, v = .ref id → h.pool.get? id = some x →
      h.isMarked (.ref id) = true) ∨
    ∃ id x, v = .ref id ∧ h.pool.get? id = some x ∧ h.isMarked (.ref id) = false ∧
      h.mark v =
        { h with
          pool := h.pool.modify id fun x => { x with marked := true }
          collector := { h.collector with gray := id :: h.collector.gray } } := by
  cases v with
  | ref id =>
    have hfind : h.find? (.ref id) = h.pool.get? id := rfl
    cases hx : h.pool.get? id with
    | none =>
      left
      refine ⟨by simp [mark, hfind, hx], fun id' x heq hx' => ?_⟩
      cases heq
      rw [hx] at hx'
      cases hx'
    | some x =>
      have hmk : h.isMarked (.ref id) = x.marked := by simp [isMarked, hfind, hx]
      cases hxm : x.marked with
      | true =>
        left
        refine ⟨by simp [mark, hfind, hx, hxm], fun id' x' heq hx' => ?_⟩
        cases heq
        rw [hmk, hxm]
      | false =>
        right
        refine ⟨id, x, rfl, hx, hmk.trans hxm, ?_⟩
        simp [mark, hfind, hx, hxm, modify, hm]
  | _ =>
    left
    exact ⟨rfl, fun id x heq => by cases heq⟩

theorem isMarked_modify {id : InstanceId} {x : Instance} (hx : h.pool.get? id = some x)
    (c : Collector) (other : InstanceId) :
    { h with
      pool := h.pool.modify id fun x => { x with marked := true }
      collector := c }.isMarked (.ref other) = true ↔
      other = id ∨ h.isMarked (.ref other) = true := by
  show ((h.pool.modify id _).get? other).any (fun x => x.marked) = true ↔ _
  rw [Pool.get?_modify]
  by_cases ho : other = id
  · rw [if_pos ho, ho, hx]
    simp
  · rw [if_neg ho]
    simp only [ho, false_or]
    exact Iff.rfl

/-- What is marked becomes gray if it was not marked before. -/
theorem Gathered.mark (g : h.Gathered black) (v : Value) :
    (h.mark v).Gathered black ∧ ∀ id, (h.mark v).isMarked (.ref id) = true ↔
      h.isMarked (.ref id) = true ∨ v = .ref id ∧ ∃ x, h.pool.get? id = some x := by
  rcases mark_of_marking g.marking v with ⟨heq, hall⟩ | ⟨id, x, rfl, hx, hun, heq⟩
  · rw [heq]
    exact ⟨g, fun id => ⟨Or.inl, fun hid => hid.elim (fun hid => hid) fun ⟨hv, x, hx⟩ =>
      hall id x hv hx⟩⟩
  · have hnew : id ∉ black ++ h.collector.gray := by
      rw [← g.marked_iff, hun]
      exact Bool.false_ne_true
    -- exactly one instance more is marked, and it goes to the gray ones
    have hmarked : ∀ other, (h.mark (.ref id)).isMarked (.ref other) = true ↔
        other = id ∨ h.isMarked (.ref other) = true := by
      intro other
      rw [heq]
      exact isMarked_modify hx _ other
    refine ⟨⟨(h.phase_mark _).trans g.marking, ?_, fun other => ?_⟩, fun other => ?_⟩
    · rw [heq]
      exact List.nodup_middle.mpr (List.nodup_cons.mpr ⟨hnew, g.nodup⟩)
    · rw [hmarked, g.marked_iff, heq]
      show _ ↔ other ∈ black ++ (id :: h.collector.gray)
      simp only [List.mem_append, List.mem_cons]
      tauto
    · rw [hmarked]
      constructor
      · rintro (rfl | ho)
        · exact Or.inr ⟨rfl, x, hx⟩
        · exact Or.inl ho
      · rintro (ho | ⟨hid, _⟩)
        · exact Or.inr ho
        · cases hid
          exact Or.inl rfl

theorem Gathered.pop {id : InstanceId} {rest : List InstanceId} (g : h.Gathered black)
    (hgray : h.collector.gray = id :: rest) :
    { h with collector := { h.collector with gray := rest } }.Gathered (id :: black) := by
  have hperm : (black ++ id :: rest).Perm (id :: black ++ rest) := List.perm_middle
  refine ⟨g.marking, ?_, fun other => (g.marked_iff other).trans ?_⟩
  · have hnodup := g.nodup
    rw [hgray] at hnodup
    exact hperm.nodup_iff.mp hnodup
  · rw [hgray]
    exact hperm.mem_iff

/-- Marking keeps the invariant, as long as only reachable instances are marked. -/
theorem Coloured.mark (c : h₀.Coloured parts black h) (v : Value)
    (hv : ∀ id x, v = .ref id → h₀.pool.get? id = some x → h₀.Reachable parts id) :
    h₀.Coloured parts black (h.mark v) ∧
      (∀ id, h.isMarked (.ref id) = true → (h.mark v).isMarked (.ref id) = true) ∧
      ∀ id x, v = .ref id → h₀.pool.get? id = some x → (h.mark v).isMarked (.ref id) = true := by
  have hlive := fun id => exists_get?_iff_of_unmarked_eq c.same id
  obtain ⟨g, hmarked⟩ := c.toGathered.mark v
  have grow : ∀ id, h.isMarked (.ref id) = true → (h.mark v).isMarked (.ref id) = true :=
    fun id hid => (hmarked id).mpr (Or.inl hid)
  refine ⟨⟨g, (h.unmarked_mark v).trans c.same, fun id hid => ?_, fun id hid => ?_⟩, grow,
    fun id x hid hx => (hmarked id).mpr (Or.inr ⟨hid, (hlive id).mpr ⟨x, hx⟩⟩)⟩
  · rcases (hmarked id).mp ((g.marked_iff id).mpr hid) with hid | ⟨hid, live⟩
    · exact c.reachable id ((c.marked_iff id).mp hid)
    · obtain ⟨x, hx⟩ := (hlive id).mp live
      exact hv id x hid hx
  · exact (g.marked_iff id).mp (grow id ((c.marked_iff id).mpr (c.roots id hid)))

theorem Coloured.markAll (c : h₀.Coloured parts black h) (vs : List Value)
    (hvs : ∀ id x, .ref id ∈ vs → h₀.pool.get? id = some x → h₀.Reachable parts id) :
    h₀.Coloured parts black (h.markAll vs) ∧
      (∀ id, h.isMarked (.ref id) = true → (h.markAll vs).isMarked (.ref id) = true) ∧
      ∀ id x, .ref id ∈ vs → h₀.pool.get? id = some x →
        (h.markAll vs).isMarked (.ref id) = true := by
  induction vs generalizing h with
  | nil => exact ⟨c, fun _ h => h, fun id x hid => by cases hid⟩
  | cons v vs ih =>
    obtain ⟨c₁, grow₁, found₁⟩ := c.mark v fun id x hid =>
      hvs id x (List.mem_cons.mpr (Or.inl hid.symm))
    obtain ⟨c₂, grow₂, found₂⟩ := ih c₁ fun id x hid => hvs id x (List.mem_cons_of_mem v hid)
    refine ⟨c₂, fun id hid => grow₂ id (grow₁ id hid), fun id x hid hx => ?_⟩
    rcases List.mem_cons.mp hid with hid | hid
    · exact grow₂ id (found₁ id x hid.symm hx)
    · exact found₂ id x hid hx

/-- Tracing the first gray instance: it is black once what it holds is marked. -/
theorem Coloured.trace {id : InstanceId} {rest : List InstanceId} {x : Instance}
    (c : h₀.Coloured parts black h) (closed : h₀.Closed parts black h)
    (hgray : h.collector.gray = id :: rest) (hx : h₀.pool.get? id = some x) :
    let h' := { h with collector := { h.collector with gray := rest } }.markAll (h₀.held parts x)
    h₀.Coloured parts (id :: black) h' ∧ h₀.Closed parts (id :: black) h' := by
  intro h'
  have g := c.toGathered.pop hgray
  have hmem : ∀ other, other ∈ black ++ h.collector.gray ↔ other ∈ id :: black ++ rest :=
    fun other => (c.marked_iff other).symm.trans (g.marked_iff other)
  have hreach : h₀.Reachable parts id := c.reachable id ((hmem id).mpr List.mem_cons_self)
  have c₁ : h₀.Coloured parts (id :: black)
      { h with collector := { h.collector with gray := rest } } :=
    ⟨g, c.same, fun other ho => c.reachable other ((hmem other).mpr ho),
      fun other ho => (hmem other).mp (c.roots other ho)⟩
  obtain ⟨c₂, grow, found⟩ := c₁.markAll (h₀.held parts x) fun child y hchild hy =>
    hreach.held hx hchild hy
  refine ⟨c₂, fun parent hparent y hy child z hchild hz => ?_⟩
  rcases List.mem_cons.mp hparent with rfl | hparent
  · cases hx.symm.trans hy
    exact found child z hchild hz
  · exact grow child (closed parent hparent y hy child z hchild hz)

/-- When nothing is gray any more, the marked instances are the reachable ones. -/
theorem Coloured.isMarked_iff (c : h₀.Coloured parts black h) (closed : h₀.Closed parts black h)
    (hgray : h.collector.gray = []) (id : InstanceId) :
    h.isMarked (.ref id) = true ↔ h₀.Reachable parts id := by
  have hblack : ∀ other, h.isMarked (.ref other) = true ↔ other ∈ black := by
    intro other
    rw [c.marked_iff, hgray, List.append_nil]
  constructor
  · intro hid
    exact c.reachable id ((c.marked_iff id).mp hid)
  · intro hid
    induction hid with
    | root hroot => exact (c.marked_iff _).mpr (c.roots _ hroot)
    | held _ hx hchild hy ih => exact closed _ ((hblack _).mp ih) _ hx _ _ hchild hy

end

/-! ## The start of a marking -/

theorem markRoots_spec (h : Heap) :
    h.markRoots.unmarked = h.unmarked ∧ h.markRoots.collector = h.collector ∧
      ∀ id, h.markRoots.pool.get? id = (h.pool.get? id).map fun x =>
        if .ref id ∈ h.roots then { x with marked := true } else x := by
  unfold markRoots
  generalize h.roots = vs
  induction vs generalizing h with
  | nil => exact ⟨rfl, rfl, fun id => by simp⟩
  | cons v vs ih =>
    obtain ⟨hun, hcol, hget⟩ := ih (h.modify v fun x => { x with marked := true })
    refine ⟨hun.trans (h.unmarked_modify v fun _ => rfl), hcol.trans ?_, fun id => ?_⟩
    · cases v <;> rfl
    · rw [List.foldl_cons, hget]
      cases v with
      | ref other =>
        show ((h.pool.modify other _).get? id).map _ = _
        rw [Pool.get?_modify]
        by_cases ho : id = other
        · subst ho
          rw [if_pos rfl, Option.map_map]
          congr 1
          funext x
          simp
        · rw [if_neg ho]
          simp [ho]
      | _ =>
        show (h.pool.get? id).map _ = _
        simp

theorem gathered_startMarking (h : Heap) : h.startMarking.Gathered [] := by
  refine ⟨rfl, List.nodup_reverse.mpr (Pool.nodup_namesOf _ _), fun id => ?_⟩
  show ((h.markRoots.pool.modifyAll _).get? id).any (fun x => x.marked) = true ↔
    id ∈ (h.markRoots.pool.namesOf Instance.pinned).reverse
  rw [List.mem_reverse, Pool.mem_namesOf, Pool.get?_modifyAll]
  cases h.markRoots.pool.get? id <;> simp

/-- At the start of a marking the roots are gray, and nothing is black. -/
theorem coloured_startMarking (h : Heap) (parts : Callback .mark → Payload → List Value) :
    h.Coloured parts [] h.startMarking ∧ h.Closed parts [] h.startMarking := by
  obtain ⟨hun, hcol, hget⟩ := h.markRoots_spec
  have hgray : h.startMarking.collector.gray = (h.markRoots.pool.namesOf Instance.pinned).reverse :=
    rfl
  have hroot : ∀ id, id ∈ h.startMarking.collector.gray ↔ h.IsRoot id := by
    intro id
    rw [hgray, List.mem_reverse, Pool.mem_namesOf, hget]
    constructor
    · rintro ⟨y, hy, hpin⟩
      obtain ⟨x, hx, rfl⟩ := Option.map_eq_some_iff.mp hy
      refine ⟨x, hx, ?_⟩
      split at hpin
      · next hr => exact Or.inl hr
      · exact Or.inr hpin
    · rintro ⟨x, hx, hpin⟩
      refine ⟨_, Option.map_eq_some_iff.mpr ⟨x, hx, rfl⟩, ?_⟩
      split
      · rfl
      · next hr => exact hpin.resolve_left hr
  refine ⟨⟨h.gathered_startMarking, ?_, fun id hid => .root ((hroot id).mp hid),
    fun id hid => (hroot id).mpr hid⟩, fun id hid => by cases hid⟩
  have hpool := h.markRoots.pool.unmarked_modifyAll (f := fun x => { x with marked := x.pinned })
    fun _ => rfl
  rw [← hun]
  unfold startMarking unmarked
  simp only
  rw [hpool]

end Heap

end TracedHeap
