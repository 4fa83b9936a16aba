import TracedHeap.Proofs.Collection
import TracedHeap.Proofs.Sweep

/-!
# Every release happens once

* `releasedFrom`          the instances that transitions release from a slot;
* `Path.releasedFrom_once`
                          until the next instance comes into its slot, an instance is released at
                          most once, and nothing else from its slot;
* `Sweep.Leads.calls`     the free callback that a release calls for starts next, and no other does;
* `Heap.Swept`            which instances a sweep has released;
* `Session.released_once_in_order`
                          all of this in every session.
-/

namespace TracedHeap

open Run

namespace Pool

/-- The names of instances come in the order of their slots. -/
theorem pairwise_index_namesOf (p : Pool) (f : Instance → Bool) :
    ((p.namesOf f).map InstanceId.index).Pairwise (· < ·) := by
  rw [namesOf, List.map_map]
  exact p.pairwise_instances.sublist (List.filter_sublist.map _)

/-- A free slot stays free until an instance comes into it. -/
theorem Step.occupant?_eq_none {increment i : Nat} {known : Descriptor → Prop}
    {placed released : Option InstanceId} {p q : Pool}
    (t : Step increment known placed released p q) (hfree : p.occupant? i = none)
    (elsewhere : ∀ id ∈ placed, id.index ≠ i) : q.occupant? i = none := by
  cases t with
  | edit e => exact (e.occupant?_eq_none i).mpr hfree
  | recycle _ threshold => exact hfree
  | @place _ _ d c _ e =>
    rw [e.occupant?_eq_none]
    unfold occupant?
    rw [p.getElem?_place_of_ne increment d c (elsewhere _ rfl).symm]
    exact hfree
  | @evict _ _ id x hx he =>
    by_cases hi : i = id.index
    · rw [hi, occupant?_of_get? hx] at hfree
      cases hfree
    · unfold occupant?
      rw [getElem?_evict_of_ne he hi]
      exact hfree

end Pool

/-! ## At most once -/

/-- The instances that transitions release from a slot, in order. -/
def releasedFrom (ts : List Transition) (i : Nat) : List InstanceId :=
  (ts.filterMap Transition.released?).filter fun id => id.index == i

theorem releasedFrom_cons_of_ne {t : Transition} {i : Nat} (ts : List Transition)
    (h : ∀ id, t.released? = some id → id.index ≠ i) : releasedFrom (t :: ts) i = releasedFrom ts i := by
  unfold releasedFrom
  cases ht : t.released? with
  | none => rw [List.filterMap_cons_none ht]
  | some id =>
    rw [List.filterMap_cons_some ht, List.filter_cons_of_neg]
    exact fun heq => h id ht (beq_iff_eq.mp heq)

theorem releasedFrom_cons_self {t : Transition} {id : InstanceId} (ts : List Transition)
    (h : t.released? = some id) : releasedFrom (t :: ts) id.index = id :: releasedFrom ts id.index := by
  unfold releasedFrom
  rw [List.filterMap_cons_some h, List.filter_cons_of_pos]
  exact beq_self_eq_true id.index

namespace Path

variable {h h' : Heap} {ts : List Transition}

theorem releasedFrom_eq_nil (p : Path h ts h') {i : Nat} (hfree : h.pool.occupant? i = none)
    (elsewhere : ∀ t ∈ ts, ∀ id ∈ t.placed?, id.index ≠ i) : releasedFrom ts i = [] := by
  induction p with
  | nil => rfl
  | @cons t ts _ _ ih =>
    obtain ⟨here, later⟩ := List.forall_mem_cons.mp elsewhere
    rw [releasedFrom_cons_of_ne ts]
    · exact ih (t.poolStep.occupant?_eq_none hfree here) later
    · intro id hid hi
      have step := t.poolStep
      rw [hid] at step
      obtain ⟨x, hx, _⟩ := step.of_released
      rw [← hi, Pool.occupant?_of_get? hx] at hfree
      cases hfree

/-- Until the next instance comes into its slot, an instance is released at most once, and nothing
else is released from there. -/
theorem releasedFrom_once (p : Path h ts h') {id : InstanceId} (sound : h.SoundPool)
    (hid : ∃ x, h.pool.get? id = some x)
    (elsewhere : ∀ t ∈ ts, ∀ other ∈ t.placed?, other.index ≠ id.index) :
    releasedFrom ts id.index <+: [id] := by
  induction p with
  | nil => exact List.nil_prefix
  | @cons t ts _ p ih =>
    obtain ⟨here, later⟩ := List.forall_mem_cons.mp elsewhere
    obtain ⟨x, hx⟩ := hid
    have step := t.poolStep
    by_cases hself : t.released? = some id
    · -- the slot is free now, and stays so
      rw [hself] at step
      obtain ⟨y, hy, hevict⟩ := step.of_released
      obtain ⟨_, _, _, hslot⟩ := Pool.getElem?_evict_self hevict
      have hfree : t.after.pool.occupant? id.index = none := by
        unfold Pool.occupant?
        rw [hslot]
        rfl
      have hall : releasedFrom (t :: ts) id.index = [id] := by
        rw [releasedFrom_cons_self ts hself, p.releasedFrom_eq_nil hfree later]
      exact hall ▸ List.prefix_rfl
    · rw [releasedFrom_cons_of_ne ts]
      · obtain ⟨y, hy, _⟩ := step.keeps sound.sound hx hself
        exact ih (t.soundPool sound) ⟨y, hy⟩ later
      · intro other hother hi
        rw [hother] at step
        obtain ⟨y, hy, _⟩ := step.of_released
        exact hself (Pool.eq_of_index_eq hy hx hi ▸ hother)

end Path

/-! ## With its own payload -/

theorem Sweep.Leads.calls {s s' : Sweep} {past rest : List Transition} {t : Transition}
    (l : Leads s (past ++ t :: rest) s') (hend : s'.due = none) :
    rest.head?.bind Transition.starts? = t.calls? := by
  obtain ⟨s₁, _, l⟩ := l.split
  cases l with
  | cons allowed l =>
    cases l with
    | nil => exact hend.symm
    | cons allowed' _ => exact allowed'.starts

theorem Sweep.Leads.head_starts {s s' : Sweep} {ts : List Transition} (l : Leads s ts s')
    (hdue : s.due = none) : ts.head?.bind Transition.starts? = none := by
  cases l with
  | nil => rfl
  | cons allowed _ => exact allowed.starts.trans hdue

theorem Transition.calls?_of_not_released {t : Transition} (h : t.released? = none) :
    t.calls? = none := by
  obtain ⟨a, heap⟩ := t
  cases a with
  | evict slot =>
    cases hx : heap.pool.occupant? slot with
    | none => simp only [calls?, hx, Option.bind_none]
    | some x =>
      obtain ⟨s, hs, hsx⟩ := Pool.occupant?_eq_some_iff.mp hx
      simp [released?, Slot.named, hs, hsx] at h
  | _ => rfl

theorem Transition.index_of_released? {slot : Nat} {h : Heap} {id : InstanceId}
    (hid : released? ⟨.evict slot, h⟩ = some id) : id.index = slot := by
  obtain ⟨s, _, hs⟩ := Option.bind_eq_some_iff.mp hid
  obtain ⟨e, he, rfl⟩ := Option.map_eq_some_iff.mp hs
  obtain ⟨x, _, rfl⟩ := Option.map_eq_some_iff.mp he
  rfl

/-- A release takes the instance with its payload out of the pool and calls for the free callback
that the type of the instance has then. -/
theorem Transition.calls?_of_released {t : Transition} {id : InstanceId}
    (hid : t.released? = some id) : ∃ x, t.before.pool.get? id = some x ∧
      t.after.contains (.ref id) = false ∧
      t.calls? = (t.after.registry.callback? x.descriptor .free).map fun c => (c, x.payload) := by
  obtain ⟨a, h⟩ := t
  cases a with
  | evict slot =>
    obtain rfl := index_of_released? hid
    have step := poolStep ⟨.evict id.index, h⟩
    rw [hid] at step
    obtain ⟨x, hx, _⟩ := step.of_released
    obtain ⟨_, q, hevict, hafter⟩ := Heap.evict_of_get? hx
    refine ⟨x, hx, ?_, ?_⟩
    · show (Option.isSome ((h.evict id.index).2.pool.get? id)) = false
      rw [hafter, Pool.get?_evict hevict, if_pos rfl]
      rfl
    · show calls? ⟨.evict id.index, h⟩ =
        ((h.evict id.index).2.registry.callback? x.descriptor .free).map _
      rw [calls?_evict hx, hafter]
  | _ => cases hid

/-! ## In order -/

/-- The instances `released` are the first ones of those that no pin held when the sweep began on
`h`; they are all of them if the collection came to its end. -/
structure Heap.Swept (h : Heap) (released : List InstanceId) (ended : Except Halt Nat) :
    Prop where
  ascending : ((h.pool.namesOf fun x => !x.pinned).map InstanceId.index).Pairwise (· < ·)
  inOrder : released <+: h.pool.namesOf fun x => !x.pinned
  complete : ∀ n, ended = .ok n →
    released = (h.pool.namesOf fun x => !x.pinned) ∧ n = released.length

theorem Releasing.swept {h h' h'' : Heap} {us : List Transition} {left : List InstanceId}
    (releasing : Releasing h' (h.pool.namesOf fun x => !x.pinned) us left h'') (why : Halt) :
    h.Swept (us.filterMap Transition.released?) (.error why) where
  ascending := h.pool.pairwise_index_namesOf _
  inOrder := ⟨left, releasing.released.symm⟩
  complete n hn := by cases hn

theorem Collecting.swept {h h' : Heap} {ts : List Transition} {ended : Except Halt Nat}
    (c : Collecting h ts ended h') :
    (ts.filterMap Transition.released? = [] ∧ ∃ why, ended = .error why) ∨
      ∃ marking h₁ sweeping, ts = marking ++ ⟨.startSweep, h₁⟩ :: sweeping ∧
        marking.filterMap Transition.released? = [] ∧
        h₁.Swept (sweeping.filterMap Transition.released?) ended := by
  have hmarking : ∀ {ts : List Transition} {h₁ : Heap}, Interlude h.startMarking ts h₁ →
      (⟨.startMarking, h⟩ :: ts).filterMap Transition.released? = [] := by
    intro ts h₁ i
    have hnone : Transition.released? ⟨.startMarking, h⟩ = none := rfl
    rw [List.filterMap_cons_none hnone]
    exact filterMap_released?_of_calm i.calm
  cases c with
  | marking why i => exact Or.inl ⟨hmarking i, why, rfl⟩
  | @sweeping h₁ _ ts us left why i releasing =>
    exact Or.inr ⟨⟨.startMarking, h⟩ :: ts, h₁, us, rfl, hmarking i, releasing.swept why⟩
  | @finished h₁ h₂ ts us n i releasing hn =>
    let finish : Transition := ⟨.finishCollection n, h₂⟩
    refine Or.inr ⟨⟨.startMarking, h⟩ :: ts, h₁, us ++ [finish], rfl, hmarking i, ?_⟩
    have hall : (us ++ [finish]).filterMap Transition.released? =
        h₁.pool.namesOf fun x => !x.pinned := by
      rw [List.filterMap_append, releasing.released]
      rfl
    rw [hall]
    refine ⟨h₁.pool.pairwise_index_namesOf _, List.prefix_rfl, ?_⟩
    rintro m ⟨⟩
    exact ⟨rfl, hn⟩

/-- What a collection releases, whatever its callbacks do: nothing if the marking is cut short, and
otherwise the instances that no pin holds when the sweep begins, in the order of their slots. -/
theorem collect_swept {r : Runner} (hr : r.Lawful) {w : World} (sound : w.heap.SoundPool)
    (ready : w.heap.refusal? = none) :
    (((collect r).trace w).filterMap Transition.released? = [] ∧
        ∃ why, ((collect r).exec w).1 = .error why) ∨
      ∃ marking h sweeping, (collect r).trace w = marking ++ ⟨.startSweep, h⟩ :: sweeping ∧
        marking.filterMap Transition.released? = [] ∧
        h.Swept (sweeping.filterMap Transition.released?) ((collect r).exec w).1 := by
  obtain ⟨body, announces, hbody⟩ := hr
  have collecting := collecting_collectNow announces (fun b c args => (hbody b c args).inside) sound
  obtain ⟨htrace, hended, _⟩ := collect_ready r ready
  rw [htrace, hended]
  -- the collection proper is followed by the end of the phase, which releases nothing
  let stop : Transition := ⟨.setPhase .idle, ((collectNow r).exec w).2.heap⟩
  have hlast : ∀ ts : List Transition,
      (ts ++ [stop]).filterMap Transition.released? = ts.filterMap Transition.released? := by
    intro ts
    rw [List.filterMap_append]
    exact List.append_nil _
  rcases collecting.swept with ⟨hnone, why⟩ | ⟨marking, h, sweeping, heq, hnone, swept⟩
  · exact Or.inl ⟨(hlast _).trans hnone, why⟩
  · refine Or.inr ⟨marking, h, sweeping ++ [stop], ?_, hnone, ?_⟩
    · rw [heq, List.append_assoc]
      rfl
    · rw [hlast]
      exact swept

/-! ## Sessions -/

/-- Every release of a session happens once and to the right instance, whatever the scripts of its
callbacks do.

From the moment `t` at which an instance gets its name until the next one comes into its slot, it is
released at most once and nothing else is released from the slot.  What is released is there with
its payload and is gone afterwards; the transition that follows starts the free callback that the
type of the instance has then, with that payload, and no free callback starts otherwise.  And a
collection releases the instances that no pin holds when its sweep begins, in the order of their
slots, all of them unless a callback cuts it short. -/
theorem Session.released_once_in_order (s : Session) (n : Nat) (valid : s.config.fault? = none) :
    (∀ (past since rest : List Transition) (t : Transition) (id : InstanceId),
        s.history (.ofDepth n) = past ++ (t :: since ++ rest) → t.placed? = some id →
        (∀ u ∈ since, ∀ other ∈ u.placed?, other.index ≠ id.index) →
        releasedFrom since id.index <+: [id]) ∧
      (s.history (.ofDepth n)).head?.bind Transition.starts? = none ∧
      (∀ (past rest : List Transition) (t : Transition),
        s.history (.ofDepth n) = past ++ t :: rest →
        rest.head?.bind Transition.starts? = t.calls? ∧
        (t.released? = none → t.calls? = none) ∧
        ∀ id, t.released? = some id → ∃ x, t.before.pool.get? id = some x ∧
          t.after.contains (.ref id) = false ∧
          t.calls? = (t.after.registry.callback? x.descriptor .free).map fun c => (c, x.payload)) ∧
      ∀ (w : World) (m : Nat), w.heap ∈ s.moments (.ofDepth n) → w.heap.refusal? = none →
        (((collect (.ofDepth m)).trace w).filterMap Transition.released? = [] ∧
            ∃ why, ((collect (.ofDepth m)).exec w).1 = .error why) ∨
          ∃ marking h sweeping,
            (collect (.ofDepth m)).trace w = marking ++ ⟨.startSweep, h⟩ :: sweeping ∧
            marking.filterMap Transition.released? = [] ∧
            h.Swept (sweeping.filterMap Transition.released?)
              ((collect (.ofDepth m)).exec w).1 := by
  have start := Heap.soundPool_new valid
  have leads := s.orderly_history (Runner.lawful_ofDepth n) valid
  obtain ⟨_, path⟩ := s.path_history (.ofDepth n)
  refine ⟨fun past since rest t id heq hid elsewhere => ?_, leads.head_starts rfl,
    fun past rest t heq => ?_, fun w m hw ready => ?_⟩
  · rw [heq] at path
    obtain ⟨h₁, ppast, path⟩ := path.split
    obtain ⟨h₂, path, _⟩ := path.split
    cases path with
    | cons _ psince =>
      have sound := (ppast.invariant (fun t _ => t.soundPool) start).1
      have step := t.poolStep
      rw [hid] at step
      exact psince.releasedFrom_once (t.soundPool sound) (step.of_placed sound.sound).2.1 elsewhere
  · rw [heq] at leads
    exact ⟨leads.calls rfl, Transition.calls?_of_not_released,
      fun id => Transition.calls?_of_released⟩
  · exact collect_swept (Runner.lawful_ofDepth m) (s.soundPool_moments _ valid _ hw) ready

/-- A session whose free callback asks for collections and teardowns, allocates, and pins one of the
two instances that are about to be released. -/
def busyFree : Session where
  containers := false
  steps := [.op (.register "cell" none),
    .install (.index ⟨0⟩) .free "free" [.op .collect, .op .teardown,
      .op (.alloc .unit (.index ⟨0⟩)), .op (.pin .makePermanent (.var "b"))] .nothing,
    .op (.alloc (.int 1) (.index ⟨0⟩)), .bind "b" (.op (.alloc (.int 2) (.index ⟨0⟩)))]

theorem Session.released_once_in_order_busyFree :
    ∃ marking h sweeping,
      (collect (.ofDepth 3)).trace (busyFree.closing (.ofDepth 3)) =
        marking ++ ⟨.startSweep, h⟩ :: sweeping ∧
      marking.filterMap Transition.released? = [] ∧
      sweeping.filterMap Transition.released? = (h.pool.namesOf fun x => !x.pinned) ∧
      (sweeping.filterMap Transition.released?).length = 2 := by
  obtain ⟨_, _, _, collections⟩ := busyFree.released_once_in_order 3 rfl
  have hended : ((collect (.ofDepth 3)).exec (busyFree.closing (.ofDepth 3))).1.toOption =
      some 2 := by decide +kernel
  have ready : (busyFree.closing (.ofDepth 3)).heap.refusal? = none := by decide +kernel
  rcases collections (busyFree.closing (.ofDepth 3)) 3 (busyFree.closing_mem_moments _) ready with
    ⟨_, why, hwhy⟩ | ⟨marking, h, sweeping, heq, hnone, swept⟩
  · rw [hwhy] at hended
    cases hended
  · cases hres : ((collect (.ofDepth 3)).exec (busyFree.closing (.ofDepth 3))).1 with
    | error why =>
      rw [hres] at hended
      cases hended
    | ok k =>
      obtain ⟨hall, hlength⟩ := swept.complete k hres
      rw [hres] at hended
      exact ⟨marking, h, sweeping, heq, hnone, hall, hlength.symm.trans (Option.some.inj hended)⟩

end TracedHeap
