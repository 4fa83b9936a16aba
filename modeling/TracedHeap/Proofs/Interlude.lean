import TracedHeap.Proofs.Conduct
import TracedHeap.Proofs.Lawful
import TracedHeap.Proofs.Marking

/-!
# What happens while a heap is busy

A heap is busy while the collector is at work or some payload is in use.  Collections and teardowns
that are asked for then are refused, at whatever depth of callbacks.  So what a callback of a
collection does, or a computation inside the use of a payload, is of a simple form.

* `Heap.Busy`               a collection or the use of a payload goes on;
* `Interlude h ts h'`       `ts` leads from `h` to `h'` by ordinary actions, new instances, and
                            payloads that are used and written as they should be;
* `Run.Lawful.inside`       on a busy heap a lawful computation is an interlude;
* `Interlude.phase`, `Interlude.borrows`
                            an interlude leaves the phase of the collector and the number of uses
                            as it finds them;
* `Action.calm`, `Interlude.calm`
                            no collection goes on in an interlude, and nothing is released.
-/

namespace TracedHeap

open Run

/-- A collection or the use of a payload goes on. -/
def Heap.Busy (h : Heap) : Prop := h.refusal? ≠ none

theorem Heap.busy_iff {h : Heap} : h.Busy ↔ h.collector.phase ≠ .idle ∨ 0 < h.borrows := by
  unfold Busy refusal?
  split
  · next hphase => simp [hphase]
  · next hphase =>
    split
    · next hborrows => simp [hborrows]
    · next hborrows => simp [hphase, hborrows]

theorem Heap.refusal?_eq_none_iff {h : Heap} :
    h.refusal? = none ↔ h.collector.phase = .idle ∧ h.borrows = 0 := by
  have hbusy : ¬ h.refusal? = none ↔ h.collector.phase ≠ .idle ∨ 0 < h.borrows := h.busy_iff
  rw [← not_iff_not, hbusy, not_and_or, Nat.pos_iff_ne_zero]

theorem Heap.busy_startUse (h : Heap) (a : Access) (id : InstanceId) : (h.startUse a id).Busy :=
  busy_iff.mpr (Or.inr (Nat.succ_pos h.borrows))

/-! ## Interludes -/

/-- The transitions `ts` lead from `h` to `h'` by ordinary actions, new instances, and payloads
that are used and written as they should be. -/
inductive Interlude : Heap → List Transition → Heap → Prop where
  | nil (h : Heap) : Interlude h [] h
  | append {h h' h'' : Heap} {ts us : List Transition} :
      Interlude h ts h' → Interlude h' us h'' → Interlude h (ts ++ us) h''
  | act {α : Type} {a : Action α} (h : Heap) : a.ordinary = true →
      Interlude h [⟨a, h⟩] (a.apply h).2
  | place (d : Descriptor) (p : Payload) (h : Heap) :
      Interlude h [⟨.place d p, h⟩] (h.place d p).2
  /-- A payload that nobody uses is written at once. -/
  | write {h : Heap} {v : Value} {k : Kind} {id : InstanceId} {c : k.Content} (c' : k.Content) :
      h.content .write v k = .ok (id, c) →
      Interlude h [⟨.change (.ref id) (.write (.of k c')), h⟩]
        (h.change (.ref id) (.write (.of k c')))
  /-- A payload is used. -/
  | use {h h' : Heap} {a : Access} {v : Value} {k : Kind} {id : InstanceId} {c : k.Content}
      {ts : List Transition} : h.content a v k = .ok (id, c) → Interlude (h.startUse a id) ts h' →
      Interlude h (⟨.startUse a id, h⟩ :: (ts ++ [⟨.stopUse a id, h'⟩])) (h'.stopUse a id)
  /-- A payload is used, and written at the end of the use. -/
  | edit {h h' : Heap} {v : Value} {k : Kind} {id : InstanceId} {c : k.Content}
      {ts : List Transition} (c' : k.Content) : h.content .write v k = .ok (id, c) →
      Interlude (h.startUse .write id) ts h' →
      Interlude h (⟨.startUse .write id, h⟩ :: (ts ++
          [⟨.change (.ref id) (.write (.of k c')), h'⟩,
            ⟨.stopUse .write id, h'.change (.ref id) (.write (.of k c'))⟩]))
        ((h'.change (.ref id) (.write (.of k c'))).stopUse .write id)

theorem Interlude.path {h h' : Heap} {ts : List Transition} (i : Interlude h ts h') :
    Path h ts h' := by
  induction i with
  | nil h => exact .nil h
  | append _ _ ih ih' => exact ih.append ih'
  | act h ha => exact Path.single _ h
  | place d p h => exact Path.single (.place d p) h
  | @write h _ k id _ c' _ => exact Path.single (.change (.ref id) (.write (.of k c'))) h
  | @use h h' a _ _ id _ _ _ _ ih =>
    exact .cons ⟨.startUse a id, h⟩ (ih.append (Path.single (.stopUse a id) h'))
  | @edit h h' _ k id _ _ c' _ _ ih =>
    exact .cons ⟨.startUse .write id, h⟩ (ih.append
      (.cons ⟨.change (.ref id) (.write (.of k c')), h'⟩ (Path.single (.stopUse .write id) _)))

/-! ### The phase and the number of uses -/

namespace Heap

theorem collector_modify (h : Heap) (v : Value) (f : Instance → Instance) :
    (h.modify v f).collector = h.collector := by
  cases v <;> rfl

theorem borrows_modify (h : Heap) (v : Value) (f : Instance → Instance) :
    (h.modify v f).borrows = h.borrows := by
  cases v <;> rfl

theorem borrows_mark (h : Heap) (v : Value) : (h.mark v).borrows = h.borrows :=
  (eq_of_unmarked_eq (h.unmarked_mark v)).2.2.2.2

theorem phase_place (h : Heap) (d : Descriptor) (p : Payload) :
    (h.place d p).2.collector.phase = h.collector.phase := by
  unfold place
  simp only
  split
  · exact phase_mark _ _
  · rfl

theorem borrows_place (h : Heap) (d : Descriptor) (p : Payload) :
    (h.place d p).2.borrows = h.borrows := by
  unfold place
  simp only
  split
  · exact borrows_mark _ _
  · rfl

end Heap

section
variable {α : Type} {a : Action α}

theorem Action.phase_and_borrows_of_ordinary (ha : a.ordinary = true) (h : Heap) :
    (a.apply h).2.collector.phase = h.collector.phase ∧ (a.apply h).2.borrows = h.borrows := by
  cases a with
  | change v c => exact ⟨congrArg _ (h.collector_modify v c.apply), h.borrows_modify v c.apply⟩
  | mark v => exact ⟨h.phase_mark v, h.borrows_mark v⟩
  | pop =>
    show h.pop.2.collector.phase = _ ∧ h.pop.2.borrows = _
    unfold Heap.pop
    split <;> exact ⟨rfl, rfl⟩
  | attach v =>
    show (h.attach v).2.collector.phase = _ ∧ (h.attach v).2.borrows = _
    unfold Heap.attach
    split <;> exact ⟨rfl, rfl⟩
  | nextGray =>
    show h.nextGray.2.collector.phase = _ ∧ h.nextGray.2.borrows = _
    unfold Heap.nextGray
    split <;> exact ⟨rfl, rfl⟩
  | place | evict | startUse | stopUse | startMarking | startSweep | startTeardown
  | finishCollection | setPhase => cases ha
  | _ => exact ⟨rfl, rfl⟩

end

namespace Interlude

section
variable {h h' : Heap} {ts : List Transition}

theorem phase (i : Interlude h ts h') : h'.collector.phase = h.collector.phase := by
  induction i with
  | nil => rfl
  | append _ _ ih ih' => exact ih'.trans ih
  | act h ha => exact (Action.phase_and_borrows_of_ordinary ha h).1
  | place d p h => exact h.phase_place d p
  | write => rfl
  | use _ _ ih => exact ih
  | edit _ _ _ ih => exact ih

theorem borrows (i : Interlude h ts h') : h'.borrows = h.borrows := by
  induction i with
  | nil => rfl
  | append _ _ ih ih' => exact ih'.trans ih
  | act h ha => exact (Action.phase_and_borrows_of_ordinary ha h).2
  | place d p h => exact h.borrows_place d p
  | write => rfl
  | use _ _ ih => exact Nat.sub_eq_of_eq_add ih
  | edit _ _ _ ih => exact Nat.sub_eq_of_eq_add ih

theorem busy (i : Interlude h ts h') (busy : h.Busy) : h'.Busy := by
  rw [Heap.busy_iff] at busy ⊢
  rw [i.phase, i.borrows]
  exact busy

end

end Interlude

/-! ## The parts of lawful computations -/

def World.startUse (w : World) (a : Access) (id : InstanceId) : World :=
  { w with heap := w.heap.startUse a id }

def World.stopUse (w : World) (a : Access) (id : InstanceId) : World :=
  { w with heap := w.heap.stopUse a id }

/-- Runs a computation while a payload is in use: what reading and writing have in common. -/
def usePayload {α : Type} (a : Access) (v : Value) (k : Kind)
    (x : InstanceId → k.Content → Attempt α) : Attempt α := do
  let (id, c) ← Attempt.ask fun h => h.content a v k
  Attempt.act (.startUse a id)
  Attempt.ensuring (x id c) (Run.act (.stopUse a id))

def thenWrite {α : Type} (id : InstanceId) (k : Kind) (x : Attempt (α × k.Content)) : Attempt α := do
  let (a, c) ← x
  Attempt.act (.change (.ref id) (.write (.of k c)))
  return a

section
variable {α : Type} {a : Access} {v : Value} {k : Kind} {id : InstanceId} {c : k.Content} {w : World}

theorem withPayload_eq (v : Value) (k : Kind) (x : k.Content → Attempt α) :
    withPayload v k x = usePayload .read v k fun _ c => x c := rfl

theorem withPayloadMut_eq (v : Value) (k : Kind) (x : k.Content → Attempt (α × k.Content)) :
    withPayloadMut v k x = usePayload .write v k fun id c => thenWrite id k (x c) := rfl

theorem thenWrite_cases (id : InstanceId) (x : Attempt (α × k.Content)) (w : World) :
    ((thenWrite id k x).run.trace w = x.run.trace w ∧
        ((thenWrite id k x).run.exec w).2 = (x.run.exec w).2) ∨
      ∃ c, (thenWrite id k x).run.trace w =
          x.run.trace w ++ [⟨.change (.ref id) (.write (.of k c)), (x.run.exec w).2.heap⟩] ∧
        ((thenWrite id k x).run.exec w).2.heap =
          (x.run.exec w).2.heap.change (.ref id) (.write (.of k c)) := by
  unfold thenWrite
  rw [Attempt.exec_bind, trace_attempt_bind]
  rcases x.run.exec w with ⟨_ | _ | ⟨a, c⟩, w'⟩
  · exact Or.inl ⟨List.append_nil _, rfl⟩
  · exact Or.inl ⟨List.append_nil _, rfl⟩
  · exact Or.inr ⟨c, rfl, rfl⟩

theorem usePayload_error (x : InstanceId → k.Content → Attempt α) {e : Error}
    (h : w.heap.content a v k = .error e) :
    (usePayload a v k x).run.exec w = (.ok (.error e), w) ∧
      (usePayload a v k x).run.trace w = [] := by
  unfold usePayload
  rw [Attempt.exec_bind, trace_attempt_bind, Attempt.exec_ask, h]
  exact ⟨rfl, rfl⟩

/-- A payload is in use from before the computation inside until after it, however that ends. -/
theorem usePayload_ok (x : InstanceId → k.Content → Attempt α)
    (h : w.heap.content a v k = .ok (id, c)) :
    let inside := w.startUse a id
    (usePayload a v k x).run.trace w = ⟨.startUse a id, w.heap⟩ ::
        ((x id c).run.trace inside ++ [⟨.stopUse a id, ((x id c).run.exec inside).2.heap⟩]) ∧
      ((usePayload a v k x).run.exec w).2 = ((x id c).run.exec inside).2.stopUse a id := by
  intro inside
  unfold usePayload
  rw [Attempt.exec_bind, trace_attempt_bind, Attempt.exec_ask, h]
  simp only
  rw [Attempt.exec_bind, trace_attempt_bind, Attempt.exec_act]
  exact ⟨rfl, exec_ensuring_snd _ _ _⟩

/-- A payload is written if it may be written and the new content can be made, and nothing happens
otherwise. -/
theorem writePayload_cases (v : Value) (k : Kind) (f : k.Content → Except Error k.Content)
    (w : World) :
    (∃ e, (writePayload v k f).run.exec w = (.ok (.error e), w) ∧
        (writePayload v k f).run.trace w = []) ∨
      ∃ id c c', w.heap.content .write v k = .ok (id, c) ∧ f c = .ok c' ∧
        (writePayload v k f).run.exec w =
          (.ok (.ok ()), { w with heap := w.heap.change (.ref id) (.write (.of k c')) }) ∧
        (writePayload v k f).run.trace w = [⟨.change (.ref id) (.write (.of k c')), w.heap⟩] := by
  unfold writePayload
  rw [Attempt.exec_bind, trace_attempt_bind, Attempt.exec_ask]
  cases hcontent : w.heap.content .write v k with
  | error e => exact Or.inl ⟨e, rfl, rfl⟩
  | ok found =>
    obtain ⟨id, c⟩ := found
    simp only [bind, Except.bind]
    cases hf : f c with
    | error e => exact Or.inl ⟨e, rfl, rfl⟩
    | ok c' => exact Or.inr ⟨id, c, c', rfl, hf, rfl, rfl⟩

end

section
variable {r : Runner} {w : World}

theorem collect_refused (r : Runner) (h : w.heap.Busy) :
    ((collect r).exec w).2.heap = w.heap ∧ (collect r).trace w = [] := by
  obtain ⟨why, hwhy⟩ := Option.ne_none_iff_exists'.mp h
  unfold collect
  rw [exec_bind, trace_bind, heap, exec_look]
  simp only [hwhy]
  exact ⟨rfl, rfl⟩

theorem collect_ready (r : Runner) (h : w.heap.refusal? = none) :
    (collect r).trace w =
        (collectNow r).trace w ++ [⟨.setPhase .idle, ((collectNow r).exec w).2.heap⟩] ∧
      ((collect r).exec w).1 = ((collectNow r).exec w).1 ∧
      ((collect r).exec w).2.heap = ((collectNow r).exec w).2.heap.setPhase .idle := by
  unfold collect
  rw [exec_bind, trace_bind, heap, exec_look]
  simp only [h]
  rw [exec_ensuring_fst, exec_ensuring_snd]
  refine ⟨rfl, ?_, rfl⟩
  rcases (collectNow r).exec w with ⟨_ | _, _⟩ <;> rfl

theorem teardown_refused (r : Runner) (h : w.heap.Busy) :
    ((teardown r).exec w).2.heap = w.heap ∧ (teardown r).trace w = [] := by
  obtain ⟨why, hwhy⟩ := Option.ne_none_iff_exists'.mp h
  unfold teardown
  rw [exec_bind, trace_bind, heap, exec_look]
  simp only [hwhy]
  exact ⟨rfl, rfl⟩

theorem teardown_ready (r : Runner) (h : w.heap.refusal? = none) :
    (teardown r).trace w =
        (teardownNow r).trace w ++ [⟨.setPhase .idle, ((teardownNow r).exec w).2.heap⟩] ∧
      ((teardown r).exec w).1 = ((teardownNow r).exec w).1 ∧
      ((teardown r).exec w).2.heap = ((teardownNow r).exec w).2.heap.setPhase .idle := by
  unfold teardown
  rw [exec_bind, trace_bind, heap, exec_look]
  simp only [h]
  rw [exec_ensuring_fst, exec_ensuring_snd]
  refine ⟨rfl, ?_, rfl⟩
  rcases (teardownNow r).exec w with ⟨_ | _, _⟩ <;> rfl

theorem exec_refused (r : Runner) (h : w.heap.Busy) :
    ((collect r).exec w).1 = .ok 0 ∧ ((teardown r).exec w).1 = .ok 0 := by
  obtain ⟨why, hwhy⟩ := Option.ne_none_iff_exists'.mp h
  unfold collect teardown
  rw [exec_bind, exec_bind, heap, exec_look]
  simp only [hwhy]
  exact ⟨rfl, rfl⟩

theorem Heap.collectionDue_iff {h : Heap} :
    h.collectionDue = true ↔ h.collector.enabled = true ∧
      h.collector.nextCollection ≤ h.pool.live ∧ h.refusal? = none := by
  unfold collectionDue
  rw [Bool.and_eq_true, Bool.and_eq_true, decide_eq_true_eq, Option.isNone_iff_eq_none, and_assoc]

/-- A collection that is due is followed by the setting of the threshold, if it comes to its end. -/
theorem collectIfDue_of_due (r : Runner) (due : w.heap.collectionDue = true) :
    (collectIfDue r).exec w = (collect r >>= fun _ => act .schedule).exec w ∧
      (collectIfDue r).trace w = (collect r >>= fun _ => act .schedule).trace w := by
  unfold collectIfDue
  rw [exec_bind, trace_bind, heap, exec_look]
  simp only [due]
  exact ⟨rfl, rfl⟩

theorem collectIfDue_of_not_due (r : Runner) (h : w.heap.collectionDue = false) :
    (collectIfDue r).exec w = (.ok (), w) ∧ (collectIfDue r).trace w = [] := by
  unfold collectIfDue
  rw [exec_bind, trace_bind, heap, exec_look]
  simp only [h]
  exact ⟨rfl, rfl⟩

theorem collectIfDue_busy (r : Runner) (h : w.heap.Busy) :
    (collectIfDue r).exec w = (.ok (), w) ∧ (collectIfDue r).trace w = [] :=
  collectIfDue_of_not_due r (Bool.eq_false_iff.mpr fun due => h (Heap.collectionDue_iff.mp due).2.2)

end

/-! ## Lawful computations on a busy heap -/

/-- On a busy heap there are interludes only. -/
def Conduct.inside : Conduct where
  pre := Heap.Busy
  rel := Interlude
  nil _ := .nil _
  append := .append
  keeps _ busy i := i.busy busy

section
variable {α : Type}

theorem inside_act {a : Action α} (ha : a.ordinary = true) : (act a).Follows .inside :=
  fun w _ => .act w.heap ha

/-- The use of a payload is an interlude, whether the heap was busy before or not. -/
theorem interlude_withPayload (v : Value) (k : Kind) {x : k.Content → Attempt α}
    (hx : ∀ c, (x c).run.Follows .inside) (w : World) :
    Interlude w.heap ((withPayload v k x).run.trace w) ((withPayload v k x).run.exec w).2.heap := by
  rw [withPayload_eq]
  cases h : w.heap.content .read v k with
  | error e =>
    rw [(usePayload_error _ h).1, (usePayload_error _ h).2]
    exact .nil _
  | ok found =>
    obtain ⟨id, c⟩ := found
    rw [(usePayload_ok _ h).1, (usePayload_ok _ h).2]
    exact .use h (hx c (w.startUse .read id) (w.heap.busy_startUse .read id))

theorem interlude_withPayloadMut (v : Value) (k : Kind) {x : k.Content → Attempt (α × k.Content)}
    (hx : ∀ c, (x c).run.Follows .inside) (w : World) :
    Interlude w.heap ((withPayloadMut v k x).run.trace w)
      ((withPayloadMut v k x).run.exec w).2.heap := by
  rw [withPayloadMut_eq]
  cases h : w.heap.content .write v k with
  | error e =>
    rw [(usePayload_error _ h).1, (usePayload_error _ h).2]
    exact .nil _
  | ok found =>
    obtain ⟨id, c⟩ := found
    have inside := hx c (w.startUse .write id) (w.heap.busy_startUse .write id)
    rw [(usePayload_ok _ h).1, (usePayload_ok _ h).2]
    rcases thenWrite_cases id (x c) (w.startUse .write id) with ⟨htrace, hexec⟩ | ⟨c', htrace, hheap⟩
    · rw [htrace, hexec]
      exact .use h inside
    · rw [htrace, World.stopUse, hheap, List.append_assoc]
      exact .edit c' h inside

theorem interlude_writePayload (v : Value) (k : Kind) (f : k.Content → Except Error k.Content)
    (w : World) :
    Interlude w.heap ((writePayload v k f).run.trace w)
      ((writePayload v k f).run.exec w).2.heap := by
  rcases writePayload_cases v k f w with ⟨e, hexec, htrace⟩ | ⟨id, c, c', h, _, hexec, htrace⟩
  · rw [hexec, htrace]
    exact .nil _
  · rw [hexec, htrace]
    exact .write c' h

theorem inside_allocate (r : Runner) (d : Descriptor) (p : Payload) :
    (allocate r d p).run.Follows .inside := by
  intro w busy
  rcases Nat.lt_or_ge d.index w.heap.registry.size with known | unknown
  · obtain ⟨hdue, hnil⟩ := collectIfDue_busy r busy
    obtain ⟨hplace, _, hheap⟩ := allocateNow_of_ok (d := d) (p := p) hdue
    obtain ⟨htrace, hexec⟩ := allocate_of_known (r := r) (p := p) known
    have hlift := heap_lift (allocateNow r d p) w
    rw [htrace, hplace, hnil, hexec, hlift, hheap]
    exact .place d p w.heap
  · rw [(allocate_of_unknown unknown).1, (allocate_of_unknown unknown).2]
    exact .nil _

/-- On a busy heap a lawful computation is an interlude. -/
theorem Run.Lawful.inside {x : Run α} (h : x.Lawful) : x.Follows .inside := by
  induction h with
  | done a => exact follows_pure a
  | look f => exact follows_look f
  | note f => exact follows_note f
  | halt why => exact follows_halt why
  | act ha => exact inside_act ha
  | andThen _ _ hx hnext => exact follows_bind hx hnext
  | ensuring f _ hx => exact follows_ensuring hx (follows_note f)
  | withFrame caller _ hx =>
    exact follows_withFrame (fun _ => inside_act rfl) (inside_act rfl) caller hx
  | withPayload v k _ hx => exact fun w _ => interlude_withPayload v k hx w
  | withPayloadMut v k _ hx => exact fun w _ => interlude_withPayloadMut v k hx w
  | writePayload v k f => exact fun w _ => interlude_writePayload v k f w
  | @collect r =>
    intro w busy
    rw [(collect_refused r busy).1, (collect_refused r busy).2]
    exact .nil _
  | @teardown r =>
    intro w busy
    rw [(teardown_refused r busy).1, (teardown_refused r busy).2]
    exact .nil _
  | @allocate r _ d p => exact inside_allocate r d p

end

/-! ## Calm actions -/

/-- The actions that neither turn the collector, nor release an instance, nor start a free
callback. -/
def Action.calm : {α : Type} → Action α → Bool
  | _, evict .. | _, startMarking | _, startSweep | _, startTeardown | _, finishCollection ..
  | _, setPhase .. => false
  | _, invoke b _ _ => b != .free
  | _, register .. | _, install .. | _, place .. | _, change .. | _, mark .. | _, startUse ..
  | _, stopUse .. | _, push .. | _, pop | _, truncateStack .. | _, pushFrame .. | _, popFrame
  | _, resyncFrames .. | _, attach .. | _, nextGray | _, schedule | _, setEnabled .. => true

theorem Action.calm_of_ordinary {α : Type} {a : Action α} (ha : a.ordinary = true) :
    a.calm = true := by
  cases a with
  | invoke b c args => exact ha
  | place | evict | startUse | stopUse | startMarking | startSweep | startTeardown
  | finishCollection | setPhase => cases ha
  | _ => rfl

theorem Transition.released?_of_calm {t : Transition} (ht : t.action.calm = true) :
    t.released? = none := by
  obtain ⟨a, h⟩ := t
  cases a with
  | evict => cases ht
  | _ => rfl

theorem Transition.phase_of_calm {t : Transition} (calm : t.action.calm = true) :
    t.after.collector.phase = t.before.collector.phase := by
  obtain ⟨a, h⟩ := t
  cases a with
  | place d p => exact h.phase_place d p
  | evict | startMarking | startSweep | startTeardown | finishCollection | setPhase => cases calm
  | change v c => exact congrArg _ (h.collector_modify v c.apply)
  | startUse | stopUse | invoke => rfl
  | _ => exact (Action.phase_and_borrows_of_ordinary rfl h).1

/-- No collection goes on in an interlude, and nothing is released. -/
theorem Interlude.calm {h h' : Heap} {ts : List Transition} (i : Interlude h ts h') :
    ∀ t ∈ ts, t.action.calm = true := by
  induction i with
  | nil => simp
  | append _ _ ih ih' => exact List.forall_mem_append.mpr ⟨ih, ih'⟩
  | act h ha => exact List.forall_mem_singleton.mpr (Action.calm_of_ordinary ha)
  | place => exact List.forall_mem_singleton.mpr rfl
  | write => exact List.forall_mem_singleton.mpr rfl
  | use _ _ ih =>
    refine List.forall_mem_cons.mpr ⟨rfl, List.forall_mem_append.mpr ⟨ih, ?_⟩⟩
    exact List.forall_mem_singleton.mpr rfl
  | edit _ _ _ ih =>
    refine List.forall_mem_cons.mpr ⟨rfl, List.forall_mem_append.mpr ⟨ih, ?_⟩⟩
    exact List.forall_mem_cons.mpr ⟨rfl, List.forall_mem_singleton.mpr rfl⟩

end TracedHeap
