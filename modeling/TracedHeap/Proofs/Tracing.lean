import TracedHeap.Proofs.Conservation

/-!
# Tracing

A collection traces the gray instances one after the other.  Tracing an instance marks the values in
its header and then calls the mark callback of its type, and the callback may mark, allocate and
change whatever it likes; it only cannot trace, since a collection cannot be started inside another.
So what is marked is always black or gray, each once, and when nothing is gray any more, every marked
instance has been traced just once.

* `Transition.gathered`, `Path.gathered`
                        that what is marked is black or gray, each once, is kept by whatever happens
                        between the turns of a marking, unless a mark is taken away;
* `Conduct.untraced`    nothing is traced while a callback runs in a marking;
* `Heap.Tracing`        the transitions by which one instance is traced;
* `Heap.Draining`       those by which instances are traced until nothing is gray;
* `draining_drain`      the loop of a collection does that, if it comes to its end;
* `Session.each_marked_traced_once`
                        what follows for the collections of a session.
-/

namespace TracedHeap

open Run

/-! ## What keeps the marked instances black or gray -/

namespace Heap

variable {h h' : Heap} {black : List InstanceId}

theorem isMarked_modify_of_keeps (h : Heap) (v : Value) {f : Instance → Instance}
    (hf : ∀ x, (f x).marked = x.marked) (id : InstanceId) :
    (h.modify v f).isMarked (.ref id) = h.isMarked (.ref id) := by
  cases v with
  | ref other =>
    show ((h.pool.modify other f).get? id).any _ = (h.pool.get? id).any _
    rw [Pool.get?_modify]
    split
    · cases h.pool.get? id with
      | none => rfl
      | some x => exact hf x
    · rfl
  | _ => rfl

theorem isMarked_enroll (sound : h.SoundPool) (d : Descriptor) (p : Payload) (id : InstanceId) :
    (h.enroll (h.pool.place h.config.poolIncrement d p).1
      (h.pool.place h.config.poolIncrement d p).2).isMarked (.ref id) = h.isMarked (.ref id) := by
  show ((h.pool.place h.config.poolIncrement d p).2.get? id).any _ = (h.pool.get? id).any _
  by_cases hid : id = (h.pool.place h.config.poolIncrement d p).1
  · rw [hid, sound.sound.get?_place_self d p,
      Pool.get?_eq_none_of_occupant? (sound.sound.occupant?_place d p)]
    rfl
  · rw [sound.sound.get?_place d p hid]

theorem Gathered.congr (g : h.Gathered black) (phase : h'.collector.phase = h.collector.phase)
    (gray : h'.collector.gray = h.collector.gray)
    (marks : ∀ id, h'.isMarked (.ref id) = h.isMarked (.ref id)) : h'.Gathered black := by
  refine ⟨phase.trans g.marking, ?_, fun id => ?_⟩
  · rw [gray]
    exact g.nodup
  · rw [gray, marks]
    exact g.marked_iff id

theorem Gathered.markAll (g : h.Gathered black) (vs : List Value) :
    (h.markAll vs).Gathered black := by
  induction vs generalizing h with
  | nil => exact g
  | cons v vs ih => exact ih (g.mark v).1

theorem nextGray_eq_none (hnext : h.nextGray = (none, h')) : h.collector.gray = [] ∧ h' = h := by
  unfold nextGray at hnext
  split at hnext
  · next hgray =>
    cases hnext
    exact ⟨hgray, rfl⟩
  · cases hnext

/-- The first gray instance is there, and it becomes black. -/
theorem Gathered.nextGray {id : InstanceId} (g : h.Gathered black)
    (hnext : h.nextGray = (some id, h')) :
    h'.Gathered (id :: black) ∧ ∃ x, h'.pool.get? id = some x := by
  unfold Heap.nextGray at hnext
  split at hnext
  · cases hnext
  · next hgray =>
    cases hnext
    have hid : h.isMarked (.ref id) = true := by
      rw [g.marked_iff, hgray]
      exact List.mem_append_right black List.mem_cons_self
    refine ⟨g.pop hgray, ?_⟩
    cases hx : h.pool.get? id with
    | none => simp [isMarked, find?, Value.instance?, hx] at hid
    | some x => exact ⟨x, rfl⟩

/-- What is allocated during a marking becomes gray. -/
theorem Gathered.place (g : h.Gathered black) (sound : h.SoundPool) (d : Descriptor) (p : Payload) :
    (h.place d p).2.Gathered black := by
  unfold Heap.place
  simp only
  rw [if_pos g.marking]
  have enrolled : (h.enroll _ _).Gathered black := g.congr rfl rfl (isMarked_enroll sound d p)
  exact (enrolled.mark _).1

end Heap

section
variable {black : List InstanceId}

/-- The marked instances stay the black and the gray ones in every step that neither takes a gray
one off the list nor takes a mark away. -/
theorem Transition.gathered {t : Transition} (calm : t.action.calm = true)
    (untraced : t.action.traces = false) (keeps : t.unmarks = false) (sound : t.before.SoundPool)
    (g : t.before.Gathered black) : t.after.Gathered black := by
  obtain ⟨a, h⟩ := t
  cases a with
  | place d p => exact g.place sound d p
  | mark v => exact (g.mark v).1
  | change v c =>
    have hc : c ≠ .unmark := by
      rintro rfl
      cases keeps
    have hcollector := h.collector_modify v c.apply
    exact g.congr (congrArg _ hcollector) (congrArg _ hcollector)
      (h.isMarked_modify_of_keeps v (Change.marked hc))
  | startUse a id | stopUse a id =>
    exact g.congr rfl rfl (h.isMarked_modify_of_keeps (.ref id) fun _ => rfl)
  | pop =>
    show h.pop.2.Gathered black
    unfold Heap.pop
    split <;> exact g.congr rfl rfl fun _ => rfl
  | attach v =>
    show (h.attach v).2.Gathered black
    unfold Heap.attach
    split <;> exact g.congr rfl rfl fun _ => rfl
  | nextGray => cases untraced
  | evict | startMarking | startSweep | startTeardown | finishCollection | setPhase => cases calm
  | _ => exact g.congr rfl rfl fun _ => rfl

theorem Path.gathered {h h' : Heap} {ts : List Transition} (path : Path h ts h')
    (quiet : ∀ t ∈ ts, t.action.calm = true ∧ t.action.traces = false)
    (keeps : ∀ t ∈ ts, t.unmarks = false) (sound : h.SoundPool) (g : h.Gathered black) :
    h'.Gathered black := by
  have both := path.invariant (I := fun h => h.SoundPool ∧ h.Gathered black)
    (fun t ht ⟨sound, g⟩ => ⟨t.soundPool sound,
      Transition.gathered (quiet t ht).1 (quiet t ht).2 (keeps t ht) sound g⟩) ⟨sound, g⟩
  exact both.1.2

end

/-! ## Nothing is traced inside a callback -/

theorem Heap.busy_of_marking {h : Heap} (marking : h.collector.phase = .marking) : h.Busy :=
  Heap.busy_iff.mpr (Or.inl (by rw [marking]; exact Phase.noConfusion))

/-- While a marking goes on nothing is released, and nothing is traced. -/
def Conduct.untraced : Conduct where
  pre h := h.collector.phase = .marking
  rel _ ts _ := ∀ t ∈ ts, t.action.calm = true ∧ t.action.traces = false
  nil _ := by simp
  append first second := List.forall_mem_append.mpr ⟨first, second⟩
  keeps path marking quiet :=
    (path.invariant (I := fun h => h.collector.phase = .marking)
      (fun t ht hm => (Transition.phase_of_calm (quiet t ht).1).trans hm) marking).1

section
variable {α : Type}

theorem untraced_act {a : Action α} (calm : a.calm = true) (untraced : a.traces = false) :
    (act a).Follows .untraced :=
  follows_act fun _ _ => List.forall_mem_singleton.mpr ⟨calm, untraced⟩

theorem untraced_collectIfDue (r : Runner) : (collectIfDue r).Follows .untraced := by
  intro w marking
  rw [(collectIfDue_busy r (Heap.busy_of_marking marking)).2]
  exact Conduct.untraced.nil marking

theorem admits_untraced : Conduct.untraced.Admits [.trace] where
  act ordinary _ untraced :=
    untraced_act (Action.calm_of_ordinary ordinary) (untraced List.mem_cons_self)
  handles := by
    intro β a ha
    cases a with
    | startUse | stopUse | change => exact untraced_act rfl rfl
    | _ => cases ha
  invoke c _ _ hfree hmark hx :=
    follows_bind (untraced_act (bne_iff_ne.mpr hfree) (beq_eq_false_iff_ne.mpr hmark))
      fun _ => hx (c.avoids_of_subset (by decide))
  withFrame := follows_withFrame (fun _ => untraced_act rfl rfl) (untraced_act rfl rfl)
  collect := by
    intro r body _ _ w marking
    rw [(collect_refused r (Heap.busy_of_marking marking)).2]
    exact Conduct.untraced.nil marking
  teardown := by
    intro r body _ _ _ w marking
    rw [(teardown_refused r (Heap.busy_of_marking marking)).2]
    exact Conduct.untraced.nil marking
  allocate _ _ _ _ := follows_allocate (untraced_collectIfDue _) (untraced_act rfl rfl)

end

theorem Runner.untraced_ofDepth (n : Nat) : ∃ body, (Runner.ofDepth n).Announces body ∧
    ∀ b c args, (body b c args).Follows .untraced := by
  obtain ⟨body, announces, hbody⟩ := Runner.avoids_ofDepth [.trace] n
  refine ⟨body, announces, fun b c args => ?_⟩
  exact (hbody b c args (c.avoids_of_subset (by decide))).follows_of_admits admits_untraced

/-! ## Tracing one instance -/

namespace Heap

def markings (h : Heap) : List Value → List Transition
  | [] => []
  | v :: vs => ⟨.mark v, h⟩ :: (h.mark v).markings vs

theorem path_markings (h : Heap) (vs : List Value) : Path h (h.markings vs) (h.markAll vs) := by
  induction vs generalizing h with
  | nil => exact .nil h
  | cons v vs ih => exact .cons ⟨.mark v, h⟩ (ih (h.mark v))

theorem exists_of_mem_markings {h : Heap} {vs : List Value} {t : Transition}
    (ht : t ∈ h.markings vs) : ∃ v h', t = ⟨.mark v, h'⟩ := by
  induction vs generalizing h with
  | nil => cases ht
  | cons v vs ih =>
    rcases List.mem_cons.mp ht with rfl | ht
    · exact ⟨v, h, rfl⟩
    · exact ih ht

/-- The transitions `ts` lead from `h` to `h'` by tracing the instance `id`, which is there: the
values in its header are marked in order, and then the mark callback of its type, if it has one, is
called on it and does its work, in which nothing is released or traced. -/
inductive Tracing (h : Heap) (id : InstanceId) : List Transition → Heap → Prop where
  | plain {x : Instance} : h.pool.get? id = some x →
      h.registry.callback? x.descriptor .mark = none →
      Tracing h id (h.markings x.children) (h.markAll x.children)
  | callback {x : Instance} {c : Callback .mark} {inside : List Transition} {h' : Heap} :
      h.pool.get? id = some x → h.registry.callback? x.descriptor .mark = some c →
      Path (h.markAll x.children) inside h' →
      (∀ t ∈ inside, t.action.calm = true ∧ t.action.traces = false) →
      Tracing h id
        (h.markings x.children ++ ⟨.invoke .mark c (.ref id), h.markAll x.children⟩ :: inside) h'

/-- The transitions `ts` lead from `h` to `h'` by tracing the instances `ids` in order, each of them
the first gray one when its turn comes, until nothing is gray. -/
inductive Draining : Heap → List InstanceId → List Transition → Heap → Prop where
  | done {h : Heap} : h.nextGray = (none, h) → Draining h [] [⟨.nextGray, h⟩] h
  | round {h h₁ h₂ h' : Heap} {id : InstanceId} {ids : List InstanceId} {ts us : List Transition} :
      h.nextGray = (some id, h₁) → h₁.Tracing id ts h₂ → Draining h₂ ids us h' →
      Draining h (id :: ids) (⟨.nextGray, h⟩ :: (ts ++ us)) h'

section
variable {h h' : Heap} {id : InstanceId} {ts : List Transition} {black : List InstanceId}

theorem Tracing.path (t : h.Tracing id ts h') : Path h ts h' := by
  cases t with
  | @plain x _ _ => exact h.path_markings x.children
  | @callback x _ _ _ _ _ path _ =>
    exact (h.path_markings x.children).append (.cons ⟨.invoke .mark _ (.ref id), _⟩ path)

theorem Tracing.gathered (t : h.Tracing id ts h') (sound : h.SoundPool)
    (keeps : ∀ u ∈ ts, u.unmarks = false) (g : h.Gathered black) : h'.Gathered black := by
  cases t with
  | @plain x _ _ => exact g.markAll x.children
  | @callback x _ _ _ _ _ path quiet =>
    obtain ⟨_, hkeeps⟩ := List.forall_mem_append.mp keeps
    have sound₁ := ((h.path_markings x.children).invariant (fun u _ => u.soundPool) sound).1
    exact path.gathered quiet (List.forall_mem_cons.mp hkeeps).2 sound₁ (g.markAll x.children)

end

end Heap

theorem trace_markAll (vs : List Value) (w : World) :
    (markAll vs).trace w = w.heap.markings vs ∧
      (markAll vs).exec w = (.ok (), { w with heap := w.heap.markAll vs }) := by
  induction vs generalizing w with
  | nil => exact ⟨rfl, rfl⟩
  | cons v vs ih =>
    have first := bind_of_ok (exec_act (.mark v) w) fun _ => markAll vs
    obtain ⟨htrace, hexec⟩ := ih { w with heap := w.heap.mark v }
    exact ⟨first.2.trans (congrArg _ htrace), first.1.trans hexec⟩

section
variable {r : Runner} {body : Runner.Body} {w : World} {id : InstanceId}

theorem traceInstance_eq (announces : r.Announces body) {x : Instance}
    (hx : w.heap.pool.get? id = some x) :
    let marked := { w with heap := w.heap.markAll x.children }
    match w.heap.registry.callback? x.descriptor .mark with
    | none =>
      (traceInstance r id).trace w = w.heap.markings x.children ∧
        (traceInstance r id).exec w = (.ok (), marked)
    | some c =>
      (traceInstance r id).trace w = w.heap.markings x.children ++
          ⟨.invoke .mark c (.ref id), marked.heap⟩ :: (body .mark c (.ref id)).trace marked ∧
        (traceInstance r id).exec w = (body .mark c (.ref id)).exec marked := by
  intro marked
  obtain ⟨htrace, hexec⟩ := trace_markAll x.children w
  have hregistry : marked.heap.registry = w.heap.registry :=
    Heap.registry_of_unmarked_eq (w.heap.unmarked_markAll x.children)
  unfold traceInstance
  rw [exec_bind, trace_bind, heap, exec_look]
  simp only [hx]
  rw [exec_bind, trace_bind, htrace, hexec]
  simp only
  rw [exec_bind, trace_bind, exec_look]
  simp only
  rw [hregistry]
  cases hc : w.heap.registry.callback? x.descriptor .mark with
  | none => exact ⟨List.append_nil _, rfl⟩
  | some c =>
    simp only
    rw [announces]
    exact ⟨rfl, rfl⟩

theorem tracing_traceInstance (announces : r.Announces body)
    (hbody : ∀ b c args, (body b c args).Follows .untraced)
    (marking : w.heap.collector.phase = .marking) {x : Instance}
    (hx : w.heap.pool.get? id = some x) :
    w.heap.Tracing id ((traceInstance r id).trace w) ((traceInstance r id).exec w).2.heap := by
  have heq := traceInstance_eq announces hx
  cases hc : w.heap.registry.callback? x.descriptor .mark with
  | none =>
    simp only [hc] at heq
    rw [heq.1, heq.2]
    exact .plain hx hc
  | some c =>
    simp only [hc] at heq
    rw [heq.1, heq.2]
    let marked : World := { w with heap := w.heap.markAll x.children }
    have quiet := hbody .mark c (.ref id) marked ((w.heap.phase_markAll _).trans marking)
    exact .callback hx hc ((body .mark c (.ref id)).path_trace marked) quiet

/-! ## The loop -/

theorem drain_of_nextGray_none (r : Runner) (rounds : Nat) {h : Heap}
    (hnext : w.heap.nextGray = (none, h)) :
    (drain r rounds).trace w = [⟨.nextGray, w.heap⟩] ∧
      (drain r rounds).exec w = (.ok (), { w with heap := h }) := by
  have hact : (act .nextGray).exec w = (.ok none, { w with heap := h }) := by
    rw [exec_act, Action.apply, hnext]
  unfold drain
  rw [exec_bind, trace_bind, hact]
  exact ⟨rfl, rfl⟩

theorem drain_of_nextGray_some (r : Runner) {h : Heap} (hnext : w.heap.nextGray = (some id, h)) :
    ((drain r 0).exec w).1 = .error .exhausted ∧ ∀ rounds,
      (drain r (rounds + 1)).trace w =
          ⟨.nextGray, w.heap⟩ :: (do traceInstance r id; drain r rounds).trace { w with heap := h } ∧
        (drain r (rounds + 1)).exec w =
          (do traceInstance r id; drain r rounds).exec { w with heap := h } := by
  have hact : (act .nextGray).exec w = (.ok (some id), { w with heap := h }) := by
    rw [exec_act, Action.apply, hnext]
  refine ⟨?_, fun rounds => ?_⟩
  · unfold drain
    rw [exec_bind, hact]
    rfl
  · generalize hrest : drain r rounds = rest
    unfold drain
    rw [exec_bind, trace_bind, hact, ← hrest]
    exact ⟨rfl, rfl⟩

theorem Heap.Gathered.draining_of_none {rounds : Nat} {w' : World} {h : Heap}
    {black : List InstanceId} (g : w.heap.Gathered black) (hnext : w.heap.nextGray = (none, h))
    (done : (drain r rounds).exec w = (.ok (), w')) :
    ∃ ids, w.heap.Draining ids ((drain r rounds).trace w) w'.heap ∧
      w'.heap.Gathered (ids.reverse ++ black) ∧ w'.heap.collector.gray = [] := by
  obtain ⟨hgray, rfl⟩ := Heap.nextGray_eq_none hnext
  obtain ⟨htrace, hexec⟩ := drain_of_nextGray_none r rounds hnext
  cases hexec.symm.trans done
  rw [htrace]
  exact ⟨[], .done hnext, g, hgray⟩

/-- The loop traces until nothing is gray, and then the instances that it traced are black beside
those that were. -/
theorem draining_drain (announces : r.Announces body)
    (hbody : ∀ b c args, (body b c args).Follows .untraced) (rounds : Nat) {w w' : World}
    {black : List InstanceId} (sound : w.heap.SoundPool) (g : w.heap.Gathered black)
    (keeps : ∀ t ∈ (drain r rounds).trace w, t.unmarks = false)
    (done : (drain r rounds).exec w = (.ok (), w')) :
    ∃ ids, w.heap.Draining ids ((drain r rounds).trace w) w'.heap ∧
      w'.heap.Gathered (ids.reverse ++ black) ∧ w'.heap.collector.gray = [] := by
  induction rounds generalizing w black with
  | zero =>
    rcases hnext : w.heap.nextGray with ⟨_ | id, h⟩
    · exact g.draining_of_none hnext done
    · cases (drain_of_nextGray_some r hnext).1.symm.trans (congrArg Prod.fst done)
  | succ rounds ih =>
    rcases hnext : w.heap.nextGray with ⟨_ | id, h⟩
    · exact g.draining_of_none hnext done
    · obtain ⟨htrace, hexec⟩ := (drain_of_nextGray_some r hnext).2 rounds
      obtain ⟨g₁, x, hx⟩ := g.nextGray hnext
      have sound₁ : h.SoundPool := by
        have kept := Transition.soundPool ⟨.nextGray, w.heap⟩ sound
        rw [Transition.after, Action.apply, hnext] at kept
        exact kept
      rw [htrace] at keeps ⊢
      rw [hexec] at done
      have tracing := tracing_traceInstance (w := { w with heap := h }) announces hbody g₁.marking hx
      rcases hfirst : (traceInstance r id).exec { w with heap := h } with ⟨why | _, w₁⟩
      · cases (bind_of_error hfirst fun _ => drain r rounds).1.symm.trans done
      · obtain ⟨hrest, hsplit⟩ := bind_of_ok hfirst fun _ => drain r rounds
        rw [hfirst] at tracing
        rw [hsplit] at keeps ⊢
        obtain ⟨hkeeps, hkeeps'⟩ := List.forall_mem_append.mp (List.forall_mem_cons.mp keeps).2
        have sound₂ := tracing.path.soundPool sound₁
        obtain ⟨ids, draining, g', hgray⟩ := ih sound₂ (tracing.gathered sound₁ hkeeps g₁) hkeeps'
          (hrest.symm.trans done)
        refine ⟨id :: ids, .round hnext tracing draining, ?_, hgray⟩
        rw [List.reverse_cons, List.append_assoc]
        exact g'

/-! ## Where the marking ends -/

def Transition.startsSweep : Transition → Bool
  | ⟨.startSweep, _⟩ => true
  | _ => false

theorem Transition.startsSweep_of_sweeps {t : Transition} (ht : t.action.sweeps = true) :
    t.startsSweep = false := by
  obtain ⟨a, h⟩ := t
  cases a with
  | startSweep => cases ht
  | _ => rfl

theorem Transition.eq_of_startsSweep {t : Transition} (ht : t.startsSweep = true) :
    t = ⟨.startSweep, t.before⟩ := by
  obtain ⟨a, h⟩ := t
  cases a with
  | startSweep => rfl
  | _ => cases ht

theorem startSweep_notMem {ts : List Transition} (hts : ∀ t ∈ ts, t.startsSweep = false)
    (h : Heap) : (⟨.startSweep, h⟩ : Transition) ∉ ts := fun hmem => Bool.noConfusion (hts _ hmem)

theorem trace_sweepNow (announces : r.Announces body)
    (hbody : ∀ b c args, (body b c args).Follows .inside) (sound : w.heap.SoundPool) :
    ∃ us, (sweepNow r).trace w = ⟨.startSweep, w.heap⟩ :: us ∧
      ∀ t ∈ us, t.startsSweep = false := by
  obtain ⟨us, _, _, releasing, hends⟩ := releasing_sweepNow announces hbody sound
  have once : ∀ t ∈ us, t.startsSweep = false :=
    fun t ht => Transition.startsSweep_of_sweeps (releasing.sweeps t ht)
  rcases hends with ⟨_, _, htrace⟩ | ⟨_, _, _, htrace⟩
  · exact ⟨us, htrace, once⟩
  · exact ⟨_, htrace, List.forall_mem_append.mpr ⟨once, List.forall_mem_singleton.mpr rfl⟩⟩

/-- Up to the start of its sweep a collection starts to mark and traces in its loop, to the end. -/
theorem collect_cut (hr : r.Lawful) (sound : w.heap.SoundPool) {marking rest : List Transition}
    {h : Heap} (hcut : (collect r).trace w = marking ++ ⟨.startSweep, h⟩ :: rest) :
    let started := { w with heap := w.heap.startMarking }
    marking = ⟨.startMarking, w.heap⟩ :: (drain r r.rounds).trace started ∧
      ∃ w', (drain r r.rounds).exec started = (.ok (), w') ∧ w'.heap = h := by
  intro started
  obtain ⟨body, announces, hbody⟩ := hr
  have inside := fun b c args => (hbody b c args).inside
  have ready : w.heap.refusal? = none := by
    by_contra busy
    rw [(collect_refused r busy).2] at hcut
    exact List.append_ne_nil_of_right_ne_nil _ (List.cons_ne_nil _ _) hcut.symm
  have calm := (announces.inside_drain inside r.rounds started (Heap.busy_of_marking rfl)).calm
  have before : ∀ t ∈ (⟨.startMarking, w.heap⟩ :: (drain r r.rounds).trace started),
      Transition.startsSweep t = false :=
    List.forall_mem_cons.mpr ⟨rfl, fun t ht =>
      Transition.startsSweep_of_sweeps (Action.sweeps_of_calm (calm t ht))⟩
  have last : ∀ t ∈ [(⟨.setPhase .idle, ((collectNow r).exec w).2.heap⟩ : Transition)],
      t.startsSweep = false := List.forall_mem_singleton.mpr rfl
  have hstart : (act .startMarking).exec w = (.ok (), started) := rfl
  have start := bind_of_ok hstart fun _ => do
    drain r r.rounds
    sweepNow r
  rw [(collect_ready r ready).1, collectNow_eq, start.2] at hcut
  rcases hexec : (drain r r.rounds).exec started with ⟨why | _, w'⟩
  · -- a marking that is cut short is not followed by a sweep
    have hmem : (⟨.startSweep, h⟩ : Transition) ∈ marking ++ ⟨.startSweep, h⟩ :: rest :=
      List.mem_append_right _ List.mem_cons_self
    rw [← hcut, (bind_of_error hexec fun _ => sweepNow r).2] at hmem
    exact absurd hmem (startSweep_notMem (List.forall_mem_append.mpr ⟨before, last⟩) h)
  · have path := (drain r r.rounds).path_trace started
    rw [hexec] at path
    have sound' := path.soundPool (Transition.soundPool ⟨.startMarking, w.heap⟩ sound)
    obtain ⟨us, htrace, once⟩ := trace_sweepNow announces inside sound'
    rw [(bind_of_ok hexec fun _ => sweepNow r).2, htrace, trace_act, ← List.append_assoc,
      List.append_assoc _ _ [_], List.cons_append] at hcut
    have after := List.forall_mem_append.mpr ⟨once, last⟩
    obtain ⟨hmarking, hheap, _⟩ := (List.append_cons_inj_of_notMem (startSweep_notMem before h)
      (startSweep_notMem after h)).mp hcut
    exact ⟨hmarking.symm, w', rfl, congrArg Transition.before hheap⟩

/-! ## Mark callbacks are called on instances that are there -/

def Transition.markCall? : Transition → Option Value
  | ⟨.invoke .mark _ v, _⟩ => some v
  | _ => none

/-- If a mark callback is called here, then on an instance that is there. -/
def Transition.MarksLive (t : Transition) : Prop :=
  ∀ v, t.markCall? = some v → t.before.contains v = true

theorem Transition.marksLive_of_none {t : Transition} (ht : t.markCall? = none) : t.MarksLive := by
  intro v hv
  cases ht.symm.trans hv

theorem Action.markCall?_of_traces {α : Type} {a : Action α} (ha : a.traces = false) (h : Heap) :
    Transition.markCall? ⟨a, h⟩ = none := by
  cases a with
  | invoke b c args =>
    cases b with
    | mark => cases ha
    | _ => rfl
  | _ => rfl

theorem marksLive_act {α : Type} {a : Action α} (ha : a.traces = false) :
    (act a).Follows (.each Transition.MarksLive) :=
  follows_act fun h _ => List.forall_mem_singleton.mpr
    (Transition.marksLive_of_none (Action.markCall?_of_traces ha h))

theorem marksLive_traceInstance (announces : r.Announces body)
    (hbody : ∀ b c args, (body b c args).Follows (.each Transition.MarksLive)) (id : InstanceId) :
    (traceInstance r id).Follows (.each Transition.MarksLive) := by
  intro w _
  show ∀ t ∈ (traceInstance r id).trace w, t.MarksLive
  cases hx : w.heap.pool.get? id with
  | none =>
    unfold traceInstance
    rw [trace_bind, heap, exec_look]
    simp only [hx]
    exact List.forall_mem_nil _
  | some x =>
    have heq := traceInstance_eq announces hx
    have marks : ∀ t ∈ w.heap.markings x.children, t.MarksLive := by
      intro t ht
      obtain ⟨v, h, rfl⟩ := Heap.exists_of_mem_markings ht
      exact Transition.marksLive_of_none rfl
    cases hc : w.heap.registry.callback? x.descriptor .mark with
    | none =>
      simp only [hc] at heq
      rw [heq.1]
      exact marks
    | some c =>
      simp only [hc] at heq
      have live : Transition.MarksLive
          ⟨.invoke .mark c (.ref id), w.heap.markAll x.children⟩ := by
        intro v hv
        cases hv
        exact Option.isSome_iff_exists.mpr ((Heap.exists_get?_iff_of_unmarked_eq
          (w.heap.unmarked_markAll x.children) id).mpr ⟨x, hx⟩)
      rw [heq.1]
      exact List.forall_mem_append.mpr ⟨marks, List.forall_mem_cons.mpr
        ⟨live, hbody .mark c (.ref id) _ trivial⟩⟩

theorem marksLive_collects {α : Type} {a : Action α} (ha : a.collects = true) :
    (act a).Follows (.each Transition.MarksLive) := by
  cases a with
  | nextGray =>
    exact follows_act fun _ _ => List.forall_mem_singleton.mpr (Transition.marksLive_of_none rfl)
  | mark | startMarking | startSweep | evict | finishCollection | setPhase | schedule =>
    exact marksLive_act rfl
  | _ => cases ha

theorem Runner.Announces.marksLive_free (announces : r.Announces body)
    (hbody : ∀ b c args, (body b c args).Follows (.each Transition.MarksLive)) :
    r.FollowsOn (.each Transition.MarksLive) .free := by
  intro _ _ _ c _ args
  rw [announces]
  exact follows_bind (marksLive_act rfl) fun _ => hbody .free c args

theorem marksLive_collect (announces : r.Announces body)
    (hbody : ∀ b c args, (body b c args).Follows (.each Transition.MarksLive)) :
    (collect r).Follows (.each Transition.MarksLive) :=
  follows_collect_of_trace marksLive_collects (marksLive_traceInstance announces hbody)
    (announces.marksLive_free hbody)

end

theorem admits_marksLive : (Conduct.each Transition.MarksLive).Admits [.trace] := by
  have called : ∀ {b : Behavior} (c : Callback b), c.avoids [.trace] = true :=
    fun c => c.avoids_of_subset (by decide)
  exact {
    act := fun _ _ untraced => marksLive_act (untraced List.mem_cons_self)
    handles := by
      intro β a ha
      cases a with
      | startUse | stopUse | change => exact marksLive_act rfl
      | _ => cases ha
    invoke := fun c _ _ _ hmark hx =>
      follows_bind (marksLive_act (beq_eq_false_iff_ne.mpr hmark)) fun _ => hx (called c)
    withFrame := follows_withFrame (fun _ => marksLive_act rfl) (marksLive_act rfl)
    collect := fun announces hbody =>
      marksLive_collect announces fun b c args => hbody b c args (called c)
    teardown := fun _ announces hbody => follows_teardown marksLive_collects (marksLive_act rfl)
      (announces.marksLive_free fun b c args => hbody b c args (called c))
    allocate := fun _ _ announces hbody =>
      follows_allocate (follows_collectIfDue_of_collect
        (marksLive_collect announces fun b c args => hbody b c args (called c))
        (marksLive_collects rfl)) (marksLive_act rfl) }

namespace Session

theorem marksLive_history (s : Session) (n : Nat) :
    ∀ t ∈ s.history (.ofDepth n), t.MarksLive := by
  have hr := Runner.avoids_ofDepth [.trace] n
  have opening : s.opening.Avoids [.trace] := s.avoids_opening (by decide)
  have steps : ∀ step : Step, (step.run (.ofDepth n)).run.Avoids [.trace] :=
    fun step => avoids_step hr step (step.avoids_of_subset (by decide))
  have teardown : (teardown (.ofDepth n)).Avoids [.trace] := avoids_teardown (by decide) hr
  obtain ⟨_, each⟩ := s.follows_history (C := .each Transition.MarksLive) trivial
    (opening.follows_of_admits admits_marksLive)
    (fun step => (steps step).follows_of_admits admits_marksLive)
    (teardown.follows_of_admits admits_marksLive)
  exact each

/-- Each marked instance is traced once.

At whatever moment of a session a collection starts, and whatever its mark callbacks do other than to
take marks away: if its marking comes to an end, it has traced instances one after the other, by
marking the values in the header and then calling the mark callback of the type if there is one, and
nothing was traced inside those callbacks.  The traced instances are those that are marked at the
end of the marking, each traced once.  And no mark callback of a session is ever called on an
instance that is not there. -/
theorem each_marked_traced_once (s : Session) (n : Nat) (valid : s.config.fault? = none) :
    (∀ (w : World) (m : Nat) (marking rest : List Transition) (h : Heap),
      w.heap ∈ s.moments (.ofDepth n) →
      (collect (.ofDepth m)).trace w = marking ++ ⟨.startSweep, h⟩ :: rest →
      (∀ t ∈ marking, t.unmarks = false) →
      ∃ ids ts, marking = ⟨.startMarking, w.heap⟩ :: ts ∧ w.heap.startMarking.Draining ids ts h ∧
        ids.Nodup ∧ ∀ id, id ∈ ids ↔ h.isMarked (.ref id) = true) ∧
    ∀ t ∈ s.history (.ofDepth n), ∀ v, t.markCall? = some v → t.before.contains v = true := by
  refine ⟨fun w m marking rest h hw hcut keeps => ?_, s.marksLive_history n⟩
  have sound := s.soundPool_moments (.ofDepth n) valid w.heap hw
  obtain ⟨body, announces, hbody⟩ := Runner.untraced_ofDepth m
  obtain ⟨rfl, w', done, rfl⟩ := collect_cut (Runner.lawful_ofDepth m) sound hcut
  obtain ⟨ids, draining, g, hgray⟩ := draining_drain announces hbody _
    (Transition.soundPool ⟨.startMarking, w.heap⟩ sound) w.heap.gathered_startMarking
    (List.forall_mem_cons.mp keeps).2 done
  have nodup := g.nodup
  have marked := g.marked_iff
  rw [hgray, List.append_nil, List.append_nil] at nodup
  simp only [hgray, List.append_nil, List.mem_reverse] at marked
  exact ⟨ids, _, rfl, draining, List.nodup_reverse.mp nodup, fun id => (marked id).symm⟩

end Session

/-- A session that leaves a nest on the stack.  The nest holds an egg, and the mark callback of nests
marks another egg and the nest itself, allocates a third egg and asks for a collection.  The egg that
came in the first collection is held by nothing. -/
def busyNest : Session where
  containers := false
  steps := [.op (.register "egg" none), .op (.register "nest" none),
    .bind "a" (.op (.alloc .unit (.index ⟨1⟩))), .bind "b" (.op (.alloc .unit (.index ⟨0⟩))),
    .bind "c" (.op (.alloc .unit (.index ⟨0⟩))), .op (.push (.var "a")),
    .op (.setProperty (.var "a") "next" (.var "b")),
    .install (.index ⟨1⟩) .mark "mark" [.op (.pin .mark (.var "c")), .op (.pin .mark (.var "a")),
      .op (.alloc .unit (.index ⟨0⟩)), .op .collect] .nothing,
    .op .collect]

theorem Session.each_marked_traced_once_busyNest :
    let w := busyNest.closing (.ofDepth 6)
    (∃ marking rest h ids ts,
      (collect (.ofDepth 6)).trace w = marking ++ ⟨.startSweep, h⟩ :: rest ∧
      marking.filterMap Transition.placed? = [⟨4, 0⟩] ∧ marking = ⟨.startMarking, w.heap⟩ :: ts ∧
      w.heap.startMarking.Draining ids ts h ∧ ids.Nodup ∧ (∀ i ∈ [0, 1, 2, 4], ⟨i, 0⟩ ∈ ids) ∧
      ⟨3, 0⟩ ∉ ids) ∧
    ∃ t ∈ busyNest.history (.ofDepth 6), t.markCall? = some (.ref ⟨0, 0⟩) ∧
      t.before.contains (.ref ⟨0, 0⟩) = true := by
  intro w
  have hcall : 11 < (busyNest.history (.ofDepth 6)).length := by decide +kernel
  have called : ((busyNest.history (.ofDepth 6)).get ⟨11, hcall⟩).markCall? =
      some (.ref ⟨0, 0⟩) := by decide +kernel +revert
  have hsweep : 11 < ((collect (.ofDepth 6)).trace w).length := by decide +kernel
  obtain ⟨starts, marked, unmarked⟩ :
      (((collect (.ofDepth 6)).trace w).get ⟨11, hsweep⟩).startsSweep = true ∧
        (∀ i ∈ [0, 1, 2, 4],
          (((collect (.ofDepth 6)).trace w).get ⟨11, hsweep⟩).before.isMarked (.ref ⟨i, 0⟩) = true) ∧
        (((collect (.ofDepth 6)).trace w).get ⟨11, hsweep⟩).before.isMarked (.ref ⟨3, 0⟩) = false := by
    clear called
    decide +kernel +revert
  have hcut : (collect (.ofDepth 6)).trace w = ((collect (.ofDepth 6)).trace w).take 11 ++
      ⟨.startSweep, (((collect (.ofDepth 6)).trace w).get ⟨11, hsweep⟩).before⟩ ::
        ((collect (.ofDepth 6)).trace w).drop 12 := by
    rw [← Transition.eq_of_startsSweep starts, List.get_eq_getElem, List.getElem_cons_drop,
      List.take_append_drop]
  have keeps : ∀ t ∈ ((collect (.ofDepth 6)).trace w).take 11, t.unmarks = false := by
    decide +kernel
  obtain ⟨traced, live⟩ := busyNest.each_marked_traced_once 6 rfl
  obtain ⟨ids, ts, hmarking, draining, nodup, hids⟩ :=
    traced w 6 _ _ _ (busyNest.closing_mem_moments _) hcut keeps
  refine ⟨⟨_, _, _, ids, ts, hcut, by decide +kernel, hmarking, draining, nodup,
    fun i hi => (hids _).mpr (marked i hi), fun hmem => ?_⟩,
    _, List.get_mem _ _, called, live _ (List.get_mem _ _) _ called⟩
  rw [hids, unmarked] at hmem
  cases hmem

end TracedHeap
