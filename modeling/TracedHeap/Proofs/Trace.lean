import TracedHeap.Session

/-!
# Traces

What a computation does to the heap is a sequence of actions.  This module makes the sequence
visible, so that one can speak about every moment of a run and not only about its end: about the
moments inside a callback, and those before an abort.

* `Transition`        one action, and the heap it is applied to;
* `Run.trace`         the transitions of a computation, in order;
* `Path`              a sequence of transitions, each of which starts where the last one ended;
* `Run.path_trace`    the trace of a computation is a path from the heap it finds to the heap it
                      leaves, whether it is cut short or not;
* `Session.history`   all transitions of a session, from the fresh heap to its release;
* `Session.moments`   all heaps a session passes through.
-/

namespace TracedHeap

/-- One action, and the heap it is applied to. -/
structure Transition where
  {α : Type}
  action : Action α
  before : Heap

namespace Transition

def after (t : Transition) : Heap := (t.action.apply t.before).2

/-- The name of the instance a transition puts into the pool. -/
def placed? : Transition → Option InstanceId
  | ⟨.place d p, h⟩ => some (h.place d p).1
  | _ => none

/-- The name of the instance a transition takes out of the pool. -/
def released? : Transition → Option InstanceId
  | ⟨.evict slot, h⟩ => (h.pool.slots[slot]?).bind fun s => (s.named slot).map Prod.fst
  | _ => none

end Transition

/-- `Path h ts h'`: the transitions `ts`, one after the other, lead from `h` to `h'`. -/
inductive Path : Heap → List Transition → Heap → Prop where
  | nil (h : Heap) : Path h [] h
  | cons (t : Transition) {ts : List Transition} {h : Heap} :
      Path t.after ts h → Path t.before (t :: ts) h

namespace Path

theorem single {α : Type} (a : Action α) (h : Heap) : Path h [⟨a, h⟩] (a.apply h).2 :=
  .cons ⟨a, h⟩ (.nil _)

theorem append {h h' h'' : Heap} {ts us : List Transition} (p : Path h ts h')
    (q : Path h' us h'') : Path h (ts ++ us) h'' := by
  induction p with
  | nil => exact q
  | cons t _ ih => exact .cons t (ih q)

theorem split {ts us : List Transition} :
    ∀ {h h'' : Heap}, Path h (ts ++ us) h'' → ∃ h', Path h ts h' ∧ Path h' us h'' := by
  induction ts with
  | nil => exact fun {h _} p => ⟨h, .nil h, p⟩
  | cons t ts ih =>
    intro h h'' p
    cases p with
    | cons _ p =>
      obtain ⟨h', p, q⟩ := ih p
      exact ⟨h', .cons t p, q⟩

theorem eq_of_nil {h h' : Heap} (p : Path h [] h') : h' = h := by
  cases p
  rfl

theorem of_concat {ts : List Transition} {t : Transition} {h h' : Heap}
    (p : Path h (ts ++ [t]) h') : Path h ts t.before ∧ h' = t.after := by
  obtain ⟨_, before, last⟩ := p.split
  cases last with
  | cons _ last => exact ⟨before, last.eq_of_nil⟩

theorem eq_after_getLast {ts : List Transition} {h h' : Heap} (p : Path h ts h') (hts : ts ≠ []) :
    h' = (ts.getLast hts).after := by
  induction p with
  | nil => exact absurd rfl hts
  | @cons t ts _ p ih =>
    cases ts with
    | nil => exact p.eq_of_nil
    | cons u us =>
      rw [List.getLast_cons (List.cons_ne_nil u us)]
      exact ih _

theorem eq_getLast? {ts : List Transition} {h h' : Heap} (p : Path h ts h') :
    h' = (ts.getLast?.map Transition.after).getD h := by
  cases ts with
  | nil => exact p.eq_of_nil
  | cons t ts =>
    rw [List.getLast?_eq_some_getLast (List.cons_ne_nil t ts)]
    exact p.eq_after_getLast (List.cons_ne_nil t ts)

theorem end_mem {ts : List Transition} {h h' : Heap} (p : Path h ts h') :
    h' ∈ h :: ts.map Transition.after := by
  induction p with
  | nil => exact List.mem_cons_self
  | cons t _ ih => exact List.mem_cons_of_mem _ ih

/-- What every transition of a path keeps holds all along the path. -/
theorem invariant {I : Heap → Prop} {h h' : Heap} {ts : List Transition} (p : Path h ts h')
    (keeps : ∀ t ∈ ts, I t.before → I t.after) (start : I h) :
    I h' ∧ ∀ t ∈ ts, I t.before ∧ I t.after := by
  induction p with
  | nil => exact ⟨start, by simp⟩
  | cons t _ ih =>
    have here : I t.after := keeps t List.mem_cons_self start
    obtain ⟨last, rest⟩ := ih (fun u hu => keeps u (List.mem_cons_of_mem t hu)) here
    refine ⟨last, fun u hu => ?_⟩
    rcases List.mem_cons.mp hu with rfl | hu
    · exact ⟨start, here⟩
    · exact rest u hu

end Path

namespace Run

/-- The transitions of a computation that starts in a world, in order. -/
def trace : {α : Type} → Run α → World → List Transition
  | _, done _, _ => []
  | _, andThen x next, w =>
    x.trace w ++
      match x.exec w with
      | (.ok a, w) => (next a).trace w
      | (.error _, _) => []
  | _, look _, _ => []
  | _, act a, w => [⟨a, w.heap⟩]
  | _, note _, _ => []
  | _, halt _, _ => []
  | _, ensuring x last, w => x.trace w ++ last.trace (x.exec w).2

@[simp]
theorem trace_pure {α : Type} (a : α) (w : World) : (pure a : Run α).trace w = [] := rfl

@[simp]
theorem trace_look {α : Type} (f : World → α) (w : World) : (look f).trace w = [] := rfl

@[simp]
theorem trace_act {α : Type} (a : Action α) (w : World) : (act a).trace w = [⟨a, w.heap⟩] := rfl

@[simp]
theorem trace_note (f : Context → Context) (w : World) : (note f).trace w = [] := rfl

@[simp]
theorem trace_bind {α β : Type} (x : Run α) (next : α → Run β) (w : World) :
    (x >>= next).trace w =
      x.trace w ++
        match x.exec w with
        | (.ok a, w) => (next a).trace w
        | (.error _, _) => [] := by
  show (andThen x next).trace w = _
  rw [trace]

theorem bind_of_ok {α β : Type} {x : Run α} {a : α} {w w' : World} (h : x.exec w = (.ok a, w'))
    (next : α → Run β) : (x >>= next).exec w = (next a).exec w' ∧
      (x >>= next).trace w = x.trace w ++ (next a).trace w' := by
  rw [exec_bind, trace_bind, h]
  exact ⟨rfl, rfl⟩

theorem bind_of_error {α β : Type} {x : Run α} {why : Halt} {w w' : World}
    (h : x.exec w = (.error why, w')) (next : α → Run β) :
    (x >>= next).exec w = (.error why, w') ∧ (x >>= next).trace w = x.trace w := by
  rw [exec_bind, trace_bind, h]
  exact ⟨rfl, List.append_nil _⟩

/-- A computation that leaves the heap alone changes nothing when it follows another one. -/
theorem bind_of_silent {α β : Type} (x : Run α) (next : α → Run β)
    (silent : ∀ a w, (next a).trace w = [] ∧ ((next a).exec w).2.heap = w.heap) (w : World) :
    (x >>= next).trace w = x.trace w ∧ ((x >>= next).exec w).2.heap = (x.exec w).2.heap := by
  rcases hexec : x.exec w with ⟨why | a, w'⟩
  · obtain ⟨hcut, htrace⟩ := bind_of_error hexec next
    exact ⟨htrace, by rw [hcut]⟩
  · obtain ⟨hok, htrace⟩ := bind_of_ok hexec next
    obtain ⟨hnil, hheap⟩ := silent a w'
    rw [hok, htrace, hnil, List.append_nil]
    exact ⟨rfl, hheap⟩

@[simp]
theorem trace_attempt_bind {α β : Type} (x : Attempt α) (next : α → Attempt β) (w : World) :
    (x >>= next).run.trace w =
      x.run.trace w ++
        match x.run.exec w with
        | (.ok (.ok a), w) => (next a).run.trace w
        | _ => [] := by
  rw [ExceptT.run_bind, trace_bind]
  rcases x.run.exec w with ⟨_ | _ | _, _⟩ <;> rfl

@[simp]
theorem trace_lift {α : Type} (x : Run α) (w : World) :
    (liftM x : Attempt α).run.trace w = x.trace w := by
  show (x >>= fun a => pure (Except.ok a)).trace w = _
  rw [trace_bind]
  rcases x.exec w with ⟨_ | _, _⟩ <;> exact List.append_nil _

theorem lift_look_bind {α β : Type} (f : World → α) (w : World) (next : α → Attempt β) :
    ((liftM (look f) : Attempt α) >>= next).run.exec w = (next (f w)).run.exec w ∧
      ((liftM (look f) : Attempt α) >>= next).run.trace w = (next (f w)).run.trace w := by
  rw [Attempt.exec_bind, trace_attempt_bind]
  exact ⟨rfl, rfl⟩

theorem heap_lift {α : Type} (x : Run α) (w : World) :
    ((liftM x : Attempt α).run.exec w).2.heap = (x.exec w).2.heap := by
  rw [Attempt.exec_lift]
  rcases x.exec w with ⟨_ | _, _⟩ <;> rfl

/-- The trace of a computation leads from the heap it finds to the heap it leaves. -/
theorem path_trace {α : Type} (x : Run α) (w : World) :
    Path w.heap (x.trace w) (x.exec w).2.heap := by
  induction x generalizing w with
  | done | look | note | halt => exact .nil _
  | act a => exact .cons ⟨a, w.heap⟩ (.nil _)
  | andThen x next ihx ihnext =>
    have first := ihx w
    simp only [trace, exec]
    rcases hx : x.exec w with ⟨_ | a, w'⟩
    · rw [hx] at first
      simpa using first
    · rw [hx] at first
      exact first.append (ihnext a w')
  | ensuring x last ihx ihlast =>
    rw [exec_ensuring_snd]
    exact (ihx w).append (ihlast (x.exec w).2)

theorem path_of_exec {α : Type} (x : Run α) {w w' : World} {ended : Except Halt α}
    (done : x.exec w = (ended, w')) : Path w.heap (x.trace w) w'.heap := by
  have path := x.path_trace w
  rwa [done] at path

end Run

/-! ## Frames -/

section
open Run

theorem exec_pushFrame (caller : Value) (w : World) :
    ((pushFrame caller).exec w).1 = .ok () ∧
      ((pushFrame caller).exec w).2.heap = w.heap.pushFrame caller := by
  unfold pushFrame
  simp only [exec_bind, heap, exec_look, exec_act]
  split <;> exact ⟨rfl, rfl⟩

theorem trace_pushFrame (caller : Value) (w : World) :
    (pushFrame caller).trace w = [⟨.pushFrame caller, w.heap⟩] := by
  unfold pushFrame
  simp only [trace_bind, heap, exec_look, trace_look, trace_act, exec_act, List.nil_append]
  split <;> rfl

theorem exec_popFrame (w : World) :
    (popFrame.exec w).1 = .ok () ∧ (popFrame.exec w).2.heap = w.heap.popFrame := by
  unfold popFrame
  simp only [exec_bind, exec_look, exec_act]
  split <;> exact ⟨rfl, rfl⟩

theorem trace_popFrame (w : World) : popFrame.trace w = [⟨.popFrame, w.heap⟩] := by
  unfold popFrame
  simp only [trace_bind, exec_look, trace_look, trace_act, exec_act, List.nil_append]
  split <;> rfl

def World.inFrame (w : World) (caller : Value) : World := ((pushFrame caller).exec w).2

theorem World.heap_inFrame (w : World) (caller : Value) :
    (w.inFrame caller).heap = w.heap.pushFrame caller := (exec_pushFrame caller w).2

theorem exec_withFrame {α : Type} (caller : Value) (x : Run α) (w : World) :
    ((withFrame caller x).exec w).1 = (x.exec (w.inFrame caller)).1 ∧
      ((withFrame caller x).exec w).2.heap = (x.exec (w.inFrame caller)).2.heap.popFrame := by
  have entered : (pushFrame caller).exec w = (.ok (), w.inFrame caller) :=
    Prod.ext (exec_pushFrame caller w).1 rfl
  obtain ⟨left, popped⟩ := exec_popFrame (x.exec (w.inFrame caller)).2
  unfold withFrame
  rw [(bind_of_ok entered _).1, exec_ensuring_fst, exec_ensuring_snd, left]
  refine ⟨?_, popped⟩
  cases (x.exec (w.inFrame caller)).1 <;> rfl

theorem trace_withFrame {α : Type} (caller : Value) (x : Run α) (w : World) :
    (withFrame caller x).trace w = ⟨.pushFrame caller, w.heap⟩ ::
      (x.trace (w.inFrame caller) ++ [⟨.popFrame, (x.exec (w.inFrame caller)).2.heap⟩]) := by
  have entered : (pushFrame caller).exec w = (.ok (), w.inFrame caller) :=
    Prod.ext (exec_pushFrame caller w).1 rfl
  unfold withFrame
  rw [(bind_of_ok entered _).2, trace_pushFrame]
  show _ :: (x.trace _ ++ popFrame.trace _) = _
  rw [trace_popFrame]

end

/-! ## Allocation -/

section
variable {r : Runner} {d : Descriptor} {p : Payload} {w w' : World}

open Run

theorem allocateNow_of_ok (h : (collectIfDue r).exec w = (.ok (), w')) :
    (allocateNow r d p).trace w = (collectIfDue r).trace w ++ [⟨.place d p, w'.heap⟩] ∧
      ((allocateNow r d p).exec w).1 = .ok (.ref (w'.heap.place d p).1) ∧
      ((allocateNow r d p).exec w).2.heap = (w'.heap.place d p).2 := by
  unfold allocateNow
  rw [exec_bind, trace_bind, h]
  simp only [trace_bind, exec_bind, trace_look, exec_look, trace_act, exec_act, List.nil_append]
  split <;> exact ⟨rfl, rfl, rfl⟩

theorem allocateNow_of_error {why : Halt} (h : (collectIfDue r).exec w = (.error why, w')) :
    (allocateNow r d p).trace w = (collectIfDue r).trace w ∧
      (allocateNow r d p).exec w = (.error why, w') := by
  unfold allocateNow
  rw [exec_bind, trace_bind, h]
  exact ⟨List.append_nil _, rfl⟩

theorem allocate_of_unknown (h : w.heap.registry.size ≤ d.index) :
    (allocate r d p).run.trace w = [] ∧
      (allocate r d p).run.exec w = (.ok (.error (.unknownDescriptor d)), w) := by
  simp only [allocate, Attempt.exec_bind, Attempt.exec_lift, heap, exec_look, trace_attempt_bind,
    trace_lift, trace_look, List.nil_append, if_pos h]
  exact ⟨rfl, rfl⟩

theorem allocate_of_known (h : d.index < w.heap.registry.size) :
    (allocate r d p).run.trace w = (allocateNow r d p).trace w ∧
      (allocate r d p).run.exec w = (liftM (allocateNow r d p) : Attempt Value).run.exec w := by
  have hunknown : ¬ w.heap.registry.size ≤ d.index := Nat.not_le.mpr h
  constructor
  · simp only [allocate, trace_attempt_bind, Attempt.exec_lift, heap, exec_look, trace_lift,
      trace_look, List.nil_append, if_neg hunknown]
  · simp only [allocate, Attempt.exec_bind, Attempt.exec_lift, heap, exec_look, if_neg hunknown]

end

namespace Session

def stepsTrace (s : Session) (r : Runner) : List Step → World → List Transition
  | [], _ => []
  | step :: rest, w => (step.run r).run.trace w ++ s.stepsTrace r rest (s.runStep r step w).2

def opened (s : Session) : World :=
  (s.takeLog (s.opening.exec (s.start (Heap.new s.config))).2).2

def closing (s : Session) (r : Runner) : World := (s.runSteps r s.steps s.opened).2

/-- The transitions of a session: the registration of the containers, the steps, and the release
of the heap. -/
def history (s : Session) (r : Runner) : List Transition :=
  s.opening.trace (s.start (Heap.new s.config)) ++
    (s.stepsTrace r s.steps s.opened ++ (teardown r).trace (s.closing r))

def moments (s : Session) (r : Runner) : List Heap :=
  Heap.new s.config :: (s.history r).map Transition.after

theorem path_stepsTrace (s : Session) (r : Runner) (steps : List Step) :
    ∀ w : World, Path w.heap (s.stepsTrace r steps w) (s.runSteps r steps w).2.heap := by
  induction steps with
  | nil => exact fun w => .nil w.heap
  | cons step rest ih =>
    intro w
    exact ((step.run r).run.path_trace w).append (ih (s.runStep r step w).2)

theorem path_closing (s : Session) (r : Runner) :
    Path (Heap.new s.config)
      (s.opening.trace (s.start (Heap.new s.config)) ++ s.stepsTrace r s.steps s.opened)
      (s.closing r).heap :=
  (s.opening.path_trace _).append (s.path_stepsTrace r s.steps s.opened)

theorem path_history (s : Session) (r : Runner) :
    ∃ h, Path (Heap.new s.config) (s.history r) h :=
  ⟨_, (s.opening.path_trace _).append
    ((s.path_stepsTrace r s.steps s.opened).append ((teardown r).path_trace (s.closing r)))⟩

/-- What comes before a transition of a session leads to the heap that it finds. -/
theorem path_before {s : Session} {r : Runner} {past rest : List Transition} {t : Transition}
    (heq : s.history r = past ++ t :: rest) : Path (Heap.new s.config) past t.before := by
  obtain ⟨_, path⟩ := s.path_history r
  rw [heq] at path
  obtain ⟨_, before, after⟩ := path.split
  cases after with
  | cons _ _ => exact before

theorem history_cut (s : Session) (r : Runner) (a b : Nat) :
    s.history r = (s.history r).take a ++
        (((s.history r).drop a).take b ++ ((s.history r).drop a).drop b) ∧
      ∃ h h', Path (Heap.new s.config) ((s.history r).take a) h ∧
        Path h (((s.history r).drop a).take b) h' := by
  have heq : s.history r = (s.history r).take a ++
      (((s.history r).drop a).take b ++ ((s.history r).drop a).drop b) := by
    rw [List.take_append_drop, List.take_append_drop]
  obtain ⟨_, path⟩ := s.path_history r
  rw [heq] at path
  obtain ⟨h, past, path⟩ := path.split
  obtain ⟨h', mid, _⟩ := path.split
  exact ⟨heq, h, h', past, mid⟩

theorem mem_moments {s : Session} {r : Runner} {past rest : List Transition} {h : Heap}
    (heq : s.history r = past ++ rest) (path : Path (Heap.new s.config) past h) :
    h ∈ s.moments r := by
  rw [moments, heq]
  exact List.cons_subset_cons _ (List.map_subset _ (List.subset_append_left _ _)) path.end_mem

theorem closing_mem_moments (s : Session) (r : Runner) :
    (s.closing r).heap ∈ s.moments r :=
  mem_moments (List.append_assoc _ _ _).symm (s.path_closing r)

/-- Each moment of a session is the end of a first part of its history. -/
theorem exists_path_of_mem_moments {s : Session} {r : Runner} {h : Heap} (hh : h ∈ s.moments r) :
    ∃ past rest, s.history r = past ++ rest ∧ Path (Heap.new s.config) past h := by
  rcases List.mem_cons.mp hh with rfl | hh
  · exact ⟨[], _, rfl, .nil _⟩
  · obtain ⟨t, ht, rfl⟩ := List.mem_map.mp hh
    obtain ⟨past, rest, heq⟩ := List.append_of_mem ht
    exact ⟨past ++ [t], rest, by rw [heq, List.append_assoc]; rfl,
      (path_before heq).append (.cons t (.nil _))⟩

/-- What every transition of a session keeps holds at all its moments. -/
theorem forall_moments {I : Heap → Prop} (s : Session) (r : Runner)
    (start : I (Heap.new s.config)) (keeps : ∀ t ∈ s.history r, I t.before → I t.after) :
    ∀ h ∈ s.moments r, I h := by
  obtain ⟨_, path⟩ := s.path_history r
  intro h hh
  rcases List.mem_cons.mp hh with rfl | hh
  · exact start
  · obtain ⟨t, ht, rfl⟩ := List.mem_map.mp hh
    exact ((path.invariant keeps start).2 t ht).2

end Session

end TracedHeap
