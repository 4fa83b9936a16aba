import TracedHeap.Proofs.Conversion
import TracedHeap.Proofs.Effect

/-!
# Sequences that are remembered

What a conversion of an instance gives is remembered until it is invalidated.  This module follows
through a run what is remembered, and shows that the heap has exactly this.  An invalidation counts
at once; but a conversion that is under way has its answer remembered when it ends, and then the
invalidations of the meantime are forgotten.

* `rememberedAfter`        what is remembered for an instance after transitions;
* `Path.current?_eq`       the heap remembers this and nothing else;
* `Converts`               a conversion in which the callback runs, and whose answer is the answer
                           of the callback;
* `invalidation_kept`      after an invalidation, and until an answer is remembered, conversions run
                           the callback;
* `invalidation_lost`      an invalidation inside a conversion that is lost.
-/

namespace TracedHeap

open Run

namespace Transition

def remembers (id : InstanceId) : Transition → Bool
  | ⟨.change (.ref other) (.remember _), _⟩ => other == id
  | _ => false

def invalidates (id : InstanceId) : Transition → Bool
  | ⟨.change (.ref other) .invalidateSequence, _⟩ => other == id
  | _ => false

/-- What is remembered for `id` after a transition, if it was `q` before.  Nothing is remembered for
a new instance, even if it has the name of an earlier one. -/
def remembered (id : InstanceId) (q : Option Value) : Transition → Option Value
  | ⟨.change (.ref other) (.remember v), _⟩ => if other = id then some v else q
  | ⟨.change (.ref other) .invalidateSequence, _⟩ => if other = id then none else q
  | ⟨.place d p, h⟩ => if (h.place d p).1 = id then none else q
  | _ => q

end Transition

def rememberedAfter (id : InstanceId) (ts : List Transition) : Option Value :=
  ts.foldl (Transition.remembered id) none

section
variable {id : InstanceId} {q : Option Value} {t : Transition} {ts : List Transition}

theorem Transition.remembered_of_invalidates (h : t.invalidates id = true) :
    t.remembered id q = none := by
  obtain ⟨a, heap⟩ := t
  cases a with
  | change v c =>
    cases v with
    | ref other =>
      cases c with
      | invalidateSequence => exact if_pos (eq_of_beq h)
      | _ => cases h
    | _ => cases h
  | _ => cases h

theorem Transition.remembered_none (h : t.remembers id = false) : t.remembered id none = none := by
  obtain ⟨a, heap⟩ := t
  cases a with
  | change v c =>
    cases v with
    | ref other =>
      cases c with
      | remember v => exact if_neg (ne_of_beq_false h)
      | invalidateSequence => exact ite_self none
      | _ => rfl
    | _ => rfl
  | place d p => exact ite_self none
  | _ => rfl

theorem foldl_remembered_none (h : ∀ t ∈ ts, t.remembers id = false) :
    ts.foldl (Transition.remembered id) none = none := by
  induction ts with
  | nil => rfl
  | cons t ts ih =>
    obtain ⟨here, later⟩ := List.forall_mem_cons.mp h
    rw [List.foldl_cons, t.remembered_none here]
    exact ih later

/-- After an invalidation nothing is remembered, until the answer of a conversion is. -/
theorem rememberedAfter_of_invalidates {past later : List Transition} (h : t.invalidates id = true)
    (since : ∀ u ∈ later, u.remembers id = false) :
    rememberedAfter id (past ++ t :: later) = none := by
  unfold rememberedAfter
  rw [List.foldl_append, List.foldl_cons, Transition.remembered_of_invalidates h]
  exact foldl_remembered_none since

theorem rememberedAfter_remember (past : List Transition) (v : Value) (h : Heap) :
    rememberedAfter id (past ++ [⟨.change (.ref id) (.remember v), h⟩]) = some v := by
  unfold rememberedAfter
  rw [List.foldl_append]
  exact if_pos rfl

end

/-! ## The heap remembers this and nothing else -/

section
variable {id : InstanceId} {x : Instance} {t : Transition}

theorem Transition.current?_effect (old : t.placed? ≠ some id) (x : Instance) :
    (t.effect id x).sequence.current? = t.remembered id x.sequence.current? := by
  obtain ⟨a, h⟩ := t
  cases a with
  | change v c =>
    cases v with
    | ref other =>
      show (if other = id then c.apply x else x).sequence.current? = _
      cases c with
      | remember v =>
        show _ = if other = id then some v else _
        split <;> rfl
      | invalidateSequence =>
        show _ = if other = id then none else _
        split
        · show x.sequence.invalidate.current? = none
          cases x.sequence <;> rfl
        · rfl
      | advanceCursor len =>
        split
        · show (x.advance len).2.sequence.current? = _
          unfold Instance.advance
          split <;> rfl
        · rfl
      | _ => split <;> rfl
    | _ => rfl
  | startUse a other | stopUse a other =>
    show (if other = id then _ else x).sequence.current? = _
    split <;> rfl
  | place d p =>
    have hne : (h.place d p).1 ≠ id := fun heq => old (congrArg some heq)
    exact (if_neg hne).symm
  | _ => rfl

/-- A transition changes what the heap remembers as it changes what is remembered. -/
theorem Transition.current?_after {q : Option Value} (sound : t.before.SoundPool)
    (before : ∀ x, t.before.pool.get? id = some x → x.sequence.current? = q) :
    ∀ y, t.after.pool.get? id = some y → y.sequence.current? = t.remembered id q := by
  intro y hy
  by_cases hplaced : t.placed? = some id
  · obtain ⟨a, h⟩ := t
    cases a with
    | place d p =>
      have hid : (h.place d p).1 = id := Option.some.inj hplaced
      obtain ⟨z, hz, hnew⟩ := Heap.get?_place_self sound d p
      have hy : (h.place d p).2.pool.get? id = some y := hy
      rw [← hid, hz] at hy
      cases hy
      show _ = if (h.place d p).1 = id then none else q
      rw [if_pos hid, hnew.sequence]
      rfl
    | _ => cases hplaced
  · rcases t.poolStep.came hy with hcame | ⟨⟨x, hx⟩, kept⟩
    · exact absurd hcame hplaced
    · obtain ⟨z, hz, hxz⟩ := t.effect_of_get? sound hx kept
      rw [hy] at hz
      cases hz
      rw [hxz.sequence, t.current?_effect hplaced, before x hx]

theorem Path.current? {h h' : Heap} {ts : List Transition} (p : Path h ts h') {q : Option Value}
    (sound : h.SoundPool) (before : ∀ x, h.pool.get? id = some x → x.sequence.current? = q) :
    ∀ x, h'.pool.get? id = some x →
      x.sequence.current? = ts.foldl (Transition.remembered id) q := by
  induction p generalizing q with
  | nil => exact before
  | cons t _ ih => exact ih (t.soundPool sound) (t.current?_after sound before)

/-- After any transitions from a fresh heap, what the heap remembers is what was remembered last and
not invalidated since. -/
theorem Path.current?_eq {config : Config} (valid : config.fault? = none) {ts : List Transition}
    {h : Heap} (p : Path (Heap.new config) ts h) (hx : h.pool.get? id = some x) :
    x.sequence.current? = rememberedAfter id ts := by
  refine p.current? (Heap.soundPool_new valid) (fun y hy => ?_) x hx
  have hnone : (Heap.new config).pool.get? id = none := rfl
  rw [hnone] at hy
  cases hy

end

/-! ## Conversions -/

/-- The conversion of `id` calls the callback `c`, and if it has an answer, it is the answer that
this call of `c` gives. -/
structure Converts (r : Runner) (c : Callback .toSequence) (id : InstanceId) (w : World) :
    Prop where
  calls : ∃ rest, (toSequence r (.ref id)).run.trace w = ⟨.pushFrame (.ref id), w.heap⟩ ::
    ⟨.invoke .toSequence c (.ref id), w.heap.pushFrame (.ref id)⟩ :: rest
  answers : ∀ q, ((toSequence r (.ref id)).run.exec w).1 = .ok (.ok q) →
    ((r.run .toSequence c (.ref id)).exec (w.inFrame (.ref id))).1 = .ok (.ok q)

section
variable {w : World} {id : InstanceId} {x : Instance} {c : Callback .toSequence}

theorem trace_ofDepth (n : Nat) {b : Behavior} (c : Callback b) (args : b.Args) (w : World) :
    ∃ rest, ((Runner.ofDepth n).run b c args).trace w = ⟨.invoke b c args, w.heap⟩ :: rest := by
  cases n with
  | zero => exact ⟨[], (run_ofDepth_zero c args w).2⟩
  | succ n => exact ⟨_, (run_ofDepth_succ n c args w).2⟩

theorem converts_of_none (n : Nat) (hc : w.heap.callback .toSequence (.ref id) = .ok (some c))
    (hx : w.heap.pool.get? id = some x) (hq : x.sequence.current? = none) :
    Converts (.ofDepth n) c id w := by
  obtain ⟨hexec, htrace⟩ := toSequence_of_callback (r := .ofDepth n) hc hx hq
  refine ⟨?_, fun q hok => ?_⟩
  · obtain ⟨last, hsplit, _⟩ := trace_convert_remember (.ofDepth n) c id w
    obtain ⟨after, hconvert, _⟩ := trace_convert (.ofDepth n) c (.ref id) w
    obtain ⟨rest, hrun⟩ := trace_ofDepth n c (.ref id) (w.inFrame (.ref id))
    rw [htrace, hsplit, hconvert, hrun, World.heap_inFrame]
    exact ⟨_, rfl⟩
  · rw [hexec] at hok
    exact (convert_remember_of_ok (Prod.ext hok rfl)).1

/-- The answer of a conversion in which the callback ran is remembered when the conversion ends,
whatever was invalidated meanwhile. -/
theorem rememberedAfter_toSequence {r : Runner}
    (hc : w.heap.callback .toSequence (.ref id) = .ok (some c))
    (hx : w.heap.pool.get? id = some x) (hq : x.sequence.current? = none) {q : Value}
    (hok : ((toSequence r (.ref id)).run.exec w).1 = .ok (.ok q)) (past : List Transition) :
    rememberedAfter id (past ++ (toSequence r (.ref id)).run.trace w) = some q := by
  obtain ⟨hexec, htrace⟩ := toSequence_of_callback (r := r) hc hx hq
  rw [hexec] at hok
  obtain ⟨_, h, hlast⟩ := convert_remember_of_ok (Prod.ext hok rfl)
  rw [htrace, hlast, ← List.append_assoc]
  exact rememberedAfter_remember _ q h

/-- A value that was set ends with the invalidation of its sequence. -/
theorem trace_setItem_of_ok {r : Runner} {index item : Value} {w' : World}
    (h : (setItem r (.ref id) index item).run.exec w = (.ok (.ok true), w')) :
    ∃ us heap, (setItem r (.ref id) index item).run.trace w =
      us ++ [⟨.change (.ref id) .invalidateSequence, heap⟩] := by
  unfold setItem at h ⊢
  rcases hc : w.heap.callback .set (.ref id) with e | _ | c
  · rw [(ask_bind_of_error hc _).1] at h
    cases h
  · rw [(ask_bind_of_ok hc _).1] at h
    cases h
  · rw [(ask_bind_of_ok hc _).1] at h
    rw [(ask_bind_of_ok hc _).2]
    simp only [Attempt.exec_bind, trace_attempt_bind, Attempt.exec_ofRun] at h ⊢
    rcases hset : (r.run .set c (.ref id, index, item)).exec w with ⟨why | e | _, w₁⟩
    · rw [hset] at h
      cases h
    · rw [hset] at h
      cases h
    · rw [hset] at h
      simp only at h ⊢
      cases hx : w₁.heap.pool.get? id with
      | none =>
        rw [(exec_change_of_none hx _).1] at h
        cases h
      | some x =>
        rw [(exec_change_of_get? hx _).1, (exec_change_of_get? hx _).2]
        exact ⟨_, w₁.heap, rfl⟩

end

/-- No invalidation is lost, unless it is made while the same instance is converted.  On a heap
after any transitions `ts` from a fresh one, let the type of `id` have the conversion `c`.

If some answer is remembered, a conversion gives it and does nothing.  Otherwise it calls `c`, its
answer is the one that this call gives, and that is remembered in the end, whatever was invalidated
meanwhile.  So let `id` have been invalidated at some moment, by an invalidation or by the setting
of an element, by whomever and inside whatever callback.  If no answer for `id` has been remembered
since, as happens when a conversion that was under way ends, the conversion calls `c`. -/
theorem invalidation_kept {config : Config} (valid : config.fault? = none) {ts : List Transition}
    {w : World} (path : Path (Heap.new config) ts w.heap) {id : InstanceId}
    {c : Callback .toSequence} (hc : w.heap.callback .toSequence (.ref id) = .ok (some c))
    (n : Nat) :
    let r := Runner.ofDepth n
    let x := (toSequence r (.ref id)).run
    (∀ q, rememberedAfter id ts = some q → x.exec w = (.ok (.ok q), w) ∧ x.trace w = []) ∧
      (rememberedAfter id ts = none → Converts r c id w ∧
        ∀ q, (x.exec w).1 = .ok (.ok q) → rememberedAfter id (ts ++ x.trace w) = some q) ∧
      (∀ past t later, ts = past ++ t :: later → t.invalidates id = true →
        (∀ u ∈ later, u.remembers id = false) → Converts r c id w) ∧
      (∀ u w', (Attempt.change (.ref id) .invalidateSequence).run.exec u = (.ok (.ok ()), w') →
        ∃ t, (Attempt.change (.ref id) .invalidateSequence).run.trace u = [t] ∧
          t.invalidates id = true) ∧
      ∀ index item u w', (setItem r (.ref id) index item).run.exec u = (.ok (.ok true), w') →
        ∃ us t, (setItem r (.ref id) index item).run.trace u = us ++ [t] ∧
          t.invalidates id = true := by
  intro r x
  obtain ⟨_, y, hid, hy, _⟩ := Heap.callback_eq_some hc
  cases hid
  have hcurrent := path.current?_eq valid hy
  refine ⟨fun q hq => toSequence_of_current hc hy (hcurrent.trans hq), fun hq => ?_,
    fun past t later hts ht since => ?_, fun u w' hok => ?_, fun index item u w' hok => ?_⟩
  · have hq := hcurrent.trans hq
    exact ⟨converts_of_none n hc hy hq, fun q hok => rememberedAfter_toSequence hc hy hq hok ts⟩
  · rw [hts, rememberedAfter_of_invalidates ht since] at hcurrent
    exact converts_of_none n hc hy hcurrent
  · cases hx : u.heap.pool.get? id with
    | none =>
      rw [(exec_change_of_none hx _).1] at hok
      cases hok
    | some z => exact ⟨_, (exec_change_of_get? hx _).2, beq_self_eq_true id⟩
  · obtain ⟨us, h, htrace⟩ := trace_setItem_of_ok hok
    exact ⟨us, _, htrace, beq_self_eq_true id⟩

def convertible (body more : List Step) : Session where
  containers := false
  steps := [.op (.register "cell" none),
    .install (.index ⟨0⟩) .toSequence "convert" body (.value (.const (.int 1))),
    .bind "v" (.op (.alloc .unit (.index ⟨0⟩)))] ++ more

theorem invalidation_kept_convertible :
    let s := convertible [] [.op (.toSequence (.var "v")), .op (.invalidateSequence (.var "v"))]
    let w := s.closing (.ofDepth 2)
    ∃ c, w.heap.callback .toSequence (.ref ⟨0, 0⟩) = .ok (some c) ∧
      Converts (.ofDepth 2) c ⟨0, 0⟩ w := by
  intro s w
  have found : (w.heap.callback .toSequence (.ref ⟨0, 0⟩)).toOption.join.isSome = true := by
    decide +kernel
  obtain ⟨c, hjoin⟩ := Option.isSome_iff_exists.mp found
  have hc : w.heap.callback .toSequence (.ref ⟨0, 0⟩) = .ok (some c) := by
    rcases hcallback : w.heap.callback .toSequence (.ref ⟨0, 0⟩) with e | reply
    · rw [hcallback] at hjoin
      cases hjoin
    · rw [hcallback] at hjoin
      exact congrArg Except.ok hjoin
  obtain ⟨_, _, kept, _⟩ := invalidation_kept (by rfl) (s.path_closing (.ofDepth 2)) hc 2
  have hlast : (s.opening.trace (s.start (Heap.new s.config)) ++
      s.stepsTrace (.ofDepth 2) s.steps s.opened).getLast?.any (·.invalidates ⟨0, 0⟩) = true := by
    decide +kernel
  obtain ⟨t, ht, hinvalidates⟩ := (Option.any_eq_true _ _).mp hlast
  obtain ⟨past, hts⟩ := List.getLast?_eq_some_iff.mp ht
  exact ⟨c, hc, kept past t [] hts hinvalidates (by simp)⟩

/-- An invalidation inside a conversion is lost: the callback invalidates its receiver and answers
1, and the next conversion gives this 1 again without calling it. -/
theorem invalidation_lost :
    let w := (convertible [.op (.invalidateSequence (.var "self"))] []).closing (.ofDepth 2)
    let x := (toSequence (.ofDepth 2) (.ref ⟨0, 0⟩)).run
    let w' := (x.exec w).2
    (x.exec w).1 = .ok (.ok (.int 1)) ∧ (∃ t ∈ x.trace w, t.invalidates ⟨0, 0⟩ = true) ∧
      (x.exec w').1 = .ok (.ok (.int 1)) ∧ (x.trace w').length = 0 := by
  intro w x w'
  exact ⟨by decide +kernel, by decide +kernel, by decide +kernel, by decide +kernel⟩

end TracedHeap
