import TracedHeap.Proofs.Trace

/-!
# Conversion to a sequence, step by step

* `toSequence_of_current`   a result that is remembered is given again, and nothing happens;
* `toSequence_of_callback`  otherwise the callback runs inside a frame, and what it answers is
                            remembered;
* `toSequence_cases`        one of the two, or there is no sequence;
* `exec_convert`, `trace_convert`
                            what happens inside that frame.
-/

namespace TracedHeap

open Run

theorem Heap.find_of_get? {h : Heap} {id : InstanceId} {x : Instance}
    (hx : h.pool.get? id = some x) : h.find (.ref id) = .ok (id, x) := by
  simp only [find, hx]

theorem Heap.find_of_none {h : Heap} {id : InstanceId} (hx : h.pool.get? id = none) :
    h.find (.ref id) = .error (.stale id) := by
  simp only [find, hx]

theorem Heap.callback_of_get? {h : Heap} {id : InstanceId} {x : Instance}
    (hx : h.pool.get? id = some x) (b : Behavior) :
    h.callback b (.ref id) = .ok (h.registry.callback? x.descriptor b) := by
  unfold callback
  rw [find_of_get? hx]
  rfl

theorem Heap.callback_eq_some {h : Heap} {b : Behavior} {v : Value} {c : Callback b}
    (hc : h.callback b v = .ok (some c)) :
    ∃ id x, v = .ref id ∧ h.pool.get? id = some x ∧
      h.registry.callback? x.descriptor b = some c := by
  cases v with
  | ref id =>
    cases hx : h.pool.get? id with
    | none =>
      unfold callback at hc
      rw [find_of_none hx] at hc
      cases hc
    | some x =>
      rw [callback_of_get? hx] at hc
      exact ⟨id, x, rfl, hx, Except.ok.inj hc⟩
  | _ => cases hc

theorem ask_bind_of_ok {α β : Type} {f : Heap → Except Error α} {a : α} {w : World}
    (h : f w.heap = .ok a) (next : α → Attempt β) :
    (Attempt.ask f >>= next).run.exec w = (next a).run.exec w ∧
      (Attempt.ask f >>= next).run.trace w = (next a).run.trace w := by
  rw [Attempt.exec_bind, trace_attempt_bind, Attempt.exec_ask, h]
  exact ⟨rfl, rfl⟩

theorem ask_bind_of_error {α β : Type} {f : Heap → Except Error α} {e : Error} {w : World}
    (h : f w.heap = .error e) (next : α → Attempt β) :
    (Attempt.ask f >>= next).run.exec w = (.ok (.error e), w) ∧
      (Attempt.ask f >>= next).run.trace w = [] := by
  rw [Attempt.exec_bind, trace_attempt_bind, Attempt.exec_ask, h]
  exact ⟨rfl, rfl⟩

/-- A callback announces itself, which leaves the heap as it is, and then does its work. -/
theorem run_ofDepth_succ (n : Nat) {b : Behavior} (c : Callback b) (args : b.Args) (w : World) :
    ((Runner.ofDepth (n + 1)).run b c args).exec w = (c.run (.ofDepth n) args).exec w ∧
      ((Runner.ofDepth (n + 1)).run b c args).trace w =
        ⟨.invoke b c args, w.heap⟩ :: (c.run (.ofDepth n) args).trace w :=
  bind_of_ok (exec_act (.invoke b c args) w) fun _ => c.run (.ofDepth n) args

theorem run_ofDepth_zero {b : Behavior} (c : Callback b) (args : b.Args) (w : World) :
    ((Runner.ofDepth 0).run b c args).exec w = (.error .exhausted, w) ∧
      ((Runner.ofDepth 0).run b c args).trace w = [⟨.invoke b c args, w.heap⟩] :=
  bind_of_ok (exec_act (.invoke b c args) w) fun _ => exhausted

/-! ## The frame of a conversion -/

/-- What happens inside the frame of a conversion: the callback runs, and its answer is attached. -/
def convertInside (r : Runner) (c : Callback .toSequence) (v : Value) :
    Run (Except Error Value) := do
  match ← r.run .toSequence c v with
  | .error e => return .error e
  | .ok sequence =>
    let _ ← act (.attach sequence)
    return .ok sequence

theorem run_convert (r : Runner) (c : Callback .toSequence) (v : Value) :
    (convert r c v).run = withFrame v (convertInside r c v) := rfl

section
variable {r : Runner} {c : Callback .toSequence} {v : Value} {w w' : World}

theorem convertInside_of_ok {q : Value} (h : (r.run .toSequence c v).exec w = (.ok (.ok q), w')) :
    (convertInside r c v).exec w = (.ok (.ok q), { w' with heap := (w'.heap.attach q).2 }) ∧
      (convertInside r c v).trace w =
        (r.run .toSequence c v).trace w ++ [⟨.attach q, w'.heap⟩] := by
  obtain ⟨hexec, htrace⟩ := bind_of_ok h fun reply =>
    match reply with
    | .error e => pure (Except.error e)
    | .ok sequence => do
      let _ ← act (.attach sequence)
      pure (Except.ok sequence)
  exact ⟨hexec, htrace⟩

theorem convertInside_of_error {e : Error}
    (h : (r.run .toSequence c v).exec w = (.ok (.error e), w')) :
    (convertInside r c v).exec w = (.ok (.error e), w') ∧
      (convertInside r c v).trace w = (r.run .toSequence c v).trace w := by
  obtain ⟨hexec, htrace⟩ := bind_of_ok h fun reply =>
    match reply with
    | .error e => pure (Except.error e)
    | .ok sequence => do
      let _ ← act (.attach sequence)
      pure (Except.ok sequence)
  exact ⟨hexec, htrace.trans (List.append_nil _)⟩

theorem convertInside_of_halt {why : Halt}
    (h : (r.run .toSequence c v).exec w = (.error why, w')) :
    (convertInside r c v).exec w = (.error why, w') ∧
      (convertInside r c v).trace w = (r.run .toSequence c v).trace w :=
  bind_of_error h _

theorem exec_convert (r : Runner) (c : Callback .toSequence) (v : Value) (w : World) :
    ((convert r c v).run.exec w).1 = ((r.run .toSequence c v).exec (w.inFrame v)).1 := by
  rw [run_convert, (exec_withFrame v _ w).1]
  rcases hreply : (r.run .toSequence c v).exec (w.inFrame v) with ⟨why | e | q, w'⟩
  · rw [(convertInside_of_halt hreply).1]
  · rw [(convertInside_of_error hreply).1]
  · rw [(convertInside_of_ok hreply).1]

theorem trace_convert (r : Runner) (c : Callback .toSequence) (v : Value) (w : World) :
    ∃ last, (convert r c v).run.trace w =
        ⟨.pushFrame v, w.heap⟩ :: ((r.run .toSequence c v).trace (w.inFrame v) ++ last) ∧
      ∀ t ∈ last, (∃ q h, t = ⟨.attach q, h⟩) ∨ ∃ h, t = ⟨.popFrame, h⟩ := by
  rw [run_convert, trace_withFrame]
  rcases hreply : (r.run .toSequence c v).exec (w.inFrame v) with ⟨why | e | q, w'⟩
  · rw [(convertInside_of_halt hreply).2]
    refine ⟨_, rfl, fun t ht => .inr ⟨_, List.mem_singleton.mp ht⟩⟩
  · rw [(convertInside_of_error hreply).2]
    refine ⟨_, rfl, fun t ht => .inr ⟨_, List.mem_singleton.mp ht⟩⟩
  · rw [(convertInside_of_ok hreply).2, List.append_assoc]
    refine ⟨_, rfl, fun t ht => ?_⟩
    rcases List.mem_append.mp ht with ht | ht
    · exact .inl ⟨_, _, List.mem_singleton.mp ht⟩
    · exact .inr ⟨_, List.mem_singleton.mp ht⟩

end

/-! ## Changes -/

theorem exec_change_of_get? {w : World} {id : InstanceId} {x : Instance}
    (hx : w.heap.pool.get? id = some x) (c : Change) :
    (Attempt.change (.ref id) c).run.exec w =
        (.ok (.ok ()), { w with heap := w.heap.change (.ref id) c }) ∧
      (Attempt.change (.ref id) c).run.trace w = [⟨.change (.ref id) c, w.heap⟩] :=
  ask_bind_of_ok (f := fun h => h.find (.ref id)) (Heap.find_of_get? hx) fun _ =>
    Attempt.act (.change (.ref id) c)

theorem exec_change_of_none {w : World} {id : InstanceId} (hx : w.heap.pool.get? id = none)
    (c : Change) :
    (Attempt.change (.ref id) c).run.exec w = (.ok (.error (.stale id)), w) ∧
      (Attempt.change (.ref id) c).run.trace w = [] :=
  ask_bind_of_error (f := fun h => h.find (.ref id)) (Heap.find_of_none hx) fun _ =>
    Attempt.act (.change (.ref id) c)

/-! ## What is remembered -/

def rememberSequence (v sequence : Value) : Attempt Value := do
  Attempt.change v (.remember sequence)
  return sequence

section
variable {r : Runner} {c : Callback .toSequence} {id : InstanceId} {x : Instance} {w : World}

theorem rememberSequence_of_get? (hx : w.heap.pool.get? id = some x) (q : Value) :
    (rememberSequence (.ref id) q).run.exec w =
        (.ok (.ok q), { w with heap := w.heap.change (.ref id) (.remember q) }) ∧
      (rememberSequence (.ref id) q).run.trace w = [⟨.change (.ref id) (.remember q), w.heap⟩] := by
  obtain ⟨hexec, htrace⟩ := exec_change_of_get? hx (.remember q)
  unfold rememberSequence
  rw [Attempt.exec_bind, trace_attempt_bind, hexec, htrace]
  exact ⟨rfl, rfl⟩

theorem rememberSequence_of_none (hx : w.heap.pool.get? id = none) (q : Value) :
    (rememberSequence (.ref id) q).run.exec w = (.ok (.error (.stale id)), w) ∧
      (rememberSequence (.ref id) q).run.trace w = [] := by
  obtain ⟨hexec, htrace⟩ := exec_change_of_none hx (.remember q)
  unfold rememberSequence
  rw [Attempt.exec_bind, trace_attempt_bind, hexec, htrace]
  exact ⟨rfl, rfl⟩

/-- A result that is remembered is given again, and nothing happens. -/
theorem toSequence_of_current (hc : w.heap.callback .toSequence (.ref id) = .ok (some c))
    (hx : w.heap.pool.get? id = some x) {q : Value} (hq : x.sequence.current? = some q) :
    (toSequence r (.ref id)).run.exec w = (.ok (.ok q), w) ∧
      (toSequence r (.ref id)).run.trace w = [] := by
  unfold toSequence
  rw [(ask_bind_of_ok hc _).1, (ask_bind_of_ok hc _).2]
  simp only
  rw [(ask_bind_of_ok (Heap.find_of_get? hx) _).1, (ask_bind_of_ok (Heap.find_of_get? hx) _).2]
  simp only [hq]
  exact ⟨rfl, rfl⟩

/-- Otherwise the callback runs, and its answer is remembered. -/
theorem toSequence_of_callback (hc : w.heap.callback .toSequence (.ref id) = .ok (some c))
    (hx : w.heap.pool.get? id = some x) (hq : x.sequence.current? = none) :
    (toSequence r (.ref id)).run.exec w =
        (convert r c (.ref id) >>= rememberSequence (.ref id)).run.exec w ∧
      (toSequence r (.ref id)).run.trace w =
        (convert r c (.ref id) >>= rememberSequence (.ref id)).run.trace w := by
  unfold toSequence
  rw [(ask_bind_of_ok hc _).1, (ask_bind_of_ok hc _).2]
  simp only
  rw [(ask_bind_of_ok (Heap.find_of_get? hx) _).1, (ask_bind_of_ok (Heap.find_of_get? hx) _).2]
  simp only [hq]
  exact ⟨rfl, rfl⟩

/-- A live instance has a sequence that is remembered, or none, or a callback that makes it. -/
theorem toSequence_cases (r : Runner) (hx : w.heap.pool.get? id = some x) :
    (∃ q, (toSequence r (.ref id)).run.exec w = (.ok (.ok q), w) ∧
        (toSequence r (.ref id)).run.trace w = []) ∨
      ∃ c, w.heap.callback .toSequence (.ref id) = .ok (some c) ∧ x.sequence.current? = none := by
  have hcallback := Heap.callback_of_get? hx .toSequence
  rw [hcallback]
  cases hc : w.heap.registry.callback? x.descriptor .toSequence with
  | none =>
    rw [hc] at hcallback
    refine .inl ⟨.nil, ?_⟩
    unfold toSequence
    rw [(ask_bind_of_ok hcallback _).1, (ask_bind_of_ok hcallback _).2]
    exact ⟨rfl, rfl⟩
  | some c =>
    rw [hc] at hcallback
    cases hq : x.sequence.current? with
    | none => exact .inr ⟨c, rfl, rfl⟩
    | some q => exact .inl ⟨q, toSequence_of_current hcallback hx hq⟩

/-- After the conversion there is nothing but the change that remembers its answer. -/
theorem trace_convert_remember (r : Runner) (c : Callback .toSequence) (id : InstanceId)
    (w : World) :
    ∃ last, (convert r c (.ref id) >>= rememberSequence (.ref id)).run.trace w =
        (convert r c (.ref id)).run.trace w ++ last ∧
      ∀ t ∈ last, ∃ q h, t = ⟨.change (.ref id) (.remember q), h⟩ := by
  rw [trace_attempt_bind]
  rcases (convert r c (.ref id)).run.exec w with ⟨why | e | q, w'⟩
  · exact ⟨[], rfl, by simp⟩
  · exact ⟨[], rfl, by simp⟩
  · refine ⟨_, rfl, fun t ht => ?_⟩
    simp only at ht
    cases hx : w'.heap.pool.get? id with
    | none =>
      rw [(rememberSequence_of_none hx q).2] at ht
      cases ht
    | some x =>
      rw [(rememberSequence_of_get? hx q).2] at ht
      exact ⟨q, w'.heap, List.mem_singleton.mp ht⟩

theorem convert_remember_of_ok {w' : World} {q : Value}
    (h : (convert r c (.ref id) >>= rememberSequence (.ref id)).run.exec w = (.ok (.ok q), w')) :
    ((r.run .toSequence c (.ref id)).exec (w.inFrame (.ref id))).1 = .ok (.ok q) ∧
      ∃ heap, (convert r c (.ref id) >>= rememberSequence (.ref id)).run.trace w =
        (convert r c (.ref id)).run.trace w ++ [⟨.change (.ref id) (.remember q), heap⟩] := by
  have reply := exec_convert r c (.ref id) w
  rw [Attempt.exec_bind] at h
  rw [trace_attempt_bind]
  rcases hconvert : (convert r c (.ref id)).run.exec w with ⟨why | e | q', w''⟩
  · rw [hconvert] at h
    cases h
  · rw [hconvert] at h
    cases h
  · rw [hconvert] at h reply
    simp only at h ⊢
    cases hx : w''.heap.pool.get? id with
    | none =>
      rw [(rememberSequence_of_none hx q').1] at h
      cases h
    | some x =>
      rw [(rememberSequence_of_get? hx q').1] at h
      cases h
      refine ⟨reply.symm, w''.heap, ?_⟩
      rw [(rememberSequence_of_get? hx q).2]

end

end TracedHeap
