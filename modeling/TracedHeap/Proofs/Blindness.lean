import TracedHeap.Proofs.Horizon

/-!
# Computations that keep within a horizon

A computation that uses what is known goes the same way whatever the hidden instance is like.  This
is said of the world it leaves and of what it answers, and that world is within the horizon again, so
that computations can be put together.

* `Run.Blind`     computations of this kind, with what is known of their answer;
* `blind_bind`, `blind_ensuring`, `blind_act`, `blind_look_bind`
                  the ways to put them together, and what they are made of;
* `Runner.Blind`  callbacks of this kind, by which all that is dispatched is (`blind_equal`,
                  `blind_getItem`, `blind_setItem` and the others).
-/

namespace TracedHeap

open Run

def World.put (w : World) (id : InstanceId) (y : Instance) : World :=
  { w with heap := w.heap.put id y }

/-- As long as nothing goes beyond the horizon, the computation goes the same way whatever the
hidden instance is like, leaves that instance alone, leaves a confined world and gives something
`good`. -/
def Run.Blind {α : Type} {id : InstanceId} (H : Horizon id) (y : Instance) (good : α → Prop)
    (x : Run α) : Prop :=
  ∀ w : World, w.Confined H → (∀ t ∈ x.trace w, t.within H = true) →
    x.exec (w.put id y) = ((x.exec w).1, (x.exec w).2.put id y) ∧ (x.exec w).2.Confined H ∧
      ∀ a, (x.exec w).1 = .ok a → good a

abbrev Attempt.Blind {α : Type} {id : InstanceId} (H : Horizon id) (y : Instance) (good : α → Prop)
    (x : Attempt α) : Prop :=
  x.run.Blind H y fun outcome => ∀ a, outcome = .ok a → good a

section
variable {id : InstanceId} {H : Horizon id} {y : Instance} {α β : Type} {good : α → Prop}
  {fine : β → Prop}

theorem blind_pure {a : α} (ha : good a) : (pure a : Run α).Blind H y good :=
  fun _ c _ => ⟨rfl, c, fun _ heq => Except.ok.inj heq ▸ ha⟩

theorem blind_halt (why : Halt) : (halt why : Run α).Blind H y good := fun _ c _ => ⟨rfl, c, nofun⟩

theorem blind_note {f : Context → Context}
    (hf : ∀ w : World, w.Confined H → World.Confined H { w with toContext := f w.toContext }) :
    (note f).Blind H y fun _ => True := fun w c _ => ⟨rfl, hf w c, fun _ _ => trivial⟩

theorem Run.Blind.mono {x : Run α} {better : α → Prop} (hx : x.Blind H y better)
    (le : ∀ a, better a → good a) : x.Blind H y good := by
  intro w c permitted
  obtain ⟨same, confined, hgood⟩ := hx w c permitted
  exact ⟨same, confined, fun a ha => le a (hgood a ha)⟩

theorem blind_bind {x : Run α} {next : α → Run β} (hx : x.Blind H y good)
    (hnext : ∀ a, good a → (next a).Blind H y fine) : (x >>= next).Blind H y fine := by
  intro w c permitted
  rcases hexec : x.exec w with ⟨why | a, w'⟩
  -- what is cut short is cut short on both sides, and the rest does not run
  · obtain ⟨hcut, htrace⟩ := bind_of_error hexec next
    rw [htrace] at permitted
    obtain ⟨same, confined, _⟩ := hx w c permitted
    rw [hexec] at same confined
    rw [hcut, (bind_of_error same next).1]
    exact ⟨rfl, confined, nofun⟩
  · obtain ⟨hok, htrace⟩ := bind_of_ok hexec next
    rw [htrace] at permitted
    obtain ⟨first, rest⟩ := List.forall_mem_append.mp permitted
    obtain ⟨same, confined, ha⟩ := hx w c first
    rw [hexec] at same confined ha
    rw [hok, (bind_of_ok same next).1]
    exact hnext a (ha a rfl) w' confined rest

theorem blind_ensuring {x : Run α} {last : Run Unit} {any : Unit → Prop} (hx : x.Blind H y good)
    (hlast : last.Blind H y any) : (ensuring x last).Blind H y good := by
  intro w c permitted
  obtain ⟨first, rest⟩ := List.forall_mem_append.mp permitted
  obtain ⟨same, confined, ha⟩ := hx w c first
  obtain ⟨same', confined', _⟩ := hlast _ confined rest
  refine ⟨Prod.ext ?_ ?_, ?_, fun a heq => ?_⟩
  · rw [exec_ensuring_fst, exec_ensuring_fst, same, same']
  · rw [exec_ensuring_snd, exec_ensuring_snd, same, same']
  · rw [exec_ensuring_snd]
    exact confined'
  · refine ha a ?_
    rw [exec_ensuring_fst] at heq
    cases hfst : (x.exec w).1 with
    | error why =>
      rw [hfst] at heq
      cases heq
    | ok a' =>
      rw [hfst] at heq
      cases hsnd : (last.exec (x.exec w).2).1 <;> rw [hsnd] at heq <;> cases heq
      rfl

/-- What is found by looking is the same, or at least what is done with it. -/
theorem blind_look_bind {f : World → α} {next : α → Run β}
    (same : ∀ w : World, w.Confined H → next (f (w.put id y)) = next (f w))
    (hnext : ∀ w : World, w.Confined H → (next (f w)).Blind H y fine) :
    (look f >>= next).Blind H y fine := by
  intro w c permitted
  have hexec : ∀ w, (look f >>= next).exec w = (next (f w)).exec w := fun w => by
    rw [exec_bind, exec_look]
  rw [hexec, hexec, same w c]
  exact hnext w c w c (by rwa [trace_bind, trace_look, exec_look] at permitted)

theorem blind_act_of {a : Action α} (given : ∀ v ∈ a.values, H.known v = true)
    (ha : ∀ h : Heap, h.Confined H → good (a.apply h).1) : (act a).Blind H y good := by
  intro w c permitted
  have calm : a.calm = true := (Bool.and_eq_true_iff.mp (permitted _ List.mem_cons_self)).1
  refine ⟨?_, ⟨Transition.confined (t := ⟨a, w.heap⟩) c.heap calm given, c.globals, c.scopes⟩,
    fun b hb => Except.ok.inj hb ▸ ha w.heap c.heap⟩
  rw [exec_act, exec_act]
  show (Except.ok (a.apply (w.heap.put id y)).1, _) = _
  rw [show (w.put id y).heap = w.heap.put id y from rfl, Action.apply_put c.heap calm given]
  rfl

theorem blind_act {a : Action α} (given : ∀ v ∈ a.values, H.known v = true) :
    (act a).Blind H y fun _ => True := blind_act_of given fun _ _ => trivial

theorem blind_beyond {a : Action α} (beyond : a.calm = false) (next : α → Run β) :
    (act a >>= next).Blind H y fine := by
  intro w _ permitted
  have calm := (Bool.and_eq_true_iff.mp (permitted ⟨a, w.heap⟩ (by simp))).1
  rw [show a.calm = true from calm] at beyond
  cases beyond

theorem blind_heap_bind {next : Heap → Run β}
    (same : ∀ h : Heap, h.Confined H → next (h.put id y) = next h)
    (hnext : ∀ h : Heap, h.Confined H → (next h).Blind H y fine) :
    (heap >>= next).Blind H y fine :=
  blind_look_bind (fun w c => same w.heap c.heap) fun w c => hnext w.heap c.heap

theorem blind_record (e : Entry) : (record e).Blind H y fun _ => True := by
  refine blind_note fun w c => ⟨c.heap, ?_, ?_⟩
  all_goals
    unfold Context.record
    split
  · exact c.globals
  · exact c.globals
  · exact c.scopes
  · exact c.scopes

theorem blind_report (e : Event) : (report e).Blind H y fun _ => True := blind_record _

/-! ## Computations that can be refused -/

theorem blind_attempt_pure {a : α} (ha : good a) : (pure a : Attempt α).Blind H y good :=
  blind_pure fun _ heq => Except.ok.inj heq ▸ ha

theorem blind_throw (e : Error) : (throw e : Attempt α).Blind H y good := blind_pure nofun

theorem blind_attempt_bind {x : Attempt α} {next : α → Attempt β} (hx : x.Blind H y good)
    (hnext : ∀ a, good a → (next a).Blind H y fine) : (x >>= next).Blind H y fine := by
  refine blind_bind hx fun outcome ha => ?_
  cases outcome with
  | error e => exact blind_pure nofun
  | ok a => exact hnext a (ha a rfl)

theorem blind_lift {x : Run α} (hx : x.Blind H y good) :
    (liftM x : Attempt α).Blind H y good :=
  blind_bind hx fun _ ha => blind_attempt_pure ha

theorem blind_ask {f : Heap → Except Error α} (same : ∀ h : Heap, f (h.put id y) = f h)
    (ha : ∀ h a, h.Confined H → f h = .ok a → good a) : (Attempt.ask f).Blind H y good :=
  fun w c _ => ⟨by rw [Attempt.exec_ask, Attempt.exec_ask, ← same w.heap]; rfl, c,
    fun outcome heq a ha' => ha w.heap a c.heap ((Except.ok.inj heq).trans ha')⟩

theorem blind_attempt_act {a : Action α} (given : ∀ v ∈ a.values, H.known v = true) :
    (Attempt.act a).Blind H y fun _ => True := blind_lift (blind_act given)

theorem blind_attempt_ensuring {x : Attempt α} {last : Run Unit} {any : Unit → Prop}
    (hx : x.Blind H y good) (hlast : last.Blind H y any) :
    (Attempt.ensuring x last).Blind H y good := blind_ensuring hx hlast

theorem blind_lift_look_bind {f : World → α} {next : α → Attempt β}
    (same : ∀ w : World, w.Confined H → next (f (w.put id y)) = next (f w))
    (hnext : ∀ w : World, w.Confined H → (next (f w)).Blind H y fine) :
    ((liftM (look f) : Attempt α) >>= next).Blind H y fine := by
  intro w c permitted
  rw [(lift_look_bind f w next).2] at permitted
  rw [(lift_look_bind f w next).1, (lift_look_bind f (w.put id y) next).1, same w c]
  exact hnext w c w c permitted

theorem blind_lift_heap_bind {next : Heap → Attempt β}
    (same : ∀ h : Heap, h.Confined H → next (h.put id y) = next h)
    (hnext : ∀ h : Heap, h.Confined H → (next h).Blind H y fine) :
    ((liftM heap : Attempt Heap) >>= next).Blind H y fine :=
  blind_lift_look_bind (fun w c => same w.heap c.heap) fun w c => hnext w.heap c.heap

end

/-! ## Frames and payloads -/

section
variable {id : InstanceId} {H : Horizon id} {y : Instance} {α : Type} {good : α → Prop}
  {v : Value}

theorem blind_find (hv : H.known v = true) :
    (Attempt.ask fun h => h.find v).Blind H y fun e => ∀ u ∈ e.2.values, H.known u = true :=
  blind_ask (fun _ => Heap.find_put (H.ne hv)) fun _ _ c he => c.find hv he

theorem blind_change (hv : H.known v = true) {c : Change}
    (hc : ∀ u ∈ c.values, H.known u = true) :
    (Attempt.change v c).Blind H y fun _ => True := by
  refine blind_attempt_bind (blind_find hv) fun _ _ => ?_
  exact blind_attempt_act (List.forall_mem_cons.mpr ⟨hv, hc⟩)

theorem blind_pushFrame (hv : H.known v = true) :
    (pushFrame v).Blind H y fun _ => True := by
  refine blind_heap_bind (fun h _ => rfl) fun h _ => ?_
  refine blind_bind (blind_act (List.forall_mem_singleton.mpr hv)) fun _ _ => ?_
  split
  · exact blind_report _
  · exact blind_pure trivial

theorem blind_popFrame : popFrame.Blind H y fun _ => True := by
  refine blind_look_bind (fun w _ => rfl) fun w _ => ?_
  refine blind_bind (blind_act nofun) fun _ _ => ?_
  split
  · exact blind_report _
  · exact blind_pure trivial

theorem blind_withFrame (hv : H.known v = true) {x : Run α} (hx : x.Blind H y good) :
    (withFrame v x).Blind H y good :=
  blind_bind (blind_pushFrame hv) fun _ _ => blind_ensuring hx blind_popFrame

/-- What is used of the payload of a known instance is known. -/
theorem blind_content (hv : H.known v = true) (access : Access) (k : Kind) :
    (Attempt.ask fun h => h.content access v k).Blind H y fun e =>
      H.known (.ref e.1) = true ∧ ∀ u ∈ (Payload.of k e.2).values, H.known u = true :=
  blind_ask (fun h => (H.looksAlike hv h y).content access k) fun _ _ c hc => c.content hv hc

theorem blind_read (hv : H.known v = true) (k : Kind) :
    (Attempt.ask fun h => h.read v k).Blind H y fun c =>
      ∀ u ∈ (Payload.of k c).values, H.known u = true := by
  refine blind_ask (fun h => (H.looksAlike hv h y).read k) fun h a c hread => ?_
  exact c.read hv hread

theorem blind_withPayload (hv : H.known v = true) {k : Kind} {x : k.Content → Attempt α}
    (hx : ∀ c, (∀ u ∈ (Payload.of k c).values, H.known u = true) → (x c).Blind H y good) :
    (withPayload v k x).Blind H y good := by
  refine blind_attempt_bind (blind_content hv .read k) fun e he => ?_
  have given : ∀ u ∈ [Value.ref e.1], H.known u = true := List.forall_mem_singleton.mpr he.1
  refine blind_attempt_bind (blind_attempt_act given) fun _ _ => ?_
  exact blind_attempt_ensuring (hx e.2 he.2) (blind_act given)

theorem blind_withPayloadMut (hv : H.known v = true) {k : Kind}
    {x : k.Content → Attempt (α × k.Content)}
    (hx : ∀ c, (∀ u ∈ (Payload.of k c).values, H.known u = true) → (x c).Blind H y fun e =>
      good e.1 ∧ ∀ u ∈ (Payload.of k e.2).values, H.known u = true) :
    (withPayloadMut v k x).Blind H y good := by
  refine blind_attempt_bind (blind_content hv .write k) fun e he => ?_
  have given : ∀ u ∈ [Value.ref e.1], H.known u = true := List.forall_mem_singleton.mpr he.1
  refine blind_attempt_bind (blind_attempt_act given) fun _ _ => ?_
  refine blind_attempt_ensuring ?_ (blind_act given)
  refine blind_attempt_bind (hx e.2 he.2) fun result hresult => ?_
  refine blind_attempt_bind
    (blind_attempt_act (List.forall_mem_cons.mpr ⟨he.1, hresult.2⟩)) fun _ _ => ?_
  exact blind_attempt_pure hresult.1

theorem blind_writePayload (hv : H.known v = true) {k : Kind}
    {f : k.Content → Except Error k.Content}
    (hf : ∀ c c', (∀ u ∈ (Payload.of k c).values, H.known u = true) → f c = .ok c' →
      ∀ u ∈ (Payload.of k c').values, H.known u = true) :
    (writePayload v k f).Blind H y fun _ => True := by
  refine blind_attempt_bind (?_ : Attempt.Blind H y (fun e : InstanceId × k.Content =>
    H.known (.ref e.1) = true ∧ ∀ u ∈ (Payload.of k e.2).values, H.known u = true) _)
      fun e he => ?_
  · refine blind_ask (fun h => ?_) fun h e c he => ?_
    · rw [(H.looksAlike hv h y).content]
    · rcases hcontent : h.content .write v k with e' | ⟨other, before⟩
      · rw [hcontent] at he
        cases he
      · rw [hcontent] at he
        cases hf' : f before with
        | error e' =>
          simp only [bind, Except.bind, hf'] at he
          cases he
        | ok after =>
          simp only [bind, Except.bind, hf'] at he
          cases he
          obtain ⟨hother, hbefore⟩ := c.content hv hcontent
          exact ⟨hother, hf before after hbefore hf'⟩
  · exact blind_attempt_act (List.forall_mem_cons.mpr ⟨he.1, he.2⟩)

end

/-! ## Callbacks -/

/-- The values among the arguments of a callback; the payload that `free` gets is not known. -/
def Behavior.given : (b : Behavior) → b.Args → List Value
  | .get, (v, index) => [v, index]
  | .set, (v, index, item) => [v, index, item]
  | .equal, (v, other) => [v, other]
  | .free, _ => []
  | .inspect, v | .toText, v | .dump, v | .toSequence, v | .copy, v | .length, v | .mark, v
  | .call, v => [v]

def Behavior.Known {id : InstanceId} (H : Horizon id) : (b : Behavior) → b.Reply → Prop
  | .toSequence, outcome | .copy, outcome | .get, outcome =>
    ∀ v, outcome = .ok v → H.known v = true
  | .inspect, _ | .toText, _ | .dump, _ | .set, _ | .equal, _ | .length, _ | .mark, _ | .free, _
  | .call, _ => True

/-- Callbacks on known values keep within the horizon. -/
def Runner.Blind {id : InstanceId} (H : Horizon id) (y : Instance) (r : Runner) : Prop :=
  ∀ b c args, (∀ v ∈ b.given args, H.known v = true) → (r.run b c args).Blind H y (b.Known H)

section
variable {id : InstanceId} {H : Horizon id} {y : Instance} {r : Runner} {v other : Value}

theorem blind_inspect (hr : r.Blind H y) (hv : H.known v = true) :
    (inspect r v).Blind H y fun _ => True := by
  refine blind_heap_bind (fun h _ => ?_) fun h _ => ?_
  · rw [(H.looksAlike hv h y).callback, (H.looksAlike hv h y).plainText]
  · split
    · exact hr .inspect _ v (List.forall_mem_singleton.mpr hv)
    · exact blind_pure trivial
    · exact blind_pure trivial

theorem blind_stringify (hr : r.Blind H y) (hv : H.known v = true) :
    (stringify r v).Blind H y fun _ => True := by
  refine blind_heap_bind (fun h _ => ?_) fun h _ => ?_
  · rw [(H.looksAlike hv h y).callback]
  · split
    · exact hr .toText _ v (List.forall_mem_singleton.mpr hv)
    · exact blind_inspect hr hv

theorem blind_dump (hr : r.Blind H y) (hv : H.known v = true) :
    (dump r v).Blind H y fun _ => True := by
  refine blind_heap_bind (fun h _ => ?_) fun h _ => ?_
  · rw [(H.looksAlike hv h y).callback]
  · split
    · exact hr .dump _ v (List.forall_mem_singleton.mpr hv)
    · exact blind_inspect hr hv

theorem blind_length (hr : r.Blind H y) (hv : H.known v = true) :
    (length r v).Blind H y fun _ => True := by
  refine blind_heap_bind (fun h _ => ?_) fun h _ => ?_
  · rw [(H.looksAlike hv h y).callback]
  · split
    · exact hr .length _ v (List.forall_mem_singleton.mpr hv)
    · exact blind_pure trivial

theorem blind_equal (hr : r.Blind H y) (hv : H.known v = true) (hother : H.known other = true) :
    (equal r v other).Blind H y fun _ => True := by
  refine blind_heap_bind (fun h _ => ?_) fun h _ => ?_
  · rw [(H.looksAlike hv h y).callback]
  · split
    · exact hr .equal _ (v, other) (by simp [Behavior.given, hv, hother])
    · exact blind_pure trivial

theorem blind_callback (hv : H.known v = true) (b : Behavior) :
    (Attempt.ask fun h => h.callback b v).Blind H y fun _ => True :=
  blind_ask (fun h => (H.looksAlike hv h y).callback b) fun _ _ _ _ => trivial

theorem blind_copy (hr : r.Blind H y) (hv : H.known v = true) :
    (copy r v).Blind H y fun u => H.known u = true := by
  refine blind_attempt_bind (blind_callback hv .copy) fun found _ => ?_
  cases found with
  | some c => exact hr .copy c v (List.forall_mem_singleton.mpr hv)
  | none => exact blind_attempt_pure hv

theorem blind_getItem {index : Value} (hr : r.Blind H y) (hv : H.known v = true)
    (hindex : H.known index = true) :
    (getItem r v index).Blind H y fun u => H.known u = true := by
  refine blind_attempt_bind (blind_callback hv .get) fun found _ => ?_
  cases found with
  | some c => exact hr .get c (v, index) (by simp [Behavior.given, hv, hindex])
  | none => exact blind_attempt_pure (H.immediate _ rfl)

theorem blind_setItem {index item : Value} (hr : r.Blind H y) (hv : H.known v = true)
    (hindex : H.known index = true) (hitem : H.known item = true) :
    (setItem r v index item).Blind H y fun _ => True := by
  refine blind_attempt_bind (blind_callback hv .set) fun found _ => ?_
  cases found with
  | some c =>
    have hset := hr .set c (v, index, item) (by simp [Behavior.given, hv, hindex, hitem])
    have answered : (Attempt.ofRun (r.run .set c (v, index, item))).Blind H y fun _ => True :=
      hset.mono fun _ _ _ _ => trivial
    refine blind_attempt_bind answered fun _ _ => ?_
    exact blind_attempt_bind (blind_change hv nofun) fun _ _ => blind_attempt_pure trivial
  | none => exact blind_attempt_pure trivial

theorem blind_call (hr : r.Blind H y) (hv : H.known v = true) :
    (call r v).Blind H y fun _ => True := by
  refine blind_attempt_bind (blind_callback hv .call) fun found _ => ?_
  cases found with
  | some c =>
    exact blind_withFrame hv ((hr .call c v (List.forall_mem_singleton.mpr hv)).mono
      fun _ _ _ _ => trivial)
  | none => exact blind_attempt_act (List.forall_mem_singleton.mpr hv)

theorem blind_convert (hr : r.Blind H y) (c : Callback .toSequence) (hv : H.known v = true) :
    (convert r c v).Blind H y fun u => H.known u = true := by
  refine blind_withFrame hv (blind_bind (hr .toSequence c v (List.forall_mem_singleton.mpr hv))
    fun outcome houtcome => ?_)
  cases outcome with
  | error e => exact blind_pure nofun
  | ok sequence =>
    have hsequence : H.known sequence = true := houtcome sequence rfl
    refine blind_bind (blind_act (List.forall_mem_singleton.mpr hsequence)) fun _ _ => ?_
    exact blind_pure fun _ heq => Except.ok.inj heq ▸ hsequence

theorem blind_toSequence (hr : r.Blind H y) (hv : H.known v = true) :
    (toSequence r v).Blind H y fun u => H.known u = true := by
  refine blind_attempt_bind (blind_callback hv .toSequence) fun found _ => ?_
  cases found with
  | none => exact blind_attempt_pure (H.immediate _ rfl)
  | some c =>
    refine blind_attempt_bind (blind_find hv) fun e he => ?_
    obtain ⟨_, x⟩ := e
    simp only
    split
    · next sequence hsequence =>
      exact blind_attempt_pure (he sequence (Instance.mem_values_of_current hsequence))
    · refine blind_attempt_bind (blind_convert hr c hv) fun sequence hsequence => ?_
      refine blind_attempt_bind (blind_change hv (List.forall_mem_singleton.mpr hsequence))
        fun _ _ => ?_
      exact blind_attempt_pure hsequence

end

end TracedHeap
