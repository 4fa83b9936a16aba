import TracedHeap.Proofs.Discretion

/-!
# Programs keep within their horizon

A step that uses what is known does the same whatever the hidden instance is like, in whichever
place it names a value and whatever callbacks it calls.  The argument goes over the operations, over
steps and the steps inside them, over scripts, and over the depth to which callbacks call one
another.

* `blind_op`              operations;
* `blind_step`            steps;
* `blind_script`          scripted callbacks;
* `Runner.blind_ofDepth`  callbacks to any depth;
* `Step.confined`         what follows for a step: its answer, the world after it and the hidden
                          instance.
-/

namespace TracedHeap

open Run

/-! ## Operations -/

/-- The value that can be bound to a variable is known. -/
def Reply.Known {id : InstanceId} (H : Horizon id) (reply : Reply) : Prop :=
  ∀ v, reply.bound? = some v → H.known v = true

section
variable {id : InstanceId} {H : Horizon id} {y : Instance} {r : Runner}

theorem World.Confined.lookup {w : World} (c : w.Confined H) {name : String}
    (hname : H.reads name = true) : H.known (w.lookup name) = true := by
  unfold Context.lookup
  cases hscope : w.scopes.head?.bind fun scope => scope.get? name with
  | some v =>
    obtain ⟨scope, hhead, hv⟩ := Option.bind_eq_some_iff.mp hscope
    exact c.scopes scope (List.mem_of_head? hhead) name v hname hv
  | none =>
    cases hglobal : w.globals.get? name with
    | some v => exact c.globals name v hname hglobal
    | none => exact H.immediate _ rfl

theorem blind_resolve {o : Operand} (ho : o.within H = true) :
    o.resolve.Blind H y fun v => H.known v = true := by
  cases o with
  | const v => exact blind_attempt_pure ho
  | var name =>
    exact blind_lift_look_bind (fun _ _ => rfl) fun w c => blind_attempt_pure (c.lookup ho)
  | malformed => exact blind_throw _

theorem blind_resolveAll {os : List Operand} (hos : ∀ o ∈ os, o.within H = true) :
    (Operand.resolveAll os).Blind H y fun vs => ∀ v ∈ vs, H.known v = true := by
  induction os with
  | nil => exact blind_attempt_pure nofun
  | cons o os ih =>
    obtain ⟨ho, hos⟩ := List.forall_mem_cons.mp hos
    exact blind_attempt_bind (blind_resolve ho) fun v hv => blind_attempt_bind (ih hos)
      fun vs hvs => blind_attempt_pure (List.forall_mem_cons.mpr ⟨hv, hvs⟩)

theorem blind_resolvePairs {os : List (Operand × Operand)}
    (hos : ∀ o ∈ os.flatMap fun e => [e.1, e.2], o.within H = true) :
    (Operand.resolvePairs os).Blind H y fun es => ∀ u ∈ (Payload.table es).values,
      H.known u = true := by
  induction os with
  | nil => exact blind_attempt_pure nofun
  | cons o os ih =>
    rw [List.flatMap_cons, List.forall_mem_append] at hos
    obtain ⟨ho, hos⟩ := hos
    refine blind_attempt_bind (blind_resolve (ho o.1 (by simp))) fun k hk => ?_
    refine blind_attempt_bind (blind_resolve (ho o.2 (by simp))) fun v hv => ?_
    refine blind_attempt_bind (ih hos) fun es hes => blind_attempt_pure ?_
    rw [Horizon.known_entries_iff] at hes ⊢
    exact List.forall_mem_cons.mpr ⟨⟨hk, hv⟩, hes⟩

theorem blind_literal {l : Literal} (hl : ∀ o ∈ l.operands, o.within H = true) :
    l.resolve.Blind H y fun p => ∀ u ∈ p.values, H.known u = true := by
  cases l with
  | items os | words os =>
    exact blind_attempt_bind (blind_resolveAll hl) fun _ hvs => blind_attempt_pure hvs
  | table es => exact blind_attempt_bind (blind_resolvePairs hl) fun _ hes => blind_attempt_pure hes
  | text | int | unit => exact blind_attempt_pure nofun

theorem blind_type (t : TypeRef) : t.resolve.Blind H y fun _ => True := by
  cases t with
  | index d => exact blind_attempt_pure trivial
  | named name =>
    refine blind_lift_heap_bind (fun _ _ => rfl) fun h _ => ?_
    split
    · exact blind_attempt_pure trivial
    · exact blind_throw _

theorem blind_containerTypes : containerTypes.Blind H y fun _ => True := by
  refine blind_lift_look_bind (fun _ _ => rfl) fun w _ => ?_
  split
  · exact blind_attempt_pure trivial
  · exact blind_throw _

theorem blind_registerType (name : String) (tag : Option Tag) (base : Option Descriptor) :
    (registerType name tag base).Blind H y fun _ => True := by
  refine blind_look_bind (fun _ _ => rfl) fun w _ => ?_
  refine blind_bind (blind_act nofun) fun outcome _ => ?_
  refine blind_look_bind (fun _ _ => rfl) fun w _ => ?_
  split
  · exact blind_bind (blind_report _) fun _ _ => blind_pure fun _ _ => trivial
  · exact blind_pure fun _ _ => trivial

theorem blind_view (hr : r.Blind H y) (view : View) {v : Value} (hv : H.known v = true) :
    (view.run r v).Blind H y fun _ => True := by
  cases view with
  | inspect => exact blind_inspect hr hv
  | stringify => exact blind_stringify hr hv
  | dump => exact blind_dump hr hv

theorem blind_answer {answer : Heap → Reply} (same : ∀ h : Heap, answer (h.put id y) = answer h)
    (known : ∀ h : Heap, h.Confined H → (answer h).Known H) :
    (do return answer (← heap) : Attempt Reply).Blind H y (Reply.Known H) :=
  blind_lift_heap_bind (fun h _ => by rw [same]) fun h c => blind_attempt_pure (known h c)

theorem Reply.known_value {v : Value} (hv : H.known v = true) : (Reply.value v).Known H :=
  fun _ heq => Option.some.inj heq ▸ hv

theorem Reply.known_flag (b : Bool) : (Reply.flag b).Known H :=
  fun _ heq => Option.some.inj heq ▸ H.immediate _ rfl

theorem Reply.known_count (n : Nat) : (Reply.count n).Known H :=
  fun _ heq => Option.some.inj heq ▸ H.immediate _ rfl

theorem Reply.known_of_none {reply : Reply} (h : reply.bound? = none) : reply.Known H :=
  fun _ heq => by cases h.symm.trans heq

theorem blind_reply {α : Type} {good : α → Prop} {x : Attempt α} {reply : α → Reply}
    (hx : x.Blind H y good) (known : ∀ a, good a → (reply a).Known H) :
    (do return reply (← x) : Attempt Reply).Blind H y (Reply.Known H) :=
  blind_attempt_bind hx fun a ha => blind_attempt_pure (known a ha)

theorem blind_operand {o : Operand} (ho : o.within H = true) {α : Type} {good : α → Prop}
    {next : Value → Attempt α} (hnext : ∀ v, H.known v = true → (next v).Blind H y good) :
    (o.resolve >>= next).Blind H y good := blind_attempt_bind (blind_resolve ho) hnext

theorem blind_pick (takes : H.takes = true) (n : Nat) :
    (Attempt.ask fun h => h.pick n).Blind H y fun u => H.known u = true := by
  refine blind_ask (fun _ => rfl) fun h u c hu => ?_
  unfold Heap.pick at hu
  split at hu
  · next hget =>
    cases hu
    exact c.stack takes u (List.mem_of_getElem? hget)
  · cases hu

theorem blind_pop (takes : H.takes = true) :
    (Attempt.ofRun (act .pop)).Blind H y fun u => H.known u = true := by
  refine blind_act_of nofun fun h c u hu => ?_
  change h.pop.1 = .ok u at hu
  unfold Heap.pop at hu
  split at hu
  · next hstack =>
    cases hu
    exact c.stack takes u (hstack ▸ List.mem_cons_self)
  · cases hu

theorem blind_ask_find {α : Type} {v : Value} (hv : H.known v = true)
    (f : InstanceId × Instance → α) :
    (Attempt.ask fun h => (h.find v).map f).Blind H y fun _ => True :=
  blind_ask (fun h => by rw [Heap.find_put (H.ne hv)]) fun _ _ _ _ => trivial

theorem blind_property {v : Value} (hv : H.known v = true) (key : String) :
    (Attempt.ask fun h => h.property v key).Blind H y fun u => H.known u = true := by
  refine blind_ask (fun h => (H.looksAlike hv h y).property key) fun h u c hu => ?_
  unfold Heap.property Heap.property? at hu
  cases he : h.find v with
  | error e =>
    rw [he] at hu
    cases hu
  | ok e =>
    rw [he] at hu
    cases hu
    show H.known ((e.2.properties.get? key).getD .undefined) = true
    cases hget : e.2.properties.get? key with
    | none => exact H.immediate _ rfl
    | some item =>
      exact c.find hv he item (List.mem_append_right _ (List.mem_append_right _
        (Properties.mem_values_of_get? hget)))

/-- An operation within the horizon keeps within it. -/
theorem blind_op (hr : r.Blind H y) {o : Op} (ho : o.within H = true) :
    (o.run r).Blind H y (Reply.Known H) := by
  obtain ⟨ho, taken⟩ := Bool.and_eq_true_iff.mp ho
  obtain ⟨operands, unsurveyed⟩ := Bool.and_eq_true_iff.mp ho
  rw [List.all_eq_true] at operands
  have unbound : ∀ {α : Type} {reply : α → Reply}, (∀ a, (reply a).bound? = none) →
      ∀ a, True → (reply a).Known H := fun none a _ => Reply.known_of_none (none a)
  cases o with
  -- types
  | register name tag => exact blind_reply (blind_registerType name tag none) (unbound fun _ => rfl)
  | derive name tag base =>
    exact blind_attempt_bind (blind_type base) fun d _ =>
      blind_reply (blind_registerType name tag (some d)) (unbound fun _ => rfl)
  | typeInfo type =>
    exact blind_attempt_bind (blind_type type) fun d _ =>
      blind_answer (fun _ => rfl) fun _ _ => Reply.known_of_none rfl
  | typeNamed | typeWithTag | stack | frameCaller | frameInstances | config =>
    exact blind_answer (fun _ => rfl) fun _ _ => Reply.known_of_none rfl
  | typeCount | stackDepth | frameDepth =>
    exact blind_answer (fun _ => rfl) fun _ _ => Reply.known_count _
  | descriptorOf v =>
    refine blind_operand (operands v List.mem_cons_self) fun u hu => ?_
    refine blind_answer (fun h => ?_) fun _ _ => Reply.known_of_none rfl
    rw [(H.looksAlike hu h y).descriptorOf]
  | typeName v =>
    refine blind_operand (operands v List.mem_cons_self) fun u hu => ?_
    refine blind_answer (fun h => ?_) fun _ _ => Reply.known_of_none rfl
    rw [(H.looksAlike hu h y).typeName]
  | behaviorsOf v =>
    refine blind_operand (operands v List.mem_cons_self) fun u hu => ?_
    refine blind_answer (fun h => ?_) fun _ _ => Reply.known_of_none rfl
    rw [(H.looksAlike hu h y).behaviorsOf]
  -- instances and payloads
  | alloc payload type =>
    exact blind_attempt_bind (blind_literal operands) fun p hp =>
      blind_attempt_bind (blind_type type) fun d _ =>
        blind_reply (blind_allocate r d hp) fun _ => Reply.known_value
  | array vs | list vs | quotation vs =>
    exact blind_attempt_bind (blind_resolveAll operands) fun us hus =>
      blind_attempt_bind blind_containerTypes fun c _ =>
        blind_reply (blind_allocate r _ hus) fun _ => Reply.known_value
  | string | table =>
    exact blind_attempt_bind blind_containerTypes fun c _ =>
      blind_reply (blind_allocate r _ (List.forall_mem_nil _)) fun _ => Reply.known_value
  | payloadIs v kind =>
    refine blind_operand (operands v List.mem_cons_self) fun u hu => ?_
    refine blind_answer (fun h => ?_) fun _ _ => Reply.known_flag _
    rw [(H.looksAlike hu h y).payloadIs]
  | tableFind key v =>
    refine blind_operand (operands key List.mem_cons_self) fun k hk => ?_
    refine blind_operand (operands v (by simp [Op.operands])) fun u hu => ?_
    refine blind_withPayload hu fun es hes => ?_
    exact blind_reply (blind_lift (blind_findKey hr hk (Horizon.known_entries_iff.mp hes)))
      (unbound fun _ => rfl)
  | tableKeys v =>
    refine blind_operand (operands v List.mem_cons_self) fun u hu => ?_
    exact blind_reply (blind_read hu .table) fun _ _ => Reply.known_of_none rfl
  -- operand stack
  | push v =>
    refine blind_operand (operands v List.mem_cons_self) fun u hu => ?_
    exact blind_reply (blind_attempt_act (List.forall_mem_singleton.mpr hu)) (unbound fun _ => rfl)
  | pop =>
    have takes : H.takes = true := by simpa [Op.takes] using taken
    exact blind_reply (blind_pop takes) fun _ => Reply.known_value
  | peek | pick =>
    have takes : H.takes = true := by simpa [Op.takes] using taken
    exact blind_reply (blind_pick takes _) fun _ => Reply.known_value
  | truncateStack | clearStack | resyncFrames | setCollectionEnabled =>
    exact blind_reply (blind_attempt_act (List.forall_mem_nil _)) (unbound fun _ => rfl)
  -- frames
  | pushFrame v =>
    refine blind_operand (operands v List.mem_cons_self) fun u hu => ?_
    exact blind_reply (blind_lift (blind_pushFrame hu)) (unbound fun _ => rfl)
  | popFrame => exact blind_reply (blind_lift blind_popFrame) (unbound fun _ => rfl)
  | attach v =>
    refine blind_operand (operands v List.mem_cons_self) fun u hu => ?_
    exact blind_reply (blind_attempt_act (List.forall_mem_singleton.mpr hu)) fun _ _ =>
      Reply.known_flag _
  -- pins
  | pin p v =>
    refine blind_operand (operands v List.mem_cons_self) fun u hu => ?_
    refine blind_reply (blind_attempt_act ?_) (unbound fun _ => rfl)
    cases p <;> exact List.forall_mem_singleton.mpr hu
  | query q v =>
    refine blind_operand (operands v List.mem_cons_self) fun u hu => ?_
    refine blind_answer (fun h => ?_) fun _ _ => Reply.known_flag _
    have hfind := Heap.find?_put (h := h) (y := y) (H.ne hu)
    cases q <;> simp only [Query.answer, Heap.contains, Heap.isMarked, Heap.isProtected,
      Heap.isPermanent, hfind]
  | protectedInstances | permanentInstances | stats | statsText => cases unsurveyed
  -- collector
  | collect => exact blind_reply (blind_lift (blind_collect r)) fun _ _ => Reply.known_count _
  | teardown => exact blind_reply (blind_lift (blind_teardown r)) fun _ _ => Reply.known_count _
  | collectionEnabled => exact blind_answer (fun _ => rfl) fun _ _ => Reply.known_flag _
  | liveCount =>
    refine blind_answer (fun h => ?_) fun _ _ => Reply.known_count _
    obtain ⟨_, _, hput⟩ := h.put_eq id y
    rw [hput]
  | summary =>
    refine blind_answer (fun h => ?_) fun _ _ => Reply.known_of_none rfl
    obtain ⟨_, hsize, hput⟩ := h.put_eq id y
    rw [hput]
    simp only [Heap.summary, Pool.issued, hsize]
  -- header fields
  | setProperty v key item =>
    refine blind_operand (operands v List.mem_cons_self) fun u hu => ?_
    refine blind_operand (operands item (by simp [Op.operands])) fun i hi => ?_
    exact blind_reply (blind_change hu (List.forall_mem_singleton.mpr hi)) (unbound fun _ => rfl)
  | property v key =>
    refine blind_operand (operands v List.mem_cons_self) fun u hu => ?_
    exact blind_reply (blind_property hu key) fun _ => Reply.known_value
  | removeProperty v key =>
    refine blind_operand (operands v List.mem_cons_self) fun u hu => ?_
    refine blind_attempt_bind (blind_ask_find hu _) fun removed _ => ?_
    exact blind_reply (blind_attempt_act (List.forall_mem_singleton.mpr hu)) (unbound fun _ => rfl)
  | propertyKeys v | debugHook v =>
    refine blind_operand (operands v List.mem_cons_self) fun u hu => ?_
    exact blind_reply (blind_ask_find hu _) (unbound fun _ => rfl)
  | setDebugHook v hook =>
    refine blind_operand (operands v List.mem_cons_self) fun u hu => ?_
    refine blind_operand (operands hook (by simp [Op.operands])) fun i hi => ?_
    exact blind_reply (blind_change hu (List.forall_mem_singleton.mpr hi)) (unbound fun _ => rfl)
  | nextCursor v len =>
    refine blind_operand (operands v List.mem_cons_self) fun u hu => ?_
    refine blind_attempt_bind (blind_ask_find hu _) fun n _ => ?_
    exact blind_reply (blind_attempt_act (List.forall_mem_singleton.mpr hu)) fun _ _ =>
      Reply.known_count n
  | resetCursor v | invalidateSequence v =>
    refine blind_operand (operands v List.mem_cons_self) fun u hu => ?_
    exact blind_reply (blind_change hu (List.forall_mem_nil _)) (unbound fun _ => rfl)
  -- dispatch
  | view w v =>
    refine blind_operand (operands v List.mem_cons_self) fun u hu => ?_
    exact blind_reply (blind_lift (blind_view hr w hu)) (unbound fun _ => rfl)
  | toSequence v =>
    refine blind_operand (operands v List.mem_cons_self) fun u hu => ?_
    exact blind_reply (blind_toSequence hr hu) fun _ => Reply.known_value
  | copy v =>
    refine blind_operand (operands v List.mem_cons_self) fun u hu => ?_
    exact blind_reply (blind_copy hr hu) fun _ => Reply.known_value
  | get v index =>
    refine blind_operand (operands v List.mem_cons_self) fun u hu => ?_
    refine blind_operand (operands index (by simp [Op.operands])) fun i hi => ?_
    exact blind_reply (blind_getItem hr hu hi) fun _ => Reply.known_value
  | set v index item =>
    refine blind_operand (operands v List.mem_cons_self) fun u hu => ?_
    refine blind_operand (operands index (by simp [Op.operands])) fun i hi => ?_
    refine blind_operand (operands item (by simp [Op.operands])) fun x hx => ?_
    exact blind_reply (blind_setItem hr hu hi hx) fun _ _ => Reply.known_flag _
  | equal v other =>
    refine blind_operand (operands v List.mem_cons_self) fun u hu => ?_
    refine blind_operand (operands other (by simp [Op.operands])) fun o ho => ?_
    exact blind_reply (blind_lift (blind_equal hr hu ho)) fun _ _ => Reply.known_flag _
  | length v =>
    refine blind_operand (operands v List.mem_cons_self) fun u hu => ?_
    exact blind_reply (blind_lift (blind_length hr hu)) fun _ _ => Reply.known_count _
  | call v =>
    refine blind_operand (operands v List.mem_cons_self) fun u hu => ?_
    exact blind_reply (blind_call hr hu) (unbound fun _ => rfl)
  -- values and control
  | value v =>
    exact blind_operand (operands v List.mem_cons_self) fun _ _ =>
      blind_attempt_pure (Reply.known_of_none rfl)
  | letVal v =>
    exact blind_operand (operands v List.mem_cons_self) fun _ hu =>
      blind_attempt_pure (Reply.known_value hu)
  | raise | malformed => exact blind_throw _
  | abort message => exact blind_lift (blind_halt _)

end

/-! ## Scripts -/

section
variable {id : InstanceId} {H : Horizon id} {y : Instance} {r : Runner}

theorem forall_mem_edited {α : Type} {known : α → Prop} {xs : List α} (hxs : ∀ x ∈ xs, known x)
    (e : Edit) : ∀ x ∈ (if e.clear then [] else if e.pop then xs.dropLast else xs), known x := by
  intro x hx
  split at hx
  · cases hx
  · split at hx
    · exact hxs x (List.dropLast_subset xs hx)
    · exact hxs x hx

theorem blind_applyList {e : Edit} (he : ∀ o ∈ e.operands, o.within H = true) {vs : List Value}
    (hvs : ∀ u ∈ vs, H.known u = true) :
    (e.applyList vs).Blind H y fun vs => ∀ u ∈ vs, H.known u = true := by
  unfold Edit.applyList
  cases hpush : e.push with
  | none => exact blind_attempt_pure (forall_mem_edited hvs e)
  | some o =>
    refine blind_operand (he o (by simp [Edit.operands, hpush])) fun v hv => ?_
    exact blind_attempt_pure (forall_mem_edited (List.forall_mem_append.mpr
      ⟨hvs, List.forall_mem_singleton.mpr hv⟩) e)

theorem blind_applyEntries {e : Edit} (he : ∀ o ∈ e.operands, o.within H = true)
    {es : List (Value × Value)} (hes : ∀ e ∈ es, H.known e.1 = true ∧ H.known e.2 = true) :
    (e.applyEntries es).Blind H y fun es => ∀ e ∈ es, H.known e.1 = true ∧ H.known e.2 = true := by
  unfold Edit.applyEntries
  cases hput : e.put with
  | none => exact blind_attempt_pure (forall_mem_edited hes e)
  | some o =>
    refine blind_operand (he o.1 (by simp [Edit.operands, hput])) fun k hk => ?_
    refine blind_operand (he o.2 (by simp [Edit.operands, hput])) fun v hv => ?_
    exact blind_attempt_pure (forall_mem_edited (List.forall_mem_append.mpr
      ⟨hes, List.forall_mem_singleton.mpr ⟨hk, hv⟩⟩) e)

theorem blind_edit {e : Edit} (he : ∀ o ∈ e.operands, o.within H = true) (k : Kind) (c : k.Content)
    (hc : ∀ u ∈ (Payload.of k c).values, H.known u = true) :
    (e.apply k c).Blind H y fun c => ∀ u ∈ (Payload.of k c).values, H.known u = true := by
  cases k with
  | items | words => exact blind_applyList he hc
  | table =>
    exact (blind_applyEntries he (Horizon.known_entries_iff.mp hc)).mono fun _ known es heq =>
      Horizon.known_entries_iff.mpr (known es heq)
  | text | int | unit => exact blind_attempt_pure nofun

theorem blind_installCallback (d : Descriptor) (b : Behavior) (c : Callback b) :
    (installCallback d b c).Blind H y fun _ => True := by
  refine blind_heap_bind (fun _ _ => rfl) fun h _ => ?_
  refine blind_bind (blind_act nofun) fun _ _ => ?_
  split
  · exact blind_report _
  · exact blind_pure trivial

theorem Bindings.get?_set_self (b : Bindings) (name : String) (v : Value) :
    (b.set name v).get? name = some v := Properties.get?_set_self ⟨b.entries⟩ name v

theorem Bindings.get?_set_of_ne {name other : String} (b : Bindings) (v : Value)
    (h : other ≠ name) : (b.set name v).get? other = b.get? other :=
  Properties.get?_set_of_ne ⟨b.entries⟩ v h

theorem blind_bindGlobal (name : String) {v : Value} (hv : H.known v = true) :
    (bindGlobal name v).Blind H y fun _ => True := by
  refine blind_note fun w c => ⟨c.heap, fun other u hother hu => ?_, c.scopes⟩
  by_cases heq : other = name
  · subst heq
    rw [Bindings.get?_set_self] at hu
    exact Option.some.inj hu ▸ hv
  · rw [Bindings.get?_set_of_ne _ _ heq] at hu
    exact c.globals other u hother hu

theorem blind_bindReply (name : String) {reply : Reply} (known : reply.Known H) :
    (bindReply name reply).Blind H y fun _ => True := by
  unfold bindReply
  split
  · next v hv => exact blind_bindGlobal name (known v hv)
  · exact blind_pure trivial

theorem blind_loopFrom {x : Nat → Attempt Unit} (hx : ∀ i, (x i).Blind H y fun _ => True)
    (n i : Nat) : (loopFrom x n i).Blind H y fun _ => True := by
  induction n generalizing i with
  | zero => exact blind_attempt_pure trivial
  | succ n ih => exact blind_attempt_bind (hx i) fun _ _ => ih (i + 1)

theorem blind_hushed {α : Type} {good : α → Prop} (quiet : Bool) {x : Attempt α}
    (hx : x.Blind H y good) : (hushed quiet x).Blind H y good := by
  refine blind_lift_look_bind (fun _ _ => rfl) fun w _ => ?_
  refine blind_attempt_bind (blind_lift (blind_note fun _ c => ⟨c.heap, c.globals, c.scopes⟩))
    fun _ _ => ?_
  exact blind_attempt_ensuring hx (blind_note fun _ c => ⟨c.heap, c.globals, c.scopes⟩)

mutual

-- The induction follows the steps inside a step; callbacks are left to the runner.
theorem blind_step (hr : r.Blind H y) :
    ∀ s : Step, s.within H = true → (s.run r).Blind H y (Reply.Known H)
  | .op o => by
    intro hs
    unfold Step.run
    exact blind_op hr hs
  | .install type b script body answer => by
    intro _
    unfold Step.run
    exact blind_attempt_bind (blind_type type) fun d _ =>
      blind_reply (blind_lift (blind_installCallback d b _)) fun _ _ => Reply.known_of_none rfl
  | .payloadRead v kind body => by
    intro hs
    obtain ⟨hv, hbody⟩ := Bool.and_eq_true_iff.mp hs
    unfold Step.run
    refine blind_operand hv fun u hu => blind_withPayload hu fun c _ => ?_
    exact blind_reply (blind_steps hr body hbody) fun _ _ => Reply.known_of_none rfl
  | .payloadWrite v kind body edit => by
    intro hs
    obtain ⟨here, hbody⟩ := Bool.and_eq_true_iff.mp hs
    obtain ⟨hv, hedit⟩ := Bool.and_eq_true_iff.mp here
    unfold Step.run
    refine blind_operand hv fun u hu => blind_withPayloadMut hu fun c hc => ?_
    refine blind_attempt_bind (blind_steps hr body hbody) fun _ _ => ?_
    refine blind_attempt_bind (blind_edit (List.all_eq_true.mp hedit) kind c hc) fun c' hc' => ?_
    exact blind_attempt_pure ⟨Reply.known_of_none rfl, hc'⟩
  | .withFrame caller body => by
    intro hs
    obtain ⟨hv, hbody⟩ := Bool.and_eq_true_iff.mp hs
    unfold Step.run
    refine blind_operand hv fun u hu => ?_
    exact blind_reply (blind_withFrame hu (blind_steps hr body hbody)) fun _ _ =>
      Reply.known_of_none rfl
  | .branch v yes no => by
    intro hs
    obtain ⟨hs, hno⟩ := Bool.and_eq_true_iff.mp hs
    obtain ⟨hv, hyes⟩ := Bool.and_eq_true_iff.mp hs
    unfold Step.run
    refine blind_operand hv fun u hu => ?_
    split
    · exact blind_reply (blind_steps hr yes hyes) fun _ _ => Reply.known_of_none rfl
    · exact blind_reply (blind_steps hr no hno) fun _ _ => Reply.known_of_none rfl
  | .loop n body quiet => by
    intro hs
    have hbody := blind_steps hr body hs
    unfold Step.run
    refine blind_reply (blind_hushed quiet (blind_loopFrom (fun i => ?_) n 0)) fun _ _ =>
      Reply.known_of_none rfl
    exact blind_attempt_bind (blind_lift (blind_bindGlobal "i" (H.immediate _ rfl))) fun _ _ =>
      hbody
  | .bind name s => by
    intro hs
    unfold Step.run
    refine blind_attempt_bind (blind_step hr s hs) fun reply known => ?_
    exact blind_attempt_bind (blind_lift (blind_bindReply name known)) fun _ _ =>
      blind_attempt_pure known
  | .strict s => by
    intro hs
    unfold Step.run
    exact blind_step hr s hs

theorem blind_steps (hr : r.Blind H y) :
    ∀ steps : List Step, Step.allWithin H steps = true →
      (Step.runAll r steps).Blind H y fun _ => True
  | [] => by
    intro _
    unfold Step.runAll
    exact blind_attempt_pure trivial
  | s :: rest => by
    intro hs
    obtain ⟨hs, hrest⟩ := Bool.and_eq_true_iff.mp hs
    have hrest := blind_steps hr rest hrest
    unfold Step.runAll
    refine blind_bind (blind_step hr s hs) fun outcome _ => ?_
    refine blind_bind (blind_record _) fun _ _ => ?_
    split
    · split
      · exact blind_pure nofun
      · exact hrest
    · exact hrest

end

/-! ## Callbacks inside callbacks -/

theorem blind_parts (hr : r.Blind H y) {parts : List Part}
    (hparts : ∀ p ∈ parts, p.within H = true) : (Part.runAll r parts).Blind H y fun _ => True := by
  induction parts with
  | nil => exact blind_pure trivial
  | cons p parts ih =>
    obtain ⟨hp, hparts⟩ := List.forall_mem_cons.mp hparts
    have first : (p.run r).Blind H y fun _ => True := by
      cases p with
      | literal s => exact blind_pure trivial
      | view w v =>
        refine blind_bind (blind_resolve hp) fun outcome known => ?_
        cases outcome with
        | ok u => exact blind_view hr w (known u rfl)
        | error e => exact blind_pure trivial
      | typeName v =>
        refine blind_bind (blind_resolve hp) fun outcome known => ?_
        cases outcome with
        | ok u =>
          refine blind_heap_bind (fun h _ => ?_) fun _ _ => blind_pure trivial
          rw [(H.looksAlike (known u rfl) h y).typeName]
        | error e => exact blind_pure trivial
      | display v =>
        refine blind_bind (blind_resolve hp) fun outcome _ => ?_
        cases outcome <;> exact blind_pure trivial
    exact blind_bind first fun _ _ => blind_bind (ih hparts) fun _ _ => blind_pure trivial

theorem blind_asText (hr : r.Blind H y) {a : Answer Step} (ha : a.within H = true) :
    (a.asText r).Blind H y fun _ => True := by
  cases a with
  | text parts => exact blind_parts hr (List.all_eq_true.mp ha)
  | _ => exact blind_pure trivial

theorem blind_asValue {a : Answer Step} (ha : a.within H = true) :
    a.asValue.Blind H y fun v => H.known v = true := by
  cases a with
  | value v => exact blind_resolve ha
  | nothing => exact blind_attempt_pure (H.immediate _ rfl)
  | _ => exact blind_throw _

theorem blind_asVerdict (hr : r.Blind H y) {a : Answer Step} (ha : a.within H = true) :
    (a.asVerdict r).Blind H y fun _ => True := by
  cases a with
  | result step =>
    refine blind_bind (blind_step hr step ha) fun outcome _ => ?_
    split <;> exact blind_pure trivial
  | _ => exact blind_pure trivial

theorem blind_asCount (hr : r.Blind H y) {a : Answer Step} (ha : a.within H = true) :
    (a.asCount r).Blind H y fun _ => True := by
  cases a with
  | result step =>
    refine blind_bind (blind_step hr step ha) fun outcome _ => ?_
    split <;> exact blind_pure trivial
  | _ => exact blind_pure trivial

/-- The body of a script runs with known arguments in scope. -/
theorem blind_runBody {α : Type} {good : α → Prop} (hr : r.Blind H y) {s : Script}
    (hbody : Step.allWithin H s.body = true) (args : Arguments) {scope : Bindings}
    (hscope : ∀ e ∈ scope.entries, H.known e.2 = true) {answer : Except Error Unit → Run α}
    (hanswer : ∀ ended, (answer ended).Blind H y good) :
    (s.runBody r args scope answer).Blind H y good := by
  have entered :
      (note fun c => { c with scopes := scope :: c.scopes }).Blind H y fun _ => True := by
    exact blind_note fun w c => ⟨c.heap, c.globals,
      List.forall_mem_cons.mpr ⟨Bindings.confined_of_entries H hscope, c.scopes⟩⟩
  have left : (note fun c => { c with scopes := c.scopes.tail }).Blind H y fun _ => True :=
    blind_note fun w c => ⟨c.heap, c.globals, fun scope hscope =>
      c.scopes scope (List.mem_of_mem_tail hscope)⟩
  refine blind_bind (blind_record _) fun _ _ => ?_
  refine blind_look_bind (fun _ _ => rfl) fun w _ => ?_
  have inside : (ensuring (do answer (← (Step.runAll r s.body).run))
      (note fun c => { c with scopes := c.scopes.tail })).Blind H y good :=
    blind_ensuring (blind_bind (blind_steps hr s.body hbody) fun ended _ => hanswer ended) left
  split
  · have aborted : (abort "callback depth" : Run PUnit).Blind H y fun _ => False := blind_halt _
    exact blind_bind aborted fun _ => False.elim
  · exact blind_bind entered fun _ _ => inside

/-- A script within the horizon keeps within it, whichever behavior it is the callback of. -/
theorem blind_script (hr : r.Blind H y) {s : Script} (hbody : Step.allWithin H s.body = true)
    (hanswer : s.answer.within H = true) (b : Behavior) (args : b.Args)
    (given : ∀ v ∈ b.given args, H.known v = true) : (s.run r b args).Blind H y (b.Known H) := by
  have value : ∀ ended, (s.valueUnlessFailed ended).Blind H y fun outcome =>
      ∀ v, outcome = .ok v → H.known v = true := by
    intro ended
    cases ended with
    | error e => exact blind_pure nofun
    | ok _ => exact blind_asValue hanswer
  cases b with
  | inspect | toText | dump =>
    exact blind_runBody hr hbody _ (by simpa [Behavior.given] using given) fun _ =>
      blind_asText hr hanswer
  | toSequence | copy =>
    exact blind_runBody hr hbody _ (by simpa [Behavior.given] using given) value
  | get =>
    obtain ⟨v, index⟩ := args
    exact blind_runBody hr hbody _ (by simpa [Behavior.given] using given) value
  | set =>
    obtain ⟨v, index, item⟩ := args
    exact blind_runBody hr hbody _ (by simpa [Behavior.given] using given) fun _ =>
      blind_pure trivial
  | equal =>
    obtain ⟨v, other⟩ := args
    exact blind_runBody hr hbody _ (by simpa [Behavior.given] using given) fun _ =>
      blind_asVerdict hr hanswer
  | length =>
    exact blind_runBody hr hbody _ (by simpa [Behavior.given] using given) fun _ =>
      blind_asCount hr hanswer
  | mark | call =>
    exact blind_runBody hr hbody _ (by simpa [Behavior.given] using given) fun _ =>
      blind_pure trivial
  | free => exact blind_runBody hr hbody _ (by simp) fun _ => blind_pure trivial

/-- A callback that is called keeps within the horizon, or the call goes beyond it. -/
theorem blind_invoke {b : Behavior} {c : Callback b} {args : b.Args} {α : Type} {good : α → Prop}
    {next : Unit → Run α} (hnext : c.within H = true → (next ()).Blind H y good) :
    (act (.invoke b c args) >>= next).Blind H y good := by
  intro w confined permitted
  have hc : c.within H = true :=
    (Bool.and_eq_true_iff.mp (permitted ⟨.invoke b c args, w.heap⟩ (by simp))).2
  exact blind_bind (blind_act (by simp [Action.values])) (fun _ _ => hnext hc) w confined permitted

end

/-- Callbacks keep within every horizon, to whatever depth they call one another. -/
theorem Runner.blind_ofDepth {id : InstanceId} (H : Horizon id) (y : Instance) (n : Nat) :
    (Runner.ofDepth n).Blind H y := by
  induction n with
  | zero => exact fun b c args _ => blind_invoke fun _ => blind_halt _
  | succ n ih =>
    intro b c args given
    refine blind_invoke fun hc => ?_
    cases c with
    | routine k => exact blind_routine ih k args given
    | script s =>
      obtain ⟨hbody, hanswer⟩ := Bool.and_eq_true_iff.mp hc
      exact blind_script ih hbody hanswer b args given

/-- A step within the horizon goes the same way whatever the hidden instance is like, and leaves
that instance as it is. -/
theorem Step.confined {id : InstanceId} {H : Horizon id} (n : Nat) {s : Step} {w : World}
    (hs : s.within H = true) (c : w.Confined H)
    (permitted : ∀ t ∈ (s.run (.ofDepth n)).run.trace w, t.within H = true) :
    ∃ answer w', (s.run (.ofDepth n)).run.exec w = (answer, w') ∧
      w'.heap.pool.get? id = w.heap.pool.get? id ∧
      ∀ y, (s.run (.ofDepth n)).run.exec (w.put id y) = (answer, w'.put id y) := by
  have blind := fun y => blind_step (Runner.blind_ofDepth H y n) s hs w c permitted
  refine ⟨_, _, rfl, ?_, fun y => (blind y).1⟩
  obtain ⟨x, hx⟩ := c.heap.get?
  obtain ⟨same, confined, _⟩ := blind x
  obtain ⟨x', hx'⟩ := confined.heap.get?
  -- with the instance itself in its place, nothing is put there
  have hself : w.put id x = w := by
    show ({ w with heap := w.heap.put id x } : World) = w
    rw [Heap.put_self hx]
  rw [hself] at same
  have hput := congrArg (fun e => e.2.heap.pool.get? id) same
  rw [hx]
  refine hput.trans ?_
  show ((Heap.put _ id x).pool.get? id) = some x
  exact Heap.get?_modify_self _ hx'

end TracedHeap
