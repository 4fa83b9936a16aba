import TracedHeap.Proofs.Liberties

/-!
# Lawful computations

The computations of `Run.Avoids` when there is nothing to avoid, whatever their callbacks do.

* `Run.Lawful`             computations made of ordinary actions and of the groups the others come in;
* `Runner.Lawful`          callbacks announce themselves and go on lawfully;
* `lawful_step`, `Runner.lawful_ofDepth`, `Session.lawful_opening`
                           scripts, callbacks to whatever depth, and the opening of a session are
                           lawful;
* `Idiom.loyal`, `Runner.loyal_ofDepth`
                           no callback makes other container types known.
-/

namespace TracedHeap

open Run

/-- Computations made of ordinary actions, of payloads used and written as they should be, and of
whole collections, teardowns and allocations, whose callbacks announce themselves and go on in the
same way. -/
inductive Run.Lawful : {α : Type} → Run α → Prop where
  | done {α : Type} (a : α) : Lawful (done a)
  | look {α : Type} (f : World → α) : Lawful (look f)
  | note (f : Context → Context) : Lawful (note f)
  | halt {α : Type} (why : Halt) : Lawful (halt why : Run α)
  | act {α : Type} {a : Action α} : a.ordinary = true → Lawful (act a)
  | andThen {α β : Type} {x : Run α} {next : α → Run β} :
      Lawful x → (∀ a, Lawful (next a)) → Lawful (andThen x next)
  | ensuring {α : Type} {x : Run α} (f : Context → Context) :
      Lawful x → Lawful (ensuring x (note f))
  | withFrame {α : Type} (caller : Value) {x : Run α} : Lawful x → Lawful (withFrame caller x)
  | withPayload {α : Type} (v : Value) (k : Kind) {x : k.Content → Attempt α} :
      (∀ c, Lawful (x c).run) → Lawful (withPayload v k x).run
  | withPayloadMut {α : Type} (v : Value) (k : Kind) {x : k.Content → Attempt (α × k.Content)} :
      (∀ c, Lawful (x c).run) → Lawful (withPayloadMut v k x).run
  | writePayload (v : Value) (k : Kind) (f : k.Content → Except Error k.Content) :
      Lawful (writePayload v k f).run
  | collect {r : Runner} {body : Runner.Body} :
      r.Announces body → (∀ b c args, Lawful (body b c args)) → Lawful (collect r)
  | teardown {r : Runner} {body : Runner.Body} :
      r.Announces body → (∀ b c args, Lawful (body b c args)) → Lawful (teardown r)
  | allocate {r : Runner} {body : Runner.Body} (d : Descriptor) (p : Payload) :
      r.Announces body → (∀ b c args, Lawful (body b c args)) → Lawful (allocate r d p).run

/-- The callbacks of a runner announce themselves and go on lawfully. -/
def Runner.Lawful (r : Runner) : Prop :=
  ∃ body, r.Announces body ∧ ∀ b c args, (body b c args).Lawful

/-! ## Nothing to avoid -/

section
variable {F : List Liberty}

theorem Step.avoidsHere_of_subset (hF : F ⊆ [.adopt, .trace]) (s : Step) : s.avoidsHere F = true := by
  have never : ∀ {l}, l ∉ [Liberty.adopt, .trace] → l ∉ F := fun hl hmem => hl (hF hmem)
  unfold Step.avoidsHere
  split
  · unfold Op.avoids
    split <;> first | rfl | exact decide_eq_true (never (by decide))
  · rfl

theorem Step.avoids_of_subset (hF : F ⊆ [.adopt, .trace]) (s : Step) : s.avoids F = true :=
  s.everywhere_of_forall (Step.avoidsHere_of_subset hF)

theorem Step.allAvoid_of_subset (hF : F ⊆ [.adopt, .trace]) (steps : List Step) :
    Step.allAvoid F steps = true :=
  Step.everyStep_of_forall (Step.avoidsHere_of_subset hF) steps

theorem Callback.avoids_of_subset (hF : F ⊆ [.adopt, .trace]) {b : Behavior} (c : Callback b) :
    c.avoids F = true := by
  cases c with
  | routine _ => rfl
  | script s =>
    have answer : s.answer.avoids F = true := by
      unfold Answer.avoids
      split
      · exact Step.avoids_of_subset hF _
      · rfl
    exact Bool.and_eq_true_iff.mpr ⟨Step.allAvoid_of_subset hF s.body, answer⟩

end

theorem Callback.avoids_nil {b : Behavior} (c : Callback b) : c.avoids [] = true :=
  c.avoids_of_subset (List.nil_subset _)

theorem Action.avoids_nil {α : Type} (a : Action α) : a.avoids [] = true := by
  cases a with
  | change v c => cases c <;> rfl
  | _ => rfl

section
variable {α β : Type} {x : Run α} {r : Runner}

theorem Run.Lawful.avoids (h : x.Lawful) : x.Avoids [] := by
  have beside : ∀ f, Liberty.Beside [] f := fun _ => .inl (by simp)
  induction h with
  | done a => exact .done a
  | look f => exact .look f
  | note f => exact .note f (beside f)
  | halt why => exact .halt why
  | act ordinary => exact .act ordinary (Action.avoids_nil _) fun h => absurd h List.not_mem_nil
  | andThen _ _ ihx ihnext => exact .andThen ihx ihnext
  | ensuring f _ ih => exact .ensuring f (beside f) ih
  | withFrame caller _ ih => exact .withFrame caller ih
  | withPayload v k _ ih => exact .withPayload v k ih
  | withPayloadMut v k _ ih => exact .withPayloadMut v k ih
  | writePayload v k f => exact .writePayload v k f
  | collect announces _ ih => exact .collect announces fun b c args _ => ih b c args
  | teardown announces _ ih => exact .teardown (by simp) announces fun b c args _ => ih b c args
  | allocate d p announces _ ih => exact .allocate d p announces fun b c args _ => ih b c args

theorem Run.Avoids.lawful (h : x.Avoids []) : x.Lawful := by
  induction h with
  | done a => exact .done a
  | look f => exact .look f
  | note f _ => exact .note f
  | halt why => exact .halt why
  | act ordinary _ _ => exact .act ordinary
  | andThen _ _ ihx ihnext => exact .andThen ihx ihnext
  | ensuring f _ _ ih => exact .ensuring f ih
  | invoke c args hb _ _ ih =>
    exact .andThen (.act (bne_iff_ne.mpr hb)) fun _ => ih c.avoids_nil
  | withFrame caller _ ih => exact .withFrame caller ih
  | withPayload v k _ ih => exact .withPayload v k ih
  | withPayloadMut v k _ ih => exact .withPayloadMut v k ih
  | writePayload v k f => exact .writePayload v k f
  | collect announces _ ih => exact .collect announces fun b c args => ih b c args c.avoids_nil
  | teardown _ announces _ ih => exact .teardown announces fun b c args => ih b c args c.avoids_nil
  | allocate d p announces _ ih =>
    exact .allocate d p announces fun b c args => ih b c args c.avoids_nil

theorem Runner.Lawful.avoids (hr : r.Lawful) : r.Avoids [] := by
  obtain ⟨body, announces, hbody⟩ := hr
  exact ⟨body, announces, fun b c args _ => (hbody b c args).avoids⟩

/-! ## Scripts and callbacks -/

theorem lawful_attempt_pure (a : α) : (pure a : Attempt α).run.Lawful := .done _

theorem lawful_attempt_bind {x : Attempt α} {next : α → Attempt β} (hx : x.run.Lawful)
    (hnext : ∀ a, (next a).run.Lawful) : (x >>= next).run.Lawful :=
  Run.Avoids.lawful ((Liberty.dialect []).attempt_bind hx.avoids fun a => (hnext a).avoids)

theorem lawful_teardown (hr : r.Lawful) : (teardown r).Lawful :=
  Run.Avoids.lawful (avoids_teardown (by simp) hr.avoids)

theorem lawful_step (hr : r.Lawful) (s : Step) : (s.run r).run.Lawful :=
  Run.Avoids.lawful (avoids_step hr.avoids s (s.avoids_of_subset (List.nil_subset _)))

theorem lawful_steps (hr : r.Lawful) (steps : List Step) : (Step.runAll r steps).run.Lawful :=
  Run.Avoids.lawful (avoids_steps hr.avoids steps
    (Step.allAvoid_of_subset (List.nil_subset _) steps))

end

/-- Callbacks inside callbacks, to whatever depth, are lawful. -/
theorem Runner.lawful_ofDepth (n : Nat) : (Runner.ofDepth n).Lawful := by
  obtain ⟨body, announces, hbody⟩ := Runner.avoids_ofDepth [] n
  exact ⟨body, announces, fun b c args => (hbody b c args c.avoids_nil).lawful⟩

/-! ## The container types that are known -/

/-- Computations that leave the container types known as they are. -/
def Idiom.loyal : Idiom := by
  refine .ofParts (fun x => ∀ w, (x.exec w).2.containers = w.containers) (fun _ _ => rfl)
    (fun _ _ => rfl) (fun _ _ => rfl) (fun h w => h w.toContext) (fun {_ _ x _} hx hnext w => ?_)
    (fun hx hlast w => ?_) (fun _ _ => rfl)
  · have first := hx w
    rw [exec_bind]
    rcases h : x.exec w with ⟨_ | a, w'⟩
    · rw [h] at first
      exact first
    · rw [h] at first
      exact (hnext a w').trans first
  · rw [exec_ensuring_snd]
    exact (hlast _).trans (hx w)

section
variable {α : Type} {r : Runner}

theorem loyal_act (a : Action α) : Idiom.loyal.has (act a) := fun _ => rfl

theorem loyal_ensuring {x : Run α} {last : Run Unit} (hx : Idiom.loyal.has x)
    (hlast : Idiom.loyal.has last) : Idiom.loyal.has (ensuring x last) := by
  intro w
  rw [exec_ensuring_snd]
  exact (hlast _).trans (hx w)

theorem loyal_markAll (vs : List Value) : Idiom.loyal.has (markAll vs) := by
  induction vs with
  | nil => exact Idiom.pure _ _
  | cons v vs ih => exact Idiom.bind _ (loyal_act _) fun _ => ih

theorem loyal_drain (hr : ∀ b c args, Idiom.loyal.has (r.run b c args)) (rounds : Nat) :
    Idiom.loyal.has (drain r rounds) := by
  have trace : ∀ id, Idiom.loyal.has (traceInstance r id) := by
    intro id
    refine Idiom.bind _ (Idiom.heap _) fun h => ?_
    split
    · exact Idiom.pure _ _
    · refine Idiom.bind _ (loyal_markAll _) fun _ => Idiom.bind _ (Idiom.heap _) fun h => ?_
      split
      · exact hr _ _ _
      · exact Idiom.pure _ _
  induction rounds with
  | zero =>
    unfold drain
    refine Idiom.bind _ (loyal_act _) fun next => ?_
    split
    · exact Idiom.pure _ _
    · exact Idiom.exhausted _
  | succ rounds ih =>
    unfold drain
    refine Idiom.bind _ (loyal_act _) fun next => ?_
    split
    · exact Idiom.pure _ _
    · exact Idiom.bind _ (trace _) fun _ => ih

theorem loyal_releaseAll (hr : ∀ b c args, Idiom.loyal.has (r.run b c args)) (slots : List Nat) :
    Idiom.loyal.has (releaseAll r slots) := by
  induction slots with
  | nil => exact Idiom.pure _ _
  | cons slot slots ih =>
    refine Idiom.bind _ (Idiom.bind _ (loyal_act _) fun evicted => ?_) fun _ => ih
    split
    · exact Idiom.pure _ _
    · refine Idiom.bind _ (Idiom.heap _) fun h => ?_
      split
      · exact hr _ _ _
      · exact Idiom.pure _ _

theorem loyal_collect (hr : ∀ b c args, Idiom.loyal.has (r.run b c args)) :
    Idiom.loyal.has (collect r) := by
  refine Idiom.bind _ (Idiom.heap _) fun h => ?_
  split
  · exact Idiom.bind _ (Idiom.report _ _) fun _ => Idiom.pure _ _
  · refine loyal_ensuring ?_ (loyal_act _)
    refine Idiom.bind _ (loyal_act _) fun _ => Idiom.bind _ (loyal_drain hr _) fun _ => ?_
    refine Idiom.bind _ (loyal_act _) fun doomed =>
      Idiom.bind _ (loyal_releaseAll hr _) fun _ => ?_
    refine Idiom.bind _ (loyal_act _) fun _ => Idiom.bind _ (Idiom.heap _) fun h => ?_
    exact Idiom.bind _ (Idiom.report _ _) fun _ => Idiom.pure _ _

theorem loyal_teardown (hr : ∀ b c args, Idiom.loyal.has (r.run b c args)) :
    Idiom.loyal.has (teardown r) := by
  refine Idiom.bind _ (Idiom.heap _) fun h => ?_
  split
  · exact Idiom.bind _ (Idiom.report _ _) fun _ => Idiom.pure _ _
  · refine loyal_ensuring ?_ (loyal_act _)
    refine Idiom.bind _ (loyal_act _) fun doomed =>
      Idiom.bind _ (loyal_releaseAll hr _) fun _ => ?_
    exact Idiom.bind _ (Idiom.report _ _) fun _ => Idiom.pure _ _

theorem loyal_allocate (hr : ∀ b c args, Idiom.loyal.has (r.run b c args)) (d : Descriptor)
    (p : Payload) : Idiom.loyal.has (allocate r d p).run := by
  have due : Idiom.loyal.has (collectIfDue r) := by
    refine Idiom.bind _ (Idiom.heap _) fun h => ?_
    split
    · exact Idiom.bind _ (loyal_collect hr) fun _ => loyal_act _
    · exact Idiom.pure _ _
  have now : Idiom.loyal.has (allocateNow r d p) := by
    refine Idiom.bind _ due fun _ => Idiom.bind _ (Idiom.look _ _) fun before => ?_
    refine Idiom.bind _ (loyal_act _) fun id => Idiom.bind _ (Idiom.look _ _) fun after => ?_
    split
    · exact Idiom.bind _ (Idiom.report _ _) fun _ => Idiom.pure _ _
    · exact Idiom.pure _ _
  refine Idiom.attempt_bind _ (Idiom.lift _ (Idiom.heap _)) fun h => ?_
  split
  · exact Idiom.attempt_bind _ (Idiom.throw _ _) fun _ => Idiom.lift _ now
  · exact Idiom.lift _ now

theorem Run.Avoids.loyal {F : List Liberty} (hF : .adopt ∈ F) {x : Run α} (h : x.Avoids F)
    (all : ∀ {b} (c : Callback b), c.avoids F = true) : Idiom.loyal.has x := by
  have beside : ∀ {f}, Liberty.Beside F f → ∀ c, (f c).containers = c.containers :=
    fun hf => hf.resolve_left fun hnot => hnot hF
  have runs : ∀ {r : Runner} {body : Runner.Body}, r.Announces body →
      (∀ b c args, c.avoids F = true → Idiom.loyal.has (body b c args)) →
      ∀ b c args, Idiom.loyal.has (r.run b c args) := by
    intro r body announces hbody b c args
    rw [announces]
    exact Idiom.bind _ (loyal_act _) fun _ => hbody b c args (all c)
  induction h with
  | done a => exact Idiom.done _ a
  | look f => exact Idiom.look _ f
  | note f hf => exact Idiom.note _ (beside hf)
  | halt why => exact Idiom.halt _ why
  | act _ _ _ => exact loyal_act _
  | andThen _ _ hx hnext => exact Idiom.bind _ hx hnext
  | ensuring f hf _ hx => exact Idiom.ensuring _ (beside hf) hx
  | invoke c args _ _ _ hx => exact Idiom.bind _ (loyal_act _) fun _ => hx (all c)
  | withFrame caller _ hx => exact Idiom.withFrame _ caller hx
  | withPayload v k _ hx => exact Idiom.withPayload _ v k hx
  | withPayloadMut v k _ hx =>
    refine Idiom.attempt_bind _ (Idiom.ask _ _) fun (id, c) => ?_
    refine Idiom.attempt_bind _ (Idiom.attempt_act _ (loyal_act _)) fun _ => ?_
    refine loyal_ensuring (Idiom.attempt_bind _ (hx c) fun (a, c) => ?_) (loyal_act _)
    exact Idiom.attempt_bind _ (Idiom.attempt_act _ (loyal_act _)) fun _ =>
      Idiom.attempt_pure _ a
  | writePayload v k f =>
    exact Idiom.attempt_bind _ (Idiom.ask _ _) fun (id, c) =>
      Idiom.attempt_act _ (loyal_act _)
  | collect announces _ hbody => exact loyal_collect (runs announces hbody)
  | teardown _ announces _ hbody => exact loyal_teardown (runs announces hbody)
  | allocate d p announces _ hbody => exact loyal_allocate (runs announces hbody) d p

end

theorem Runner.loyal_ofDepth (n : Nat) (b : Behavior) (c : Callback b) (args : b.Args) :
    Idiom.loyal.has ((Runner.ofDepth n).run b c args) := by
  obtain ⟨body, announces, hbody⟩ := Runner.avoids_ofDepth [.adopt] n
  have all : ∀ {b} (c : Callback b), c.avoids [.adopt] = true :=
    fun c => c.avoids_of_subset (by decide)
  rw [announces]
  exact Idiom.bind _ (loyal_act _) fun _ =>
    (hbody b c args (all c)).loyal List.mem_cons_self all

/-! ## Sessions -/

section
variable {F : List Liberty}

@[grind ←]
theorem avoids_installRoutines (d : Descriptor) (routines : List ((b : Behavior) × Routine b)) :
    (Liberty.dialect F).has (installRoutines d routines) := by
  induction routines with
  | nil => exact Idiom.pure _ _
  | cons routine rest ih => exact Idiom.bind _ (avoids_installCallback _ _ _) fun _ => ih

theorem avoids_registerContainers (hF : .adopt ∉ F) :
    (Liberty.dialect F).has registerContainers.run := by
  -- five times the same: a type is registered and its routines are installed
  have container : ∀ (name : String) (base : Option Descriptor)
      (routines : Descriptor → List ((b : Behavior) × Routine b))
      (next : Descriptor → Attempt Containers), (∀ d, (Liberty.dialect F).has (next d).run) →
      (Liberty.dialect F).has (do
        let d ← registerType name none base
        installRoutines d (routines d)
        next d : Attempt Containers).run := by
    intro name base routines next hnext
    grind
  have known : ∀ f, (Liberty.dialect F).has (note f) := fun f => .note f (.inl hF)
  refine container _ _ _ _ fun array => container _ _ _ _ fun list => ?_
  refine container _ _ _ _ fun string => container _ _ _ _ fun table => ?_
  refine container _ _ _ _ fun quotation => ?_
  grind

theorem Session.avoids_opening (s : Session) (hF : .adopt ∉ F) : s.opening.Avoids F := by
  unfold opening
  split
  · exact .andThen (avoids_registerContainers hF) fun _ => .done _
  · exact .done _

end

theorem Session.lawful_opening (s : Session) : s.opening.Lawful :=
  (s.avoids_opening (by simp)).lawful

end TracedHeap
