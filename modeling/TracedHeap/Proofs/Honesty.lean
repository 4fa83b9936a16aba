import TracedHeap.Proofs.Borrowing
import TracedHeap.Proofs.Lawful
import TracedHeap.Proofs.Listing

/-!
# Operations on containers keep the invariant

Wherever all containers are as they should be, any operation that makes no instances but containers
leaves them so, whether it ends or is cut short.  Most operations do nothing that could matter; the
others are gone through one by one.

* `Conduct.quiet`         a collection makes, writes and installs nothing;
* `Run.Honest`            computations that keep the invariant;
* `Idiom.honest`, `Dialect.honest`
                          what is put together from them is one of them;
* `honest_allocate`       so is the making of a container, after a collection if one is due;
* `toSequence_run`        a conversion gives a new array of what is to be listed, and remembers it;
* `honest_setItem`        a setting writes and at once outdates what is remembered;
* `honest_op`             so all these operations are honest.
-/

namespace TracedHeap

open Run

/-! ## Collections -/

/-- Nothing is made, written or installed.  This is asked of heaps with containers only. -/
def Conduct.quiet : Conduct where
  pre h := h.registry.Stocked
  rel _ ts _ := ∀ t ∈ ts, t.action.quiet = true ∧ t.action.installs = false
  nil _ := by simp
  append first second := List.forall_mem_append.mpr ⟨first, second⟩
  keeps p stocked rel :=
    (p.invariant (I := fun h => h.registry.Stocked) (fun t ht => t.stocked_after (rel t ht).2)
      stocked).1

section
variable (n : Nat)

theorem quiet_act {α : Type} {a : Action α} (hquiet : a.quiet = true)
    (hinstalls : a.installs = false) : (act a).Follows .quiet := by
  refine follows_act fun h _ t ht => ?_
  cases List.mem_singleton.mp ht
  exact ⟨hquiet, hinstalls⟩

theorem quiet_collects {α : Type} {a : Action α} (ha : a.collects = true) :
    (act a).Follows .quiet := by
  cases a with
  | mark | nextGray | startMarking | startSweep | evict | finishCollection | setPhase | schedule =>
    exact quiet_act rfl rfl
  | _ => cases ha

theorem quiet_mark : (Runner.ofDepth n).FollowsOn .quiet .mark := by
  intro h stocked d c hc args w _ t ht
  have marks := marks_run n (stocked.callback hc) args w t ht
  obtain ⟨a, heap⟩ := t
  cases a with
  | mark | invoke => exact ⟨rfl, rfl⟩
  | _ => cases marks

theorem quiet_free : (Runner.ofDepth n).FollowsOn .quiet .free := by
  intro h stocked d c hc
  rw [stocked.free d] at hc
  cases hc

theorem quiet_collect : (collect (.ofDepth n)).Follows .quiet :=
  follows_collect quiet_collects (quiet_mark n) (quiet_free n)

theorem quiet_collectIfDue : (collectIfDue (.ofDepth n)).Follows .quiet :=
  follows_collectIfDue quiet_collects (quiet_mark n) (quiet_free n)

theorem quiet_teardown : (teardown (.ofDepth n)).Follows .quiet :=
  follows_teardown quiet_collects (quiet_act rfl rfl) (quiet_free n)

theorem collectIfDue_sifts {w : World} (stocked : w.heap.registry.Stocked) :
    w.heap.Sifts ((collectIfDue (.ofDepth n)).exec w).2.heap := by
  cases due : w.heap.collectionDue with
  | true =>
    have sifts := collect_sifts n stocked
    rw [(collectIfDue_of_due _ due).1]
    rcases hcollect : (collect (.ofDepth n)).exec w with ⟨why | _, w'⟩
    · rw [hcollect] at sifts
      rw [(bind_of_error hcollect _).1]
      exact sifts
    · rw [hcollect] at sifts
      rw [(bind_of_ok hcollect _).1]
      exact ⟨sifts.registry, sifts.came, sifts.holds⟩
  | false =>
    rw [(collectIfDue_of_not_due _ due).1]
    exact .of_unmarked_eq rfl

end

/-! ## Honest computations -/

/-- All instances are containers as they should be, and the container types are known. -/
structure World.Truthful (past : List Transition) (w : World) : Prop where
  heap : w.heap.Truthful past
  containers : w.containers = some .standard

def Run.HonestAt {α : Type} (past : List Transition) (w : World) (x : Run α) : Prop :=
  (x.exec w).2.Truthful (past ++ x.trace w)

/-- The computation leaves a truthful world truthful. -/
def Run.Honest {α : Type} (x : Run α) : Prop := ∀ past w, w.Truthful past → x.HonestAt past w

section
variable {α β : Type} {past : List Transition} {w : World}

theorem honestAt_of_nil {x : Run α} {outcome : Except Halt α} (truth : w.Truthful past)
    (h : x.exec w = (outcome, w) ∧ x.trace w = []) : x.HonestAt past w := by
  unfold Run.HonestAt
  rw [h.1, h.2, List.append_nil]
  exact truth

theorem honestAt_bind {x : Run α} {next : α → Run β} (hx : x.HonestAt past w)
    (hnext : ∀ a w', x.exec w = (.ok a, w') → w'.Truthful (past ++ x.trace w) →
      (next a).HonestAt (past ++ x.trace w) w') : (x >>= next).HonestAt past w := by
  unfold Run.HonestAt at hx ⊢
  rcases h : x.exec w with ⟨why | a, w'⟩
  · rw [h] at hx
    rw [(bind_of_error h next).1, (bind_of_error h next).2]
    exact hx
  · rw [h] at hx
    rw [(bind_of_ok h next).1, (bind_of_ok h next).2, ← List.append_assoc]
    exact hnext a w' h hx

theorem honest_settled {a : Action α} (ha : a.settled = true) : (act a).Honest :=
  fun _ w truth => ⟨truth.heap.settled (t := ⟨a, w.heap⟩) ha, truth.containers⟩

def Idiom.honest : Idiom := by
  refine .ofParts Run.Honest (fun _ _ _ truth => honestAt_of_nil truth ⟨rfl, rfl⟩)
    (fun _ _ _ truth => honestAt_of_nil truth ⟨rfl, rfl⟩)
    (fun _ _ _ truth => honestAt_of_nil truth ⟨rfl, rfl⟩)
    (fun {f} hf past w truth => ?_)
    (fun hx hnext past w truth => honestAt_bind (hx past w truth) fun a w' _ => hnext a _ w')
    (fun {_ x last} hx hlast past w truth => ?_)
    (fun ha => honest_settled (Action.settled_of_brackets ha))
  · refine ⟨?_, (hf w.toContext).trans truth.containers⟩
    show w.heap.Truthful (past ++ [])
    rw [List.append_nil]
    exact truth.heap
  · have first := hlast _ _ (hx past w truth)
    unfold Run.HonestAt at first ⊢
    rw [exec_ensuring_snd]
    show World.Truthful (past ++ (x.trace w ++ last.trace (x.exec w).2)) _
    rw [← List.append_assoc]
    exact first

def Dialect.honest : Dialect where
  toIdiom := .honest
  calls c := c.standard = true
  act ha := honest_settled (Action.settled_of_harmless ha)
  heap_bind hnext past w truth := by
    refine hnext w.heap (fun b v c hc => ?_) past w truth
    obtain ⟨_, _, _, _, hc⟩ := Heap.callback_eq_some hc
    exact truth.heap.stocked.callback hc
  ask_callback {_ b v next} hnone hsome past w truth := by
    unfold Run.HonestAt
    rcases hc : w.heap.callback b v with e | _ | c
    · exact honestAt_of_nil truth (ask_bind_of_error hc next)
    · rw [(ask_bind_of_ok hc next).1, (ask_bind_of_ok hc next).2]
      exact hnone past w truth
    · rw [(ask_bind_of_ok hc next).1, (ask_bind_of_ok hc next).2]
      obtain ⟨_, _, _, _, hregistry⟩ := Heap.callback_eq_some hc
      exact hsome c (truth.heap.stocked.callback hregistry) past w truth

end

section
variable (n : Nat)

/-- What takes no sequence of an instance that is left, and makes and writes nothing, is honest. -/
theorem honest_of_sifts {α : Type} {x : Run α} (loyal : Idiom.loyal.has x)
    (quiet : x.Follows .quiet)
    (sifts : ∀ w : World, w.heap.registry.Stocked → w.heap.Sifts (x.exec w).2.heap) : x.Honest := by
  intro past w truth
  refine ⟨truth.heap.sift (x.path_trace w) (sifts w truth.heap.stocked) fun t ht => ?_,
    (loyal w).trans truth.containers⟩
  exact (quiet w truth.heap.stocked t ht).1

theorem honest_collect : (collect (.ofDepth n)).Honest :=
  honest_of_sifts (loyal_collect (Runner.loyal_ofDepth n)) (quiet_collect n)
    fun _ => collect_sifts n

theorem honest_teardown : (teardown (.ofDepth n)).Honest :=
  honest_of_sifts (loyal_teardown (Runner.loyal_ofDepth n)) (quiet_teardown n)
    fun _ => teardown_sifts n

theorem honest_collectIfDue : (collectIfDue (.ofDepth n)).Honest := by
  refine Idiom.honest.bind (Idiom.honest.heap) fun h => ?_
  split
  · exact Idiom.honest.bind (honest_collect n) fun _ => honest_settled rfl
  · exact Idiom.honest.pure _

/-- Containers are made honestly. -/
theorem honest_allocate {d : Descriptor} {p : Payload} (fits : d.content? = some p.kind) :
    (allocate (.ofDepth n) d p).run.Honest := by
  have place : (act (.place d p)).Honest :=
    fun _ _ truth => ⟨truth.heap.place fits, truth.containers⟩
  have now : (allocateNow (.ofDepth n) d p).Honest := by
    refine Idiom.honest.bind (honest_collectIfDue n) fun _ => ?_
    refine Idiom.honest.bind (Idiom.honest.look _) fun before => ?_
    refine Idiom.honest.bind place fun id => ?_
    refine Idiom.honest.bind (Idiom.honest.look _) fun after => ?_
    split
    · exact Idiom.honest.bind (Idiom.honest.report _) fun _ => Idiom.honest.pure _
    · exact Idiom.honest.pure _
  refine Idiom.honest.attempt_bind (Idiom.honest.lift Idiom.honest.heap) fun h => ?_
  split
  · exact Idiom.honest.attempt_bind (Idiom.honest.throw _) fun _ => Idiom.honest.lift now
  · exact Idiom.honest.lift now

theorem lift_heap_bind {α : Type} (w : World) (next : Heap → Attempt α) :
    ((liftM heap : Attempt Heap) >>= next).run.exec w = (next w.heap).run.exec w ∧
      ((liftM heap : Attempt Heap) >>= next).run.trace w = (next w.heap).run.trace w :=
  lift_look_bind World.heap w next

theorem honest_arrayCopy (array : Descriptor) (v : Value) :
    (arrayCopy (.ofDepth n) array v).run.Honest := by
  intro past w truth
  unfold arrayCopy
  rcases hread : w.heap.read v .items with e | items
  · exact honestAt_of_nil truth (ask_bind_of_error hread _)
  · obtain ⟨id, x, rfl, hx, hpayload⟩ := Heap.read_eq_ok hread
    have fits := truth.heap.fits id x hx
    rw [hpayload] at fits
    have hd : w.heap.descriptorOf (.ref id) = some x.descriptor := by
      show (w.heap.pool.get? id).map Instance.descriptor = _
      rw [hx]
      rfl
    unfold Run.HonestAt
    rw [(ask_bind_of_ok hread _).1, (ask_bind_of_ok hread _).2]
    rw [(lift_heap_bind w _).1, (lift_heap_bind w _).2, hd]
    exact honest_allocate n (p := .items items) fits past w truth

theorem honest_read_allocate {d : Descriptor} {k : Kind} (v : Value) (f : k.Content → Payload)
    (fits : ∀ c, d.content? = some (f c).kind) :
    (Attempt.ask (fun h => h.read v k) >>= fun c => allocate (.ofDepth n) d (f c)).run.Honest :=
  Idiom.honest.attempt_bind (Idiom.honest.ask _) fun c => honest_allocate n (fits c)

end

theorem Behavior.ne_set_of_plain {b : Behavior} (h : b.plain = true) : b ≠ .set := by
  rintro rfl
  cases h

/-- The callbacks of the containers are honest, except that a setting leaves the sequence of what it
writes to its caller. -/
theorem honest_run (n : Nat) {b : Behavior} (hb : b ≠ .set) {c : Callback b}
    (hc : c.standard = true) (args : b.Args) : ((Runner.ofDepth n).run b c args).Honest := by
  induction n generalizing b with
  | zero => exact Idiom.honest.bind (honest_settled rfl) fun _ => Idiom.honest.exhausted
  | succ n ih =>
    have runs : Dialect.honest.Runs (.ofDepth n) :=
      fun plain _ hc args => ih (Behavior.ne_set_of_plain plain) hc args
    refine Idiom.honest.bind (honest_settled rfl) fun _ => ?_
    obtain ⟨k, rfl, hk⟩ := Callback.exists_routine hc
    show (k.run (.ofDepth n) args).Honest
    cases k with
    | arraySet | tableSet => exact absurd rfl hb
    | stringSequence array =>
      cases of_decide_eq_true hk
      exact honest_read_allocate n args (k := .text) _ fun _ => rfl
    | tableSequence array =>
      cases of_decide_eq_true hk
      exact honest_read_allocate n args (k := .table) _ fun _ => rfl
    | arrayCopy array => exact honest_arrayCopy n array args
    | stringCopy string =>
      cases of_decide_eq_true hk
      exact honest_read_allocate n args (k := .text) _ fun _ => rfl
    | tableCopy table =>
      cases of_decide_eq_true hk
      exact honest_read_allocate n args (k := .table) _ fun _ => rfl
    | _ => exact Dialect.routine runs _ rfl args

theorem honest_runs (n : Nat) : Dialect.honest.Runs (.ofDepth n) :=
  fun plain _ hc args => honest_run n (Behavior.ne_set_of_plain plain) hc args

/-! ## Conversions -/

section
variable {n : Nat} {past : List Transition} {w w' : World} {id : InstanceId} {x : Instance}
  {q : Value}

/-- One collection releases a slot at most once, so the name of a new instance is another one than
that of an instance that was there before. -/
theorem allocate_ne {d : Descriptor} {p : Payload} (truth : w.heap.Truthful past)
    (hx : w.heap.pool.get? id = some x)
    (hok : (allocate (.ofDepth n) d p).run.exec w = (.ok (.ok q), w')) : q ≠ .ref id := by
  obtain ⟨w₁, hdue, rfl, _, htrace⟩ := allocate_eq_ok hok
  have path := (allocate (.ofDepth n) d p).run.path_trace w
  have collected := (collectIfDue (.ofDepth n)).path_trace w
  rw [htrace] at path
  let place : Transition := ⟨.place d p, w₁.heap⟩
  have once : releases ((collectIfDue (.ofDepth n)).trace w) id.index ≤ 1 := by
    have hreleased := collected.releasedFrom_once truth.sound ⟨x, hx⟩ fun t ht other hother => ?_
    · unfold releases
      rw [List.countP_eq_length_filter]
      exact hreleased.length_le
    · obtain ⟨quiet, _⟩ := quiet_collectIfDue n w truth.stocked t ht
      obtain ⟨a, h⟩ := t
      cases a with
      | place => cases quiet
      | _ => cases hother
  have few : releases ((collectIfDue (.ofDepth n)).trace w ++ [place]) id.index < UInt32.size := by
    rw [releases_append]
    show _ + 0 < _
    unfold UInt32.size
    omega
  intro heq
  refine path.placed?_ne truth.sound few ⟨x, hx⟩ place
    (List.mem_append_right _ List.mem_cons_self) ?_
  exact congrArg some (Value.ref.inj heq)

theorem allocate_settles {d : Descriptor} {p : Payload} (truth : w.heap.Truthful past)
    (hx : w.heap.pool.get? id = some x)
    (hok : (allocate (.ofDepth n) d p).run.exec w = (.ok (.ok q), w')) :
    ∀ x', w'.heap.pool.get? id = some x' → x.Settles x' := by
  intro x' hx'
  have hne := allocate_ne truth hx hok
  obtain ⟨w₁, hdue, rfl, hheap, _⟩ := allocate_eq_ok hok
  have sifts := collectIfDue_sifts n truth.stocked
  have sound := ((collectIfDue (.ofDepth n)).path_trace w).soundPool truth.sound
  rw [hdue] at sifts sound
  rw [hheap] at hx'
  rcases Transition.poolStep ⟨.place d p, w₁.heap⟩ |>.came hx' with hplaced | ⟨⟨y, hy⟩, _⟩
  · exact absurd (congrArg Value.ref (Option.some.inj hplaced)) hne
  · obtain ⟨x₀, hx₀, same⟩ := sifts.came id y hy
    cases hx.symm.trans hx₀
    obtain ⟨z, hz, m⟩ := Heap.get?_place sound d p hy
    cases hx'.symm.trans hz
    exact (Instance.Settles.of_unmark_eq same).trans (.of_marks m)

/-- `q` is an array with the elements `items`, and was not written since it was made. -/
def Heap.Fresh (h : Heap) (past : List Transition) (q : Value) (items : List Value) : Prop :=
  ∃ a y, q = .ref a ∧ h.pool.get? a = some y ∧ y.descriptor = Containers.standard.array ∧
    y.payload = .items items ∧ writtenAfter a past = false

theorem allocate_fresh {items : List Value} (sound : w.heap.SoundPool)
    (hok : (allocate (.ofDepth n) Containers.standard.array (.items items)).run.exec w =
      (.ok (.ok q), w')) :
    w'.heap.Fresh
      (past ++ (allocate (.ofDepth n) Containers.standard.array (.items items)).run.trace w) q
      items := by
  obtain ⟨w₁, hdue, rfl, hheap, htrace⟩ := allocate_eq_ok hok
  have sound₁ := ((collectIfDue (.ofDepth n)).path_trace w).soundPool sound
  rw [hdue] at sound₁
  obtain ⟨y, hy, m⟩ := Heap.get?_place_self sound₁ Containers.standard.array (.items items)
  refine ⟨_, y, rfl, hheap ▸ hy, m.descriptor, m.payload, ?_⟩
  rw [htrace, ← List.append_assoc, writtenAfter_concat]
  show (_ && (_ != _)) = false
  rw [bne_self_eq_false, Bool.and_false]

theorem Heap.Truthful.conversion {h : Heap} {c : Callback .toSequence} (truth : h.Truthful past)
    (hx : h.pool.get? id = some x) (hc : h.registry.callback? x.descriptor .toSequence = some c) :
    (∃ items, x.payload = .items items ∧ c = .routine .arraySequence) ∨
      (∃ s, x.payload = .text s ∧ c = .routine (.stringSequence Containers.standard.array)) ∨
        ∃ es, x.payload = .table es ∧ c = .routine (.tableSequence Containers.standard.array) := by
  have fits := truth.fits id x hx
  have known : ∀ {i t}, x.descriptor = ⟨i⟩ → standardTables[i]? = some t →
      t.entry .toSequence = some c := by
    intro i t hd ht
    rw [hd, truth.stocked.callback?_of_table ht] at hc
    exact hc
  match hd : x.descriptor with
  | ⟨0⟩ | ⟨1⟩ =>
    cases known hd rfl
    rw [hd] at fits
    cases hpayload : x.payload with
    | items items => exact .inl ⟨items, rfl, rfl⟩
    | _ =>
      rw [hpayload] at fits
      cases fits
  | ⟨2⟩ =>
    cases known hd rfl
    rw [hd] at fits
    cases hpayload : x.payload with
    | text s => exact .inr (.inl ⟨s, rfl, rfl⟩)
    | _ =>
      rw [hpayload] at fits
      cases fits
  | ⟨3⟩ =>
    cases known hd rfl
    rw [hd] at fits
    cases hpayload : x.payload with
    | table es => exact .inr (.inr ⟨es, rfl, rfl⟩)
    | _ =>
      rw [hpayload] at fits
      cases fits
  | ⟨4⟩ => cases known hd rfl
  | ⟨i + 5⟩ =>
    rw [hd] at fits
    cases fits

/-- The callback that converts a container gives an array that lists what it is to list, and leaves
the container as it is. -/
theorem sequence_run {c : Callback .toSequence} (truth : w.heap.Truthful past)
    (hx : w.heap.pool.get? id = some x)
    (hc : w.heap.registry.callback? x.descriptor .toSequence = some c)
    (hok : ((Runner.ofDepth n).run .toSequence c (.ref id)).exec w = (.ok (.ok q), w')) :
    (∀ x', w'.heap.pool.get? id = some x' → x.Settles x') ∧
      ∀ items, x.payload.listing? = some items →
        w'.heap.Fresh (past ++ ((Runner.ofDepth n).run .toSequence c (.ref id)).trace w) q
          items := by
  cases n with
  | zero =>
    rw [(run_ofDepth_zero c _ w).1] at hok
    cases hok
  | succ n =>
    rw [(run_ofDepth_succ n c _ w).1] at hok
    rw [(run_ofDepth_succ n c _ w).2, List.append_cons]
    have truth' : w.heap.Truthful (past ++ [⟨.invoke .toSequence c (.ref id), w.heap⟩]) :=
      truth.settled (t := ⟨.invoke .toSequence c (.ref id), w.heap⟩) rfl
    -- reads the payload and makes an array
    have reads : ∀ {k : Kind} {content : k.Content} (f : k.Content → List Value),
        x.payload = .of k content → x.payload.listing? = some (f content) →
        c.run (.ofDepth n) (.ref id) = (Attempt.ask (fun h => h.read (.ref id) k) >>= fun c =>
          allocate (.ofDepth n) Containers.standard.array (.items (f c))).run →
        (∀ x', w'.heap.pool.get? id = some x' → x.Settles x') ∧
          ∀ items, x.payload.listing? = some items → w'.heap.Fresh
            (past ++ [⟨.invoke .toSequence c (.ref id), w.heap⟩] ++
              (c.run (.ofDepth n) (.ref id)).trace w) q items := by
      intro k content f hpayload hlisting hrun
      have hread : w.heap.read (.ref id) k = .ok content := by
        rw [Heap.read_of_get? hx (truth.readable id x hx), hpayload, Payload.as?_of]
      rw [hrun] at hok ⊢
      rw [(ask_bind_of_ok hread _).1] at hok
      rw [(ask_bind_of_ok hread _).2]
      refine ⟨allocate_settles truth' hx hok, fun items hitems => ?_⟩
      cases hlisting.symm.trans hitems
      exact allocate_fresh truth'.sound hok
    rcases truth.conversion hx hc with
      ⟨items, hpayload, rfl⟩ | ⟨s, hpayload, rfl⟩ | ⟨es, hpayload, rfl⟩
    · cases hok
      refine ⟨fun x' hx' => ?_, fun items hitems => ?_⟩
      · cases hx.symm.trans hx'
        exact .refl x
      · rw [hpayload] at hitems
        cases hitems
    · exact reads (k := .text) codePoints hpayload (by rw [hpayload]; rfl) rfl
    · exact reads (k := .table) (List.map Prod.fst) hpayload (by rw [hpayload]; rfl) rfl

theorem Heap.pool_attach (h : Heap) (v : Value) : (h.attach v).2.pool = h.pool := by
  unfold attach
  split <;> rfl

theorem convert_run {c : Callback .toSequence} (truth : w.heap.Truthful past)
    (hx : w.heap.pool.get? id = some x)
    (hc : w.heap.registry.callback? x.descriptor .toSequence = some c)
    (hok : (convert (.ofDepth n) c (.ref id)).run.exec w = (.ok (.ok q), w')) :
    (∀ x', w'.heap.pool.get? id = some x' → x.Settles x') ∧
      ∀ items, x.payload.listing? = some items →
        w'.heap.Fresh (past ++ (convert (.ofDepth n) c (.ref id)).run.trace w) q items := by
  have answer := exec_convert (.ofDepth n) c (.ref id) w
  rcases hrun : ((Runner.ofDepth n).run .toSequence c (.ref id)).exec (w.inFrame (.ref id)) with
    ⟨outcome, w₁⟩
  rw [hok, hrun] at answer
  cases answer
  let enter : Transition := ⟨.pushFrame (.ref id), w.heap⟩
  have truth₁ : (w.inFrame (.ref id)).heap.Truthful (past ++ [enter]) := by
    rw [World.heap_inFrame]
    exact truth.settled (t := enter) rfl
  have hx₁ : (w.inFrame (.ref id)).heap.pool.get? id = some x := by
    rw [World.heap_inFrame]
    exact hx
  have hc₁ : (w.inFrame (.ref id)).heap.registry.callback? x.descriptor .toSequence = some c := by
    rw [World.heap_inFrame]
    exact hc
  obtain ⟨settles, fresh⟩ := sequence_run truth₁ hx₁ hc₁ hrun
  obtain ⟨hinside, htrace⟩ := convertInside_of_ok hrun
  have hheap : w'.heap.pool = w₁.heap.pool := by
    have left := (exec_withFrame (.ref id) (convertInside (.ofDepth n) c (.ref id)) w).2
    rw [← run_convert, hok, hinside] at left
    rw [show w'.heap = _ from left]
    exact Heap.pool_attach _ _
  rw [hheap]
  refine ⟨settles, fun items hitems => ?_⟩
  obtain ⟨a, y, rfl, hy, hdescriptor, hpayload, unwritten⟩ := fresh items hitems
  refine ⟨a, y, rfl, hheap ▸ hy, hdescriptor, hpayload, ?_⟩
  rw [run_convert, trace_withFrame, htrace, List.append_assoc, List.append_cons,
    ← List.append_assoc]
  refine ((past_append_of_quiet a _ ?_).1).trans unwritten
  exact List.forall_mem_cons.mpr ⟨rfl, List.forall_mem_singleton.mpr rfl⟩

theorem Heap.Fresh.lists {h : Heap} {items : List Value} (fresh : h.Fresh past q items) :
    h.Lists past q items := by
  obtain ⟨a, y, hq, hy, hdescriptor, hpayload, _⟩ := fresh
  exact ⟨a, y, hq, hy, hdescriptor, fun _ => hpayload⟩

theorem honest_convert (n : Nat) {c : Callback .toSequence} (hc : c.standard = true) (v : Value) :
    (convert (.ofDepth n) c v).run.Honest := by
  have run := honest_run n (b := .toSequence) nofun hc v
  refine Idiom.honest.withFrame v (Idiom.honest.bind run fun answer => ?_)
  split
  · exact Idiom.honest.pure _
  · exact Idiom.honest.bind (honest_settled rfl) fun _ => Idiom.honest.pure _

/-- What a conversion has to say when the callback runs. -/
theorem toSequence_run {c : Callback .toSequence} (truth : w.Truthful past)
    (hc : w.heap.callback .toSequence (.ref id) = .ok (some c))
    (hx : w.heap.pool.get? id = some x) (hq : x.sequence.current? = none) :
    (toSequence (.ofDepth n) (.ref id)).run.HonestAt past w ∧
      ∀ q w', (toSequence (.ofDepth n) (.ref id)).run.exec w = (.ok (.ok q), w') →
        (∃ x', w'.heap.pool.get? id = some x' ∧ x'.sequence.current? = some q ∧
          x'.descriptor = x.descriptor ∧ x'.payload = x.payload) ∧
        ∀ items, x.payload.listing? = some items →
          ∃ a, q = .ref a ∧
            writtenAfter a (past ++ (toSequence (.ofDepth n) (.ref id)).run.trace w) = false := by
  obtain ⟨_, _, hid, hx₀, hcallback⟩ := Heap.callback_eq_some hc
  cases hid
  cases hx.symm.trans hx₀
  obtain ⟨hexec, htrace⟩ := toSequence_of_callback (r := .ofDepth n) hc hx hq
  have converted := honest_convert n (truth.heap.stocked.callback hcallback) (.ref id) past w truth
  unfold Run.HonestAt at converted ⊢
  rw [hexec, htrace, Attempt.exec_bind, trace_attempt_bind]
  rcases hconvert : (convert (.ofDepth n) c (.ref id)).run.exec w with ⟨why | e | q, w₁⟩
  · rw [hconvert] at converted
    rw [List.append_nil]
    refine ⟨converted, fun _ _ hok => ?_⟩
    cases hok
  · rw [hconvert] at converted
    rw [List.append_nil]
    refine ⟨converted, fun _ _ hok => ?_⟩
    cases hok
  · rw [hconvert] at converted
    obtain ⟨settles, fresh⟩ := convert_run truth.heap hx hcallback hconvert
    simp only
    cases hx₁ : w₁.heap.pool.get? id with
    | none =>
      rw [(rememberSequence_of_none hx₁ q).1, (rememberSequence_of_none hx₁ q).2, List.append_nil]
      refine ⟨converted, fun _ _ hok => ?_⟩
      cases hok
    | some x₁ =>
      have same := settles x₁ hx₁
      rw [(rememberSequence_of_get? hx₁ q).1, (rememberSequence_of_get? hx₁ q).2,
        ← List.append_assoc]
      refine ⟨⟨converted.heap.remember hx₁ fun items hitems => ?_, converted.containers⟩, ?_⟩
      · rw [same.payload] at hitems
        exact (fresh items hitems).lists
      · rintro _ _ ⟨⟩
        refine ⟨⟨_, Heap.get?_modify_self _ hx₁, rfl, same.descriptor, same.payload⟩,
          fun items hitems => ?_⟩
        obtain ⟨a, _, rfl, _, _, _, unwritten⟩ := fresh items hitems
        refine ⟨a, rfl, (past_append_of_quiet a _ ?_).1.trans unwritten⟩
        exact List.forall_mem_singleton.mpr rfl

theorem honest_toSequence (n : Nat) (v : Value) : (toSequence (.ofDepth n) v).run.Honest := by
  intro past w truth
  rcases hc : w.heap.callback .toSequence v with e | _ | c
  · exact honestAt_of_nil truth (ask_bind_of_error hc _)
  · unfold toSequence Run.HonestAt
    rw [(ask_bind_of_ok hc _).1, (ask_bind_of_ok hc _).2]
    exact Idiom.honest.attempt_pure Value.nil past w truth
  · obtain ⟨id, x, rfl, hx, _⟩ := Heap.callback_eq_some hc
    cases hq : x.sequence.current? with
    | some q => exact honestAt_of_nil truth (toSequence_of_current hc hx hq)
    | none => exact (toSequence_run truth hc hx hq).1

end

/-! ## Settings -/

theorem keys_putEntry (entries : List (Value × Value)) (found : Option Nat) (key item : Value) :
    (putEntry entries found key item).map Prod.fst = entries.map Prod.fst ∨
      (putEntry entries found key item).map Prod.fst = entries.map Prod.fst ++ [key] := by
  unfold putEntry
  split
  · next n k hfound =>
    obtain ⟨_, _, hentry⟩ := Option.bind_eq_some_iff.mp hfound
    obtain ⟨e, he, hk⟩ := Option.map_eq_some_iff.mp hentry
    cases hk
    refine .inl (List.ext_getElem? fun i => ?_)
    rw [List.map_set, List.getElem?_set]
    split
    · next hi =>
      subst hi
      rw [List.getElem?_map, he, if_pos (by simpa using (List.getElem?_eq_some_iff.mp he).1)]
      rfl
    · rfl
  · exact .inr (List.map_append ..)

/-- The computation fails and is honest, or it ends with the writing of `v`, before which all was
honest. -/
inductive Run.SetsAt (past : List Transition) (w : World) (v : Value)
    (x : Run (Except Error Unit)) : Prop where
  | fails : x.HonestAt past w → (x.exec w).1 ≠ .ok (.ok ()) → SetsAt past w v x
  | writes {w' : World} {id : InstanceId} {y : Instance} {p : Payload} (us : List Transition) :
      v = .ref id → w'.Truthful (past ++ us) → w'.heap.pool.get? id = some y → y.payload.Revises p →
      x.exec w = (.ok (.ok ()), { w' with heap := w'.heap.change (.ref id) (.write p) }) →
      x.trace w = us ++ [⟨.change (.ref id) (.write p), w'.heap⟩] → SetsAt past w v x

section
variable {n : Nat} {past : List Transition} {w : World} {v : Value}

theorem sets_bind {α : Type} {x : Run α} {next : α → Run (Except Error Unit)}
    (hx : x.HonestAt past w)
    (hnext : ∀ a w', w'.Truthful (past ++ x.trace w) → (next a).SetsAt (past ++ x.trace w) w' v) :
    (x >>= next).SetsAt past w v := by
  unfold Run.HonestAt at hx
  rcases hexec : x.exec w with ⟨why | a, w'⟩
  · rw [hexec] at hx
    refine .fails ?_ ?_
    · unfold Run.HonestAt
      rw [(bind_of_error hexec next).1, (bind_of_error hexec next).2]
      exact hx
    · rw [(bind_of_error hexec next).1]
      nofun
  · rw [hexec] at hx
    obtain ⟨hnextexec, hnexttrace⟩ := bind_of_ok hexec next
    cases hnext a w' hx with
    | fails honest fails =>
      refine .fails ?_ (hnextexec ▸ fails)
      unfold Run.HonestAt at honest ⊢
      rw [hnextexec, hnexttrace, ← List.append_assoc]
      exact honest
    | writes us hv truth hy revises hwrite htrace =>
      refine .writes (x.trace w ++ us) hv ?_ hy revises (hnextexec.trans hwrite) ?_
      · rw [← List.append_assoc]
        exact truth
      · rw [hnexttrace, htrace, List.append_assoc]

theorem sets_attempt_bind {α : Type} {x : Attempt α} {next : α → Attempt Unit}
    (hx : x.run.HonestAt past w) (hnext : ∀ a w', w'.Truthful (past ++ x.run.trace w) →
      (next a).run.SetsAt (past ++ x.run.trace w) w' v) : (x >>= next).run.SetsAt past w v := by
  refine sets_bind hx fun outcome w' truth => ?_
  cases outcome with
  | error e => exact .fails (Idiom.honest.pure _ _ w' truth) nofun
  | ok a => exact hnext a w' truth

theorem sets_writePayload {k : Kind} {f : k.Content → Except Error k.Content}
    (truth : w.Truthful past)
    (revises : ∀ c c', f c = .ok c' → (Payload.of k c).Revises (.of k c')) :
    (writePayload v k f).run.SetsAt past w v := by
  rcases writePayload_cases v k f w with ⟨e, hexec, htrace⟩ | ⟨id, c, c', hc, hf, hexec, htrace⟩
  · refine .fails (honestAt_of_nil truth ⟨hexec, htrace⟩) ?_
    rw [hexec]
    nofun
  · obtain ⟨y, rfl, hy, _, hpayload⟩ := Heap.content_eq_ok hc
    refine .writes [] rfl ?_ hy ?_ hexec htrace
    · rw [List.append_nil]
      exact truth
    · rw [hpayload]
      exact revises c c' hf

theorem sets_run {c : Callback .set} (hc : c.standard = true) (truth : w.Truthful past)
    (v index item : Value) :
    ((Runner.ofDepth n).run .set c (v, index, item)).SetsAt past w v := by
  have invoked : (act (.invoke .set c (v, index, item))).HonestAt past w :=
    honest_settled rfl past w truth
  cases n with
  | zero =>
    refine .fails
      (Idiom.honest.bind (honest_settled rfl) (fun _ => Idiom.honest.exhausted) past w truth) ?_
    rw [(run_ofDepth_zero c _ w).1]
    nofun
  | succ n =>
    refine sets_bind invoked fun _ w₁ truth₁ => ?_
    obtain ⟨k, rfl, _⟩ := Callback.exists_routine hc
    cases k with
    | arraySet =>
      show (arraySet v index item).run.SetsAt _ _ _
      refine sets_writePayload (k := .items) truth₁ fun items items' _ => ⟨rfl, ?_⟩
      rintro _ _ ⟨⟩
    | tableSet =>
      refine sets_attempt_bind (Idiom.honest.ask _ _ w₁ truth₁) fun entries w₂ truth₂ => ?_
      refine sets_attempt_bind
        (Idiom.honest.lift (Dialect.findKey (honest_runs n) index entries) _ w₂ truth₂)
        fun found w₃ truth₃ => ?_
      refine sets_writePayload (k := .table) truth₃ fun es es' hes => ⟨rfl, ?_⟩
      rintro _ _ ⟨⟩ ⟨⟩
      cases hes
      exact (keys_putEntry es found index item).imp_right fun heq => ⟨index, heq⟩

/-- What is set has its sequence outdated at once, so a setting is honest. -/
theorem honest_setItem (n : Nat) (v index item : Value) :
    (setItem (.ofDepth n) v index item).run.Honest := by
  intro past w truth
  unfold setItem
  rcases hc : w.heap.callback .set v with e | _ | c
  · exact honestAt_of_nil truth (ask_bind_of_error hc _)
  · unfold Run.HonestAt
    rw [(ask_bind_of_ok hc _).1, (ask_bind_of_ok hc _).2]
    exact Idiom.honest.attempt_pure false past w truth
  · obtain ⟨_, _, _, _, hcallback⟩ := Heap.callback_eq_some hc
    unfold Run.HonestAt
    rw [(ask_bind_of_ok hc _).1, (ask_bind_of_ok hc _).2]
    simp only [Attempt.exec_bind, trace_attempt_bind, Attempt.exec_ofRun]
    cases sets_run (n := n) (truth.heap.stocked.callback hcallback) truth v index item with
    | fails honest fails =>
      unfold Run.HonestAt at honest
      rcases hset : ((Runner.ofDepth n).run .set c (v, index, item)).exec w with ⟨why | e | _, w'⟩
      · rw [hset] at honest
        rw [List.append_nil]
        exact honest
      · rw [hset] at honest
        rw [List.append_nil]
        exact honest
      · rw [hset] at fails
        exact absurd rfl fails
    | @writes w₁ id y p us hv truth₁ hy revises hexec htrace =>
      subst hv
      let h : Heap := w₁.heap.change (.ref id) (.write p)
      have written : ({ w₁ with heap := h } : World).heap.pool.get? id =
          some ((Change.write p).apply y) := Heap.get?_modify_self _ hy
      rw [hexec]
      simp only
      rw [(exec_change_of_get? written _).1, (exec_change_of_get? written _).2]
      show World.Truthful
        (past ++ (((Runner.ofDepth n).run .set c (.ref id, index, item)).trace w ++
          [⟨.change (.ref id) .invalidateSequence, h⟩]))
        { w₁ with heap := h.change (.ref id) .invalidateSequence }
      rw [htrace, List.append_assoc, ← List.append_assoc]
      exact ⟨truth₁.heap.write hy revises, truth₁.containers⟩

end

/-! ## Operations -/

def Op.contained : Op → Bool
  | alloc .. => false
  | _ => true

theorem honest_containerTypes_bind {α : Type} {next : Containers → Attempt α}
    (hnext : (next .standard).run.Honest) : (containerTypes >>= next).run.Honest := by
  intro past w truth
  have known : containerTypes.run.exec w = (.ok (.ok .standard), w) ∧
      containerTypes.run.trace w = [] := by
    unfold containerTypes
    simp only [Attempt.exec_bind, Attempt.exec_lift, world, exec_look, id_eq, trace_attempt_bind,
      trace_lift, trace_look, List.nil_append, truth.containers]
    exact ⟨rfl, rfl⟩
  unfold Run.HonestAt
  rw [Attempt.exec_bind, trace_attempt_bind, known.1, known.2]
  exact hnext past w truth

theorem honest_pushFrame (caller : Value) : (pushFrame caller).Honest := by
  refine Idiom.honest.bind Idiom.honest.heap fun h =>
    Idiom.honest.bind (honest_settled rfl) fun _ => ?_
  split
  · exact Idiom.honest.report _
  · exact Idiom.honest.pure _

theorem honest_popFrame : popFrame.Honest := by
  refine Idiom.honest.bind (Idiom.honest.look _) fun depth =>
    Idiom.honest.bind (honest_settled rfl) fun _ => ?_
  split
  · exact Idiom.honest.report _
  · exact Idiom.honest.pure _

theorem honest_copy (n : Nat) (v : Value) : (copy (.ofDepth n) v).run.Honest :=
  Dialect.honest.ask_callback (Idiom.honest.attempt_pure v) fun _ hc =>
    honest_run n (b := .copy) nofun hc v

theorem honest_op (n : Nat) (o : Op) (ho : o.contained = true) :
    (o.run (.ofDepth n)).run.Honest := by
  have made : ∀ (d : Containers → Descriptor) (p : Payload),
      (d .standard).content? = some p.kind →
      (do return .value (← allocate (.ofDepth n) (d (← containerTypes)) p) :
        Attempt Reply).run.Honest := by
    intro d p fits
    refine honest_containerTypes_bind ?_
    exact Idiom.honest.attempt_bind (honest_allocate n fits) fun _ => Idiom.honest.attempt_pure _
  have done : ∀ {α : Type} {a : Action α} (reply : α → Reply), a.settled = true →
      (do return reply (← Attempt.act a) : Attempt Reply).run.Honest := fun reply ha =>
    Idiom.honest.attempt_bind (Idiom.honest.attempt_act (honest_settled ha)) fun _ =>
      Idiom.honest.attempt_pure _
  have answer : ∀ {α : Type} {x : Attempt α} (reply : α → Reply), x.run.Honest →
      (do return reply (← x) : Attempt Reply).run.Honest := fun reply hx =>
    Idiom.honest.attempt_bind hx fun _ => Idiom.honest.attempt_pure _
  have given : ∀ (v : Operand) {x : Value → Attempt Reply}, (∀ u, (x u).run.Honest) →
      (v.resolve >>= x).run.Honest := fun v x hx =>
    Idiom.honest.attempt_bind (Idiom.honest.operand v) hx
  cases o with
  | alloc => cases ho
  | array items =>
    exact Idiom.honest.attempt_bind (Idiom.honest.operands items) fun vs =>
      made Containers.array (.items vs) rfl
  | list items =>
    exact Idiom.honest.attempt_bind (Idiom.honest.operands items) fun vs =>
      made Containers.list (.items vs) rfl
  | quotation words =>
    exact Idiom.honest.attempt_bind (Idiom.honest.operands words) fun vs =>
      made Containers.quotation (.words vs) rfl
  | string text => exact made Containers.string (.text text) rfl
  | table => exact made Containers.table (.table []) rfl
  | pushFrame caller =>
    exact given caller fun v => answer (fun _ => .done) (Idiom.honest.lift (honest_pushFrame v))
  | popFrame => exact answer (fun _ => .done) (Idiom.honest.lift honest_popFrame)
  | resyncFrames depth => exact done (fun _ => .done) rfl
  | pin p v =>
    refine given v fun u => done (fun _ => .done) ?_
    cases p <;> rfl
  | collect => exact answer .count (Idiom.honest.lift (honest_collect n))
  | teardown => exact answer .count (Idiom.honest.lift (honest_teardown n))
  | toSequence v => exact given v fun u => answer .value (honest_toSequence n u)
  | copy v => exact given v fun u => answer .value (honest_copy n u)
  | set v index item =>
    exact given v fun u => given index fun i => given item fun x =>
      answer .flag (honest_setItem n u i x)
  | _ => exact Dialect.op (honest_runs n) _ rfl

end TracedHeap
