import TracedHeap.Proofs.Balance
import TracedHeap.Proofs.Borrowing
import TracedHeap.Proofs.Conversion
import TracedHeap.Proofs.Permanence

/-!
# A running receiver is not collected

The receiver of an operation is the caller of the frame in which the operation runs, and the callers
of the frames kept are roots.  So no collection that starts inside the frame releases the receiver,
as long as the frame stays and nobody takes its mark away in the middle of a collection.

* `Collecting.spares`       a collection does not release a root;
* `Proceeds.spares`         nor do collections one after the other, if it stays a root;
* `Conduct.sheltering`      the callers of frames stay, and no mark is taken away;
* `spared_withFrame`        the receiver stays while something runs inside its frame;
* `receiver_stays`          what this says of `withFrame`, `call` and `toSequence`;
* `receiver_released`       beyond the limit a frame does not keep its caller, and the receiver of
                            a conversion is released.
-/

namespace TracedHeap

open Run

/-! ## Marks -/

def Transition.unmarks : Transition → Bool
  | ⟨.change _ .unmark, _⟩ => true
  | _ => false

theorem Change.marked {c : Change} (hc : c ≠ .unmark) (x : Instance) :
    (c.apply x).marked = x.marked := by
  cases c with
  | unmark => exact absurd rfl hc
  | advanceCursor len =>
    show (x.advance len).2.marked = x.marked
    unfold Instance.advance
    split <;> rfl
  | _ => rfl

theorem Transition.effect_marked {t : Transition} (calm : t.action.calm = true)
    (keeps : t.unmarks = false) (id : InstanceId) (x : Instance) :
    (t.effect id x).marked = x.marked := by
  obtain ⟨a, h⟩ := t
  cases a with
  | change v c =>
    cases v with
    | ref other =>
      have hc : c ≠ .unmark := by
        rintro rfl
        cases keeps
      show (if other = id then c.apply x else x).marked = x.marked
      split
      · exact Change.marked hc x
      · rfl
    | _ => rfl
  | startUse a other | stopUse a other =>
    show (if other = id then _ else x).marked = x.marked
    split <;> rfl
  | startSweep => cases calm
  | _ => rfl

/-- Between the start of a marking and the start of its sweep, what is marked stays so. -/
theorem Path.marked {h h' : Heap} {ts : List Transition} (p : Path h ts h') (sound : h.SoundPool)
    (calm : ∀ t ∈ ts, t.action.calm = true) (keeps : ∀ t ∈ ts, t.unmarks = false)
    {id : InstanceId} {x : Instance} (hx : h.pool.get? id = some x) (marked : x.marked = true) :
    ∃ y, h'.pool.get? id = some y ∧ y.marked = true := by
  induction p generalizing x with
  | nil => exact ⟨x, hx, marked⟩
  | cons t _ ih =>
    obtain ⟨calm, hcalm⟩ := List.forall_mem_cons.mp calm
    obtain ⟨keeps, hkeeps⟩ := List.forall_mem_cons.mp keeps
    have kept : t.released? ≠ some id := by
      rw [Transition.released?_of_calm calm]
      exact nofun
    obtain ⟨y, hy, hxy⟩ := t.effect_of_get? sound hx kept
    have hmarked := hxy.marked ((t.effect_marked calm keeps id x).trans marked)
    exact ih (t.soundPool sound) hcalm hkeeps hy hmarked

/-! ## Collections -/

theorem Interlude.spares {h h' : Heap} {ts : List Transition} (i : Interlude h ts h')
    (id : InstanceId) : ∀ t ∈ ts, t.released? ≠ some id := by
  intro t ht
  rw [Transition.released?_of_calm (i.calm t ht)]
  exact nofun

theorem Collecting.start_mem {h h' : Heap} {ts : List Transition} {ended : Except Halt Nat}
    (c : Collecting h ts ended h') : ⟨.startMarking, h⟩ ∈ ts := by
  cases c <;> exact List.mem_cons_self

/-- A collection does not release a root. -/
theorem Collecting.spares {h h' : Heap} {ts : List Transition} {ended : Except Halt Nat}
    (c : Collecting h ts ended h') (sound : h.SoundPool) {id : InstanceId} {x : Instance}
    (hx : h.pool.get? id = some x) (root : .ref id ∈ h.roots)
    (keeps : ∀ t ∈ ts, t.unmarks = false) : ∀ t ∈ ts, t.released? ≠ some id := by
  obtain ⟨y, hy, _, hmarked⟩ := Heap.get?_startMarking hx
  intro t ht hgone
  obtain ⟨marking, h₁, rest, z, rfl, i, hz, unpinned⟩ :=
    c.unpinned_of_released (List.mem_filterMap.mpr ⟨t, ht, hgone⟩)
  obtain ⟨hkeeps, _⟩ := List.forall_mem_append.mp (List.forall_mem_cons.mp keeps).2
  -- its mark is still there when the sweep starts
  obtain ⟨z', hz', marked⟩ := i.path.marked (Transition.soundPool ⟨.startMarking, h⟩ sound) i.calm
    hkeeps hy (hmarked root)
  rw [hz] at hz'
  cases hz'
  rw [Instance.pinned, marked] at unpinned
  cases unpinned

theorem Proceeds.spares {h h' : Heap} {ts : List Transition} (p : Proceeds h ts h')
    (sound : h.SoundPool) {id : InstanceId} (live : ∃ x, h.pool.get? id = some x)
    (roots : ∀ t ∈ ts, .ref id ∈ t.before.roots)
    (keeps : ∀ t ∈ ts, t.unmarks = false) (standing : ∀ t ∈ ts, t.tearsDown = false) :
    ∀ t ∈ ts, t.released? ≠ some id := by
  induction p with
  | interlude i => exact i.spares id
  | append first _ ihfirst ihsecond =>
    obtain ⟨hroots, hroots'⟩ := List.forall_mem_append.mp roots
    obtain ⟨hkeeps, hkeeps'⟩ := List.forall_mem_append.mp keeps
    obtain ⟨hstanding, hstanding'⟩ := List.forall_mem_append.mp standing
    have spared := ihfirst sound live hroots hkeeps hstanding
    have sound' := first.path.soundPool sound
    have live' := first.path.contains sound live spared
    exact List.forall_mem_append.mpr ⟨spared, ihsecond sound' live' hroots' hkeeps' hstanding'⟩
  | collection _ collecting =>
    obtain ⟨x, hx⟩ := live
    have root := roots _ (List.mem_append_left _ collecting.start_mem)
    obtain ⟨hkeeps, _⟩ := List.forall_mem_append.mp keeps
    refine List.forall_mem_append.mpr ⟨?_, List.forall_mem_singleton.mpr nofun⟩
    exact collecting.spares sound hx root hkeeps
  | @teardown h =>
    have begins := standing ⟨.startTeardown, h⟩ (List.mem_append_left _ List.mem_cons_self)
    cases begins

/-! ## The callers of frames -/

/-- What can take a receiver out of its frame, or its mark from it. -/
def Liberty.exposing : List Liberty := [.popFrame, .resyncFrames, .teardown, .unmark]

theorem callers_attachLast (S : List Scope) (id : InstanceId) :
    (attachLast S id).map Scope.caller = S.map Scope.caller := by
  refine List.ext_getElem? fun l => ?_
  rw [List.getElem?_map, List.getElem?_map, getElem?_attachLast]
  split
  · rw [Option.map_map]
    rfl
  · rfl

theorem Transition.callers_scopes {t : Transition} (free : t.action.avoids Liberty.exposing = true)
    (S : List Scope) : S.map Scope.caller <+: (t.scopes S).map Scope.caller := by
  obtain ⟨a, h⟩ := t
  have same : S.map Scope.caller <+: S.map Scope.caller := List.prefix_rfl
  cases a with
  | popFrame | resyncFrames | startTeardown => cases free
  | pushFrame caller =>
    show S.map Scope.caller <+: (S ++ [({ caller } : Scope)]).map Scope.caller
    rw [List.map_append]
    exact List.prefix_append _ _
  | attach v =>
    cases v with
    | ref id =>
      show S.map Scope.caller <+:
        (if h.contains (.ref id) then attachLast S id else S).map Scope.caller
      split
      · rewrite [callers_attachLast]
        exact same
      · exact same
    | _ => exact same
  | place d p =>
    show S.map Scope.caller <+: (attachLast S (h.place d p).1).map Scope.caller
    rewrite [callers_attachLast]
    exact same
  | _ => exact same

/-- Whatever the stack of scopes is at first, its callers are there at every moment, at the bottom
of the stack. -/
def Conduct.sheltering : Conduct where
  pre _ := True
  rel _ ts _ := ∀ us vs, ts = us ++ vs → ∀ S : List Scope,
    S.map Scope.caller <+: (scopesAfter S us).map Scope.caller
  nil _ := by
    intro us vs heq S
    obtain ⟨rfl, _⟩ := List.append_eq_nil_iff.mp heq.symm
    exact List.prefix_rfl
  append := by
    intro _ _ _ ts us first second as bs heq S
    rcases List.append_eq_append_iff.mp heq with ⟨as', rfl, hus⟩ | ⟨bs', hts, rfl⟩
    · rw [scopesAfter_append]
      exact (first ts [] (List.append_nil ts).symm S).trans (second as' bs hus _)
    · exact first as bs' hts S
  keeps _ _ _ := trivial

theorem sheltering_act {α : Type} {a : Action α} (free : a.avoids Liberty.exposing = true) :
    (act a).Follows .sheltering := by
  refine follows_act fun h _ us vs heq S => ?_
  rcases us with _ | ⟨t, us⟩
  · exact List.prefix_rfl
  · obtain ⟨rfl, hnil⟩ := List.cons.inj heq
    obtain ⟨rfl, _⟩ := List.append_eq_nil_iff.mp hnil.symm
    exact Transition.callers_scopes free S

theorem nests_sheltering : Conduct.sheltering.Nests where
  enter _ _ := trivial
  leave := by
    intro h h' caller ts _ _ inside us vs heq S
    have entered : ∀ us vs, ts = us ++ vs →
        S.map Scope.caller ++ [caller] <+:
          (scopesAfter (S ++ [⟨caller, []⟩]) us).map Scope.caller := by
      intro us vs heq
      have := inside us vs heq (S ++ [⟨caller, []⟩])
      rwa [List.map_append] at this
    rcases us with _ | ⟨t, us⟩
    · exact List.prefix_rfl
    obtain ⟨rfl, hrest⟩ := List.cons.inj heq
    show S.map Scope.caller <+: (scopesAfter (S ++ [⟨caller, []⟩]) us).map Scope.caller
    rcases List.append_eq_append_iff.mp hrest with ⟨us', rfl, hus⟩ | ⟨vs', hts, _⟩
    · have whole := entered ts [] (List.append_nil ts).symm
      rcases us' with _ | ⟨u, us'⟩
      · rw [List.append_nil]
        exact (List.prefix_append _ _).trans whole
      · obtain ⟨rfl, hnil⟩ := List.cons.inj hus
        obtain ⟨rfl, _⟩ := List.append_eq_nil_iff.mp hnil.symm
        rw [scopesAfter_append]
        show S.map Scope.caller <+:
          (scopesAfter (S ++ [⟨caller, []⟩]) ts).dropLast.map Scope.caller
        -- the scope that is left last is above those that were there before
        obtain ⟨above, habove⟩ := whole
        rw [List.map_dropLast, ← habove, List.append_assoc, List.dropLast_append_of_ne_nil]
        · exact List.prefix_append _ _
        · simp
    · exact (List.prefix_append _ _).trans (entered us vs' hts)

theorem unmarks_of_avoids {F : List Liberty} (hF : .unmark ∈ F) {α : Type} {x : Run α}
    (avoids : x.Avoids F) {w : World} (heeds : ∀ t ∈ x.trace w, t.avoids F = true) :
    ∀ t ∈ x.trace w, t.unmarks = false := by
  refine avoids.each ?_ (fun _ _ => rfl) (fun _ => rfl) heeds
  intro β a free h
  cases a with
  | change v c =>
    cases c with
    | unmark => exact absurd hF (of_decide_eq_true free)
    | _ => rfl
  | _ => rfl

theorem tearsDown_of_avoids {F : List Liberty} (hF : .teardown ∈ F) {α : Type} {x : Run α}
    (avoids : x.Avoids F) {w : World} (heeds : ∀ t ∈ x.trace w, t.avoids F = true) :
    ∀ t ∈ x.trace w, t.tearsDown = false := by
  refine avoids.each ?_ (fun _ _ => rfl) (fun _ => rfl) heeds
  intro β a free h
  cases a with
  | startTeardown => exact absurd hF (of_decide_eq_true free)
  | _ => rfl

theorem Frames.caller_mem_roots {f : Frames} {l : Nat} {v : Value}
    (h : (f.level? l).map Frame.caller = some v) : v ∈ f.roots := by
  obtain ⟨top, htop, rfl⟩ := Option.map_eq_some_iff.mp h
  have hmem : top ∈ f.kept := List.mem_reverse.mp (List.mem_of_getElem? htop)
  exact List.mem_flatMap.mpr ⟨top, hmem, List.mem_cons_self⟩

section
variable {w : World} {id : InstanceId} {α : Type} {x : Run α}

/-- As long as there is room for a frame, what runs inside it finds its caller among the roots at
every moment. -/
theorem caller_stays_root (framed : w.heap.Framed)
    (room : w.heap.frames.depth < w.heap.config.maxFrameDepth) (caller : Value)
    (avoids : x.Avoids Liberty.exposing)
    (heeds : ∀ t ∈ x.trace (w.inFrame caller), t.avoids Liberty.exposing = true) :
    ∀ t ∈ x.trace (w.inFrame caller), caller ∈ t.before.roots := by
  intro t ht
  obtain ⟨positive, S, refines⟩ := framed
  obtain ⟨_, follows⟩ := avoids.follows sheltering_act nests_sheltering (w.inFrame caller) trivial
  have callers := follows heeds trivial
  obtain ⟨us, vs, hcut⟩ := List.append_of_mem ht
  have path := x.path_trace (w.inFrame caller)
  rw [hcut, World.heap_inFrame] at path
  obtain ⟨h, before, after⟩ := path.split
  obtain rfl : t.before = h := by cases after; rfl
  -- the frames at this moment stand for scopes, of which the one just entered is one
  have now := before.refines positive (refines.push caller)
  have low : S.map Scope.caller ++ [caller] <+:
      (scopesAfter (S ++ [⟨caller, []⟩]) us).map Scope.caller := by
    have := callers us (t :: vs) hcut (S ++ [⟨caller, []⟩])
    rwa [List.map_append] at this
  rw [refines.depth] at room
  have level := now.caller S.length room
  obtain ⟨above, habove⟩ := low
  rw [← List.getElem?_map, ← habove, List.append_assoc,
    List.getElem?_append_right (by simp)] at level
  have hroot := Frames.caller_mem_roots (v := caller) (level.trans (by simp))
  exact List.mem_append_right _ hroot

/-- The receiver stays while something runs inside its frame. -/
theorem spared_withFrame (sound : w.heap.SoundPool) (framed : w.heap.Framed)
    (room : w.heap.frames.depth < w.heap.config.maxFrameDepth)
    (live : ∃ y, w.heap.pool.get? id = some y) (lawful : x.Lawful)
    (avoids : x.Avoids Liberty.exposing)
    (heeds : ∀ t ∈ (withFrame (.ref id) x).trace w, t.avoids Liberty.exposing = true) :
    ∀ t ∈ (withFrame (.ref id) x).trace w, t.released? ≠ some id := by
  rw [trace_withFrame] at heeds ⊢
  obtain ⟨heeds, _⟩ := List.forall_mem_append.mp (List.forall_mem_cons.mp heeds).2
  have sound' : (w.inFrame (.ref id)).heap.SoundPool := by
    rw [World.heap_inFrame]
    exact Transition.soundPool ⟨.pushFrame (.ref id), w.heap⟩ sound
  have live' : ∃ y, (w.inFrame (.ref id)).heap.pool.get? id = some y := by
    rw [World.heap_inFrame]
    exact live
  have inside : ∀ t ∈ x.trace (w.inFrame (.ref id)), t.released? ≠ some id := by
    by_cases ready : (w.inFrame (.ref id)).heap.refusal? = none
    · obtain ⟨proceeds, _⟩ := lawful.orderly (w.inFrame (.ref id)) ⟨sound', ready⟩
      exact proceeds.spares sound' live' (caller_stays_root framed room _ avoids heeds)
        (unmarks_of_avoids (by decide) avoids heeds) (tearsDown_of_avoids (by decide) avoids heeds)
    · exact (lawful.inside (w.inFrame (.ref id)) ready).spares id
  refine List.forall_mem_cons.mpr ⟨nofun, List.forall_mem_append.mpr ⟨inside, ?_⟩⟩
  exact List.forall_mem_singleton.mpr nofun

theorem contains_moments (sound : w.heap.SoundPool) (live : ∃ y, w.heap.pool.get? id = some y)
    (spared : ∀ t ∈ x.trace w, t.released? ≠ some id) :
    ∀ h ∈ x.moments w, h.contains (.ref id) = true := by
  have there : ∀ {h : Heap}, (∃ y, h.pool.get? id = some y) → h.contains (.ref id) = true :=
    fun hy => Option.isSome_iff_exists.mpr hy
  intro h hh
  rcases List.mem_cons.mp hh with rfl | hh
  · exact there live
  obtain ⟨t, ht, rfl⟩ := List.mem_map.mp hh
  obtain ⟨us, vs, hcut⟩ := List.append_of_mem ht
  have path := x.path_trace w
  rw [hcut] at path spared
  obtain ⟨h, before, after⟩ := path.split
  obtain rfl : t.before = h := by cases after; rfl
  obtain ⟨hus, hvs⟩ := List.forall_mem_append.mp spared
  obtain ⟨y, hy⟩ := before.contains sound live hus
  have sound' := before.soundPool sound
  obtain ⟨z, hz, _⟩ := t.effect_of_get? sound' hy (hvs t List.mem_cons_self)
  exact there ⟨z, hz⟩

end

/-! ## Operations that run inside a frame of their own -/

section
variable {w : World} {id : InstanceId} {n : Nat}

theorem trace_call (r : Runner) (v : Value) (w : World) :
    (call r v).run.trace w = [] ∨ (call r v).run.trace w = [⟨.push v, w.heap⟩] ∨
      ∃ c, (call r v).run.trace w = (withFrame v (r.run .call c v)).trace w := by
  unfold call
  rcases hc : w.heap.callback .call v with e | _ | c
  · exact .inl (ask_bind_of_error hc _).2
  · refine .inr (.inl ?_)
    rw [(ask_bind_of_ok hc _).2]
    rfl
  · refine .inr (.inr ⟨c, ?_⟩)
    rw [(ask_bind_of_ok hc _).2]
    rfl

theorem spared_call (sound : w.heap.SoundPool) (framed : w.heap.Framed)
    (room : w.heap.frames.depth < w.heap.config.maxFrameDepth)
    (live : ∃ y, w.heap.pool.get? id = some y)
    (heeds : ∀ t ∈ (call (.ofDepth n) (.ref id)).run.trace w, t.avoids Liberty.exposing = true) :
    ∀ t ∈ (call (.ofDepth n) (.ref id)).run.trace w, t.released? ≠ some id := by
  have running : ∀ F c, (Run.Avoids F ((Runner.ofDepth n).run .call c (.ref id))) :=
    fun F c => (Runner.avoids_ofDepth F n).run (by decide) (by decide) c _
  rcases trace_call (.ofDepth n) (.ref id) w with hnil | hpush | ⟨c, hframe⟩
  · rw [hnil]
    simp
  · rw [hpush]
    exact List.forall_mem_singleton.mpr nofun
  · rw [hframe] at heeds ⊢
    exact spared_withFrame sound framed room live (running [] c).lawful (running _ c) heeds

theorem avoids_convertInside {F : List Liberty} {r : Runner} (hr : r.Avoids F)
    (c : Callback .toSequence) (v : Value) : (convertInside r c v).Avoids F := by
  show (Liberty.dialect F).has (convertInside r c v)
  unfold convertInside
  grind

theorem spared_convert (sound : w.heap.SoundPool) (framed : w.heap.Framed)
    (room : w.heap.frames.depth < w.heap.config.maxFrameDepth)
    (live : ∃ y, w.heap.pool.get? id = some y) (c : Callback .toSequence)
    (heeds : ∀ t ∈ (convert (.ofDepth n) c (.ref id)).run.trace w,
      t.avoids Liberty.exposing = true) :
    ∀ t ∈ (convert (.ofDepth n) c (.ref id)).run.trace w, t.released? ≠ some id :=
  spared_withFrame sound framed room live
    (avoids_convertInside (Runner.avoids_ofDepth [] n) c _).lawful
    (avoids_convertInside (Runner.avoids_ofDepth _ n) c _) heeds

theorem spared_toSequence {r : Runner} (live : ∃ y, w.heap.pool.get? id = some y)
    (converting : ∀ c, w.heap.callback .toSequence (.ref id) = .ok (some c) →
      (convert r c (.ref id)).run.trace w <+: (toSequence r (.ref id)).run.trace w →
      ∀ t ∈ (convert r c (.ref id)).run.trace w, t.released? ≠ some id) :
    ∀ t ∈ (toSequence r (.ref id)).run.trace w, t.released? ≠ some id := by
  obtain ⟨y, hy⟩ := live
  rcases toSequence_cases r hy with ⟨q, _, hnil⟩ | ⟨c, hc, hq⟩
  · rw [hnil]
    simp
  · have hrun := (toSequence_of_callback (r := r) hc hy hq).2
    obtain ⟨last, htrace, hlast⟩ := trace_convert_remember r c id w
    rw [htrace] at hrun
    have spared := converting c hc ⟨last, hrun.symm⟩
    rw [hrun]
    refine List.forall_mem_append.mpr ⟨spared, fun t ht => ?_⟩
    obtain ⟨q, h, rfl⟩ := hlast t ht
    exact nofun

/-! ## Conversion of strings and tables -/

theorem Heap.read_ne_stale {h : Heap} (live : ∃ y, h.pool.get? id = some y) (k : Kind) :
    h.read (.ref id) k ≠ .error (.stale id) := by
  obtain ⟨y, hy⟩ := live
  unfold read content
  rw [find_of_get? hy]
  show Except.map Prod.snd (if Access.read.allowed y.borrow then _ else _) ≠ _
  split
  · cases y.payload.as? k <;> exact nofun
  · exact nofun

theorem allocate_error {r : Runner} {d : Descriptor} {p : Payload} {e : Error}
    (h : ((allocate r d p).run.exec w).1 = .ok (.error e)) : e = .unknownDescriptor d := by
  rcases Nat.lt_or_ge d.index w.heap.registry.size with known | unknown
  · rw [(allocate_of_known known).2, Attempt.exec_lift] at h
    rcases hnow : (allocateNow r d p).exec w with ⟨_ | _, _⟩ <;> rw [hnow] at h <;> cases h
  · rw [(allocate_of_unknown unknown).2] at h
    cases h
    rfl

def Callback.lists (array : Descriptor) (c : Callback .toSequence) : Prop :=
  c = .routine (.stringSequence array) ∨ c = .routine (.tableSequence array)

theorem read_allocate_ne_stale {r : Runner} {d : Descriptor} {k : Kind} (f : k.Content → Payload)
    (live : ∃ y, w.heap.pool.get? id = some y) :
    ((Attempt.ask (fun h => h.read (.ref id) k) >>= fun c => allocate r d (f c)).run.exec w).1 ≠
      .ok (.error (.stale id)) := by
  intro hstale
  rcases hread : w.heap.read (.ref id) k with e | content
  · rw [(ask_bind_of_error hread _).1] at hstale
    cases hstale
    exact Heap.read_ne_stale live k hread
  · rw [(ask_bind_of_ok hread _).1] at hstale
    cases allocate_error hstale

theorem Callback.lists.ne_stale {array : Descriptor} {c : Callback .toSequence} (hc : c.lists array)
    (live : ∃ y, w.heap.pool.get? id = some y) :
    (((Runner.ofDepth n).run .toSequence c (.ref id)).exec w).1 ≠ .ok (.error (.stale id)) := by
  cases n with
  | zero =>
    rw [(run_ofDepth_zero c _ w).1]
    exact fun h => by cases h
  | succ n =>
    rw [(run_ofDepth_succ n c _ w).1]
    rcases hc with rfl | rfl
    · show ((stringSequence (.ofDepth n) array (.ref id)).run.exec w).1 ≠ _
      exact read_allocate_ne_stale (k := .text) (fun s => .items (codePoints s)) live
    · show ((tableSequence (.ofDepth n) array (.ref id)).run.exec w).1 ≠ _
      exact read_allocate_ne_stale (k := .table) (fun entries => .items (entries.map Prod.fst)) live

/-! ### Only the taking away of marks can harm them -/

theorem trace_collectIfDue (r : Runner) (w : World) :
    (collectIfDue r).trace w = [] ∨
      w.heap.refusal? = none ∧ ∃ last, (collectIfDue r).trace w = (collect r).trace w ++ last ∧
        ∀ t ∈ last, ∃ h, t = ⟨.schedule, h⟩ := by
  cases due : w.heap.collectionDue with
  | false => exact .inl (collectIfDue_of_not_due r due).2
  | true =>
    refine .inr ⟨(Heap.collectionDue_iff.mp due).2.2, ?_⟩
    rw [(collectIfDue_of_due r due).2, trace_bind]
    rcases (collect r).exec w with ⟨why | _, w'⟩
    · exact ⟨[], rfl, by simp⟩
    · exact ⟨_, rfl, fun t ht => ⟨_, List.mem_singleton.mp ht⟩⟩

theorem spared_collectIfDue (sound : w.heap.SoundPool) (live : ∃ y, w.heap.pool.get? id = some y)
    (root : .ref id ∈ w.heap.roots)
    (keeps : ∀ t ∈ (collectIfDue (.ofDepth n)).trace w, t.unmarks = false) :
    ∀ t ∈ (collectIfDue (.ofDepth n)).trace w, t.released? ≠ some id := by
  rcases trace_collectIfDue (.ofDepth n) w with hnil | ⟨ready, last, htrace, hlast⟩
  · rw [hnil]
    simp
  · obtain ⟨body, announces, hbody⟩ := Runner.lawful_ofDepth n
    obtain ⟨y, hy⟩ := live
    have collecting :=
      collecting_collectNow announces (fun b c args => (hbody b c args).inside) sound
    rw [htrace, (collect_ready _ ready).1] at keeps ⊢
    obtain ⟨keeps, _⟩ := List.forall_mem_append.mp (List.forall_mem_append.mp keeps).1
    have spared := collecting.spares sound hy root keeps
    refine List.forall_mem_append.mpr ⟨List.forall_mem_append.mpr ⟨spared, ?_⟩, fun t ht => ?_⟩
    · exact List.forall_mem_singleton.mpr nofun
    · obtain ⟨h, rfl⟩ := hlast t ht
      exact nofun

theorem trace_allocate (r : Runner) (d : Descriptor) (p : Payload) (w : World) :
    (allocate r d p).run.trace w = [] ∨
      ∃ last, (allocate r d p).run.trace w = (collectIfDue r).trace w ++ last ∧
        ∀ t ∈ last, ∃ h, t = ⟨.place d p, h⟩ := by
  rcases Nat.lt_or_ge d.index w.heap.registry.size with known | unknown
  · refine .inr ?_
    rw [(allocate_of_known known).1]
    rcases hdue : (collectIfDue r).exec w with ⟨why | _, w'⟩
    · rw [(allocateNow_of_error hdue).1]
      exact ⟨[], (List.append_nil _).symm, by simp⟩
    · rw [(allocateNow_of_ok hdue).1]
      exact ⟨_, rfl, fun t ht => ⟨_, List.mem_singleton.mp ht⟩⟩
  · exact .inl (allocate_of_unknown unknown).1

theorem spared_allocate {d : Descriptor} {p : Payload} (sound : w.heap.SoundPool)
    (live : ∃ y, w.heap.pool.get? id = some y) (root : .ref id ∈ w.heap.roots)
    (keeps : ∀ t ∈ (allocate (.ofDepth n) d p).run.trace w, t.unmarks = false) :
    ∀ t ∈ (allocate (.ofDepth n) d p).run.trace w, t.released? ≠ some id := by
  rcases trace_allocate (.ofDepth n) d p w with hnil | ⟨last, htrace, hlast⟩
  · rw [hnil]
    simp
  · rw [htrace] at keeps ⊢
    obtain ⟨keeps, _⟩ := List.forall_mem_append.mp keeps
    refine List.forall_mem_append.mpr ⟨spared_collectIfDue sound live root keeps, fun t ht => ?_⟩
    obtain ⟨h, rfl⟩ := hlast t ht
    exact nofun

theorem spared_read_allocate {d : Descriptor} {k : Kind} (f : k.Content → Payload)
    (sound : w.heap.SoundPool) (live : ∃ y, w.heap.pool.get? id = some y)
    (root : .ref id ∈ w.heap.roots) {x : Attempt Value}
    (hx : x = Attempt.ask (fun h => h.read (.ref id) k) >>= fun c => allocate (.ofDepth n) d (f c))
    (keeps : ∀ t ∈ x.run.trace w, t.unmarks = false) :
    ∀ t ∈ x.run.trace w, t.released? ≠ some id := by
  rw [hx] at keeps ⊢
  rcases hread : w.heap.read (.ref id) k with e | content
  · rw [(ask_bind_of_error hread _).2]
    simp
  · rw [(ask_bind_of_ok hread _).2] at keeps ⊢
    exact spared_allocate sound live root keeps

/-- The callback of a string or a table reads the payload and allocates once. -/
theorem Callback.lists.spared {array : Descriptor} {c : Callback .toSequence} (hc : c.lists array)
    (sound : w.heap.SoundPool) (live : ∃ y, w.heap.pool.get? id = some y)
    (root : .ref id ∈ w.heap.roots)
    (keeps : ∀ t ∈ ((Runner.ofDepth n).run .toSequence c (.ref id)).trace w, t.unmarks = false) :
    ∀ t ∈ ((Runner.ofDepth n).run .toSequence c (.ref id)).trace w, t.released? ≠ some id := by
  cases n with
  | zero =>
    rw [(run_ofDepth_zero c _ w).2]
    exact List.forall_mem_singleton.mpr nofun
  | succ n =>
    rw [(run_ofDepth_succ n c _ w).2] at keeps ⊢
    obtain ⟨_, keeps⟩ := List.forall_mem_cons.mp keeps
    refine List.forall_mem_cons.mpr ⟨nofun, ?_⟩
    rcases hc with rfl | rfl
    · exact spared_read_allocate (k := .text) (fun s => .items (codePoints s)) sound live root
        (x := stringSequence (.ofDepth n) array (.ref id)) rfl keeps
    · exact spared_read_allocate (k := .table) (fun entries => .items (entries.map Prod.fst)) sound
        live root (x := tableSequence (.ofDepth n) array (.ref id)) rfl keeps

theorem Heap.caller_mem_roots_pushFrame {h : Heap} (room : h.frames.depth < h.config.maxFrameDepth)
    (caller : Value) : caller ∈ (h.pushFrame caller).roots := by
  have hkept : ¬ h.config.maxFrameDepth ≤ h.frames.kept.length := by
    unfold Frames.depth at room
    omega
  refine List.mem_append_right _ ?_
  show caller ∈ (h.frames.push h.config.maxFrameDepth caller).roots
  unfold Frames.push
  rw [if_neg hkept]
  exact List.mem_cons_self

theorem Callback.lists.spared_convert {array : Descriptor} {c : Callback .toSequence}
    (hc : c.lists array) (sound : w.heap.SoundPool) (live : ∃ y, w.heap.pool.get? id = some y)
    (room : w.heap.frames.depth < w.heap.config.maxFrameDepth)
    (heeds : ∀ t ∈ (convert (.ofDepth n) c (.ref id)).run.trace w, t.avoids [.unmark] = true) :
    ∀ t ∈ (convert (.ofDepth n) c (.ref id)).run.trace w, t.released? ≠ some id := by
  have avoids : (convert (.ofDepth n) c (.ref id)).run.Avoids [.unmark] :=
    avoids_convert (Runner.avoids_ofDepth _ n) c _
  have keeps := unmarks_of_avoids (by decide) avoids heeds
  obtain ⟨last, htrace, hlast⟩ := trace_convert (.ofDepth n) c (.ref id) w
  rw [htrace] at keeps ⊢
  obtain ⟨keeps, _⟩ := List.forall_mem_append.mp (List.forall_mem_cons.mp keeps).2
  have hheap := w.heap_inFrame (.ref id)
  have sound' : (w.inFrame (.ref id)).heap.SoundPool := by
    rw [hheap]
    exact Transition.soundPool ⟨.pushFrame (.ref id), w.heap⟩ sound
  have inside := hc.spared sound' (by rw [hheap]; exact live)
    (by rw [hheap]; exact Heap.caller_mem_roots_pushFrame room _) keeps
  refine List.forall_mem_cons.mpr ⟨nofun, List.forall_mem_append.mpr ⟨inside, fun t ht => ?_⟩⟩
  rcases hlast t ht with ⟨q, h, rfl⟩ | ⟨h, rfl⟩ <;> exact nofun

/-- If the receiver is not released meanwhile, its conversion does not find it gone. -/
theorem Callback.lists.toSequence_ne_stale {array : Descriptor} {c : Callback .toSequence}
    (hc : c.lists array) (hcallback : w.heap.callback .toSequence (.ref id) = .ok (some c))
    (sound : w.heap.SoundPool) (live : ∃ y, w.heap.pool.get? id = some y)
    (spared : ∀ t ∈ (toSequence (.ofDepth n) (.ref id)).run.trace w, t.released? ≠ some id) :
    ((toSequence (.ofDepth n) (.ref id)).run.exec w).1 ≠ .ok (.error (.stale id)) := by
  obtain ⟨y, hy⟩ := live
  rcases toSequence_cases (.ofDepth n) hy with ⟨q, hok, _⟩ | ⟨_, _, hq⟩
  · rw [hok]
    exact fun h => by cases h
  · obtain ⟨hexec, htrace⟩ := toSequence_of_callback (r := .ofDepth n) hcallback hy hq
    obtain ⟨last, hsplit, _⟩ := trace_convert_remember (.ofDepth n) c id w
    rw [htrace, hsplit] at spared
    have path := (convert (.ofDepth n) c (.ref id)).run.path_trace w
    obtain ⟨z, hz⟩ := path.contains sound ⟨y, hy⟩ (List.forall_mem_append.mp spared).1
    have reply := exec_convert (.ofDepth n) c (.ref id) w
    have inside : ∃ y, (w.inFrame (.ref id)).heap.pool.get? id = some y := by
      rw [World.heap_inFrame]
      exact ⟨y, hy⟩
    rw [hexec, Attempt.exec_bind]
    rcases hconvert : (convert (.ofDepth n) c (.ref id)).run.exec w with ⟨why | e | q, w'⟩
    · exact fun h => by cases h
    · rw [hconvert] at reply
      intro hstale
      cases hstale
      exact hc.ne_stale inside reply.symm
    · rw [hconvert] at hz
      simp only
      rw [(rememberSequence_of_get? hz q).1]
      exact fun h => by cases h

end

/-- A running receiver is not collected.  On a heap after any transitions from a fresh one, such as
those of a session up to any moment, let `id` be live, and let there be room for one more frame.

Then `id` is live at every moment while a script runs inside a frame with the caller `id`, while
`id` is called, and while it is converted to a sequence.  The script, and what the operations call, must
not ask for frames to be left or dropped, for a teardown, or for a mark to be taken away.  For the
conversion of a string or a table only the last counts, whatever collection its allocation starts;
and the conversion does not fail because its receiver is gone. -/
theorem receiver_stays {config : Config} (valid : config.fault? = none) {ts : List Transition}
    {w : World} (path : Path (Heap.new config) ts w.heap) {id : InstanceId}
    (live : w.heap.contains (.ref id) = true)
    (room : w.heap.frames.depth < config.maxFrameDepth) (n : Nat) :
    let r := Runner.ofDepth n
    let staying {α : Type} (F : List Liberty) (x : Run α) : Prop :=
      (∀ t ∈ x.trace w, t.avoids F = true) → ∀ h ∈ x.moments w, h.contains (.ref id) = true
    (∀ steps, Step.allAvoid Liberty.exposing steps = true →
        staying Liberty.exposing (withFrame (.ref id) (Step.runAll r steps).run)) ∧
      staying Liberty.exposing (call r (.ref id)).run ∧
      staying Liberty.exposing (toSequence r (.ref id)).run ∧
      ∀ array c, w.heap.callback .toSequence (.ref id) = .ok (some c) → c.lists array →
        staying [.unmark] (toSequence r (.ref id)).run ∧
          ((∀ t ∈ (toSequence r (.ref id)).run.trace w, t.avoids [.unmark] = true) →
            ((toSequence r (.ref id)).run.exec w).1 ≠ .ok (.error (.stale id))) := by
  intro r staying
  have positive : 1 ≤ config.maxFrameDepth := Nat.lt_of_le_of_lt (Nat.zero_le _) room
  have sound := (path.invariant (fun t _ => t.soundPool) (Heap.soundPool_new valid)).1
  have framed : w.heap.Framed := path.framed ⟨positive, [], .nil _⟩
  rw [← show w.heap.config = config from path.keepsTypes.config] at room
  have live : ∃ y, w.heap.pool.get? id = some y := Option.isSome_iff_exists.mp live
  have lists : ∀ array c, w.heap.callback .toSequence (.ref id) = .ok (some c) → c.lists array →
      (∀ t ∈ (toSequence r (.ref id)).run.trace w, t.avoids [.unmark] = true) →
      ∀ t ∈ (toSequence r (.ref id)).run.trace w, t.released? ≠ some id := by
    intro array c hc hlists heeds
    refine spared_toSequence live fun c' hc' initial => ?_
    rw [hc] at hc'
    cases hc'
    exact hlists.spared_convert sound live room fun t ht => heeds t (initial.subset ht)
  refine ⟨fun steps free heeds => ?_, fun heeds => ?_, fun heeds => ?_, fun array c hc hlists => ?_⟩
  · exact contains_moments sound live (spared_withFrame sound framed room live
      (lawful_steps (Runner.lawful_ofDepth n) steps)
      (avoids_steps (Runner.avoids_ofDepth _ n) steps free) heeds)
  · exact contains_moments sound live (spared_call sound framed room live heeds)
  · refine contains_moments sound live (spared_toSequence live fun c _ initial => ?_)
    exact spared_convert sound framed room live c fun t ht => heeds t (initial.subset ht)
  · exact ⟨fun heeds => contains_moments sound live (lists array c hc hlists heeds),
      fun heeds => hlists.toSequence_ne_stale hc sound live (lists array c hc hlists heeds)⟩

/-- A session that makes a table, which nothing else keeps alive, and enters a frame.  The next
allocation starts a collection. -/
def tableInFrame (limit : Nat) : Session where
  config := { maxFrameDepth := limit, highWaterMark := 1 }
  steps := [.bind "t" (.op .table), .op (.pushFrame (.const .nil))]

theorem receiver_stays_table :
    let w := (tableInFrame 2).closing (.ofDepth 3)
    let x := (toSequence (.ofDepth 3) (.ref ⟨0, 0⟩)).run
    w.heap.contains (.ref ⟨0, 0⟩) = true ∧ w.heap.frames.depth = 1 ∧
      (∃ t ∈ x.trace w, t.finishes = true) ∧
      (∀ h ∈ x.moments w, h.contains (.ref ⟨0, 0⟩) = true) ∧
      (x.exec w).1 ≠ .ok (.error (.stale ⟨0, 0⟩)) := by
  intro w x
  have live : w.heap.contains (.ref ⟨0, 0⟩) = true := by decide +kernel
  have hc : w.heap.callback .toSequence (.ref ⟨0, 0⟩) =
      .ok (some (.routine (.tableSequence ⟨0⟩))) := by rfl
  have heeds : ∀ t ∈ x.trace w, t.avoids [.unmark] = true := by decide +kernel
  obtain ⟨_, _, _, lists⟩ :=
    receiver_stays (by rfl) ((tableInFrame 2).path_closing (.ofDepth 3)) live (by decide +kernel) 3
  obtain ⟨staying, ne_stale⟩ := lists ⟨0⟩ _ hc (.inr rfl)
  exact ⟨live, by decide +kernel, by decide +kernel, staying heeds, ne_stale heeds⟩

/-- Beyond the limit a frame does not keep its caller.  The only frame that can be kept is taken,
and the conversion of a live table fails: its allocation starts a collection, which releases the table,
though nothing that runs leaves a frame or takes a mark away. -/
theorem receiver_released :
    let w := (tableInFrame 1).closing (.ofDepth 3)
    let x := (toSequence (.ofDepth 3) (.ref ⟨0, 0⟩)).run
    w.heap.contains (.ref ⟨0, 0⟩) = true ∧ (∀ t ∈ x.trace w, t.avoids Liberty.exposing = true) ∧
      (∃ t ∈ x.trace w, t.released? = some ⟨0, 0⟩) ∧
      (x.exec w).1 = .ok (.error (.stale ⟨0, 0⟩)) := by
  intro w x
  exact ⟨by decide +kernel, by decide +kernel, by decide +kernel, by decide +kernel⟩

end TracedHeap
