import TracedHeap.Proofs.FrameStack
import TracedHeap.Proofs.Typing

/-!
# Frames are balanced

Frames are entered and left in pairs, however what runs between ends: with an answer, with an error
or by an abort.

* `Frames.attachAll`     instances attached one after the other, the only thing that may be left;
* `pop_attachAll_push`   leaving a frame undoes entering it, be it kept or only counted;
* `Conduct.balanced`     computations that do not handle frames themselves leave nothing else;
* `frames_balanced`      what this says of a script, frame by frame.
-/

namespace TracedHeap

open Run

/-! ## Attaching instances one after the other -/

namespace Frames

def attachAll (f : Frames) (ids : List InstanceId) : Frames := ids.foldl attach f

section
variable (f : Frames) (ids : List InstanceId)

theorem attachAll_append (more : List InstanceId) :
    f.attachAll (ids ++ more) = (f.attachAll ids).attachAll more := List.foldl_append

theorem length_kept_attachAll : (f.attachAll ids).kept.length = f.kept.length := by
  induction ids generalizing f with
  | nil => rfl
  | cons id ids ih => exact (ih (f.attach id)).trans (length_kept_attach f id)

theorem overflow_attachAll : (f.attachAll ids).overflow = f.overflow := by
  induction ids generalizing f with
  | nil => rfl
  | cons id ids ih => exact (ih (f.attach id)).trans (overflow_attach f id)

theorem caller_attachAll (l : Nat) :
    ((f.attachAll ids).level? l).map Frame.caller = (f.level? l).map Frame.caller := by
  induction ids generalizing f with
  | nil => rfl
  | cons id ids ih => exact (ih (f.attach id)).trans (caller_attach f id l)

variable {f} {l : Nat}

theorem attachedAt_attachAll_of_ne (h : l + 1 ≠ f.kept.length) :
    (f.attachAll ids).attachedAt l = f.attachedAt l := by
  induction ids generalizing f with
  | nil => rfl
  | cons id ids ih =>
    have hrest : l + 1 ≠ (f.attach id).kept.length := by rwa [length_kept_attach]
    exact (ih hrest).trans (attachedAt_attach_of_ne f id h)

theorem attachedAt_attachAll_last (h : l + 1 = f.kept.length) :
    (f.attachAll ids).attachedAt l = f.attachedAt l ++ ids := by
  induction ids generalizing f with
  | nil => exact (List.append_nil _).symm
  | cons id ids ih =>
    have hrest : l + 1 = (f.attach id).kept.length := by rwa [length_kept_attach]
    show ((f.attach id).attachAll ids).attachedAt l = _
    rw [ih hrest, attachedAt_attach_last f id h, List.append_assoc]
    rfl

variable (f) {limit : Nat}

theorem attachAll_counted (n : Nat) :
    ({ f with overflow := n } : Frames).attachAll ids = { f.attachAll ids with overflow := n } := by
  induction ids generalizing f with
  | nil => rfl
  | cons id ids ih =>
    have hfirst : ({ f with overflow := n } : Frames).attach id =
        { f.attach id with overflow := n } := by
      obtain ⟨kept, _⟩ := f
      cases kept <;> rfl
    show (({ f with overflow := n } : Frames).attach id).attachAll ids = _
    rw [hfirst, ih (f.attach id)]
    rfl

theorem tail_kept_attachAll : (f.attachAll ids).kept.tail = f.kept.tail := by
  induction ids generalizing f with
  | nil => rfl
  | cons id ids ih =>
    have hfirst : (f.attach id).kept.tail = f.kept.tail := by
      obtain ⟨kept, overflow⟩ := f
      cases kept <;> rfl
    exact (ih (f.attach id)).trans hfirst

/-- Leaving a frame undoes entering it.  What was attached inside goes with the frame, or stays with
the innermost frame kept if the frame was only counted. -/
theorem pop_attachAll_push (full : 0 < f.overflow → limit ≤ f.kept.length) (caller : Value) :
    ∃ rest, ((f.push limit caller).attachAll ids).pop = f.attachAll rest := by
  by_cases hlimit : limit ≤ f.kept.length
  · refine ⟨ids, ?_⟩
    unfold push
    rw [if_pos hlimit, attachAll_counted]
    show ({ f.attachAll ids with overflow := f.overflow } : Frames) = _
    rw [← overflow_attachAll f ids]
  · refine ⟨[], ?_⟩
    have none : f.overflow = 0 := Nat.eq_zero_of_not_pos fun h => hlimit (full h)
    unfold pop
    rw [overflow_attachAll, tail_kept_attachAll]
    unfold push
    rw [if_neg hlimit]
    show (if 0 < f.overflow then _ else (⟨f.kept, _⟩ : Frames)) = f
    rw [none, if_neg (Nat.lt_irrefl 0), ← none]

end

end Frames

/-! ## Computations that do not handle frames themselves -/

def Liberty.framing : List Liberty := [.pushFrame, .popFrame, .resyncFrames, .teardown]

/-- The frames of the heap stand for a stack of scopes without limit. -/
def Heap.Framed (h : Heap) : Prop :=
  1 ≤ h.config.maxFrameDepth ∧ ∃ S, h.frames.Refines h.config.maxFrameDepth S

theorem Path.framed {h h' : Heap} {ts : List Transition} (p : Path h ts h') (framed : h.Framed) :
    h'.Framed := by
  obtain ⟨positive, S, refines⟩ := framed
  unfold Heap.Framed
  rw [p.keepsTypes.config]
  exact ⟨positive, scopesAfter S ts, p.refines positive refines⟩

theorem Heap.Framed.full {h : Heap} (framed : h.Framed) (overflow : 0 < h.frames.overflow) :
    h.config.maxFrameDepth ≤ h.frames.kept.length := by
  obtain ⟨_, S, refines⟩ := framed
  rw [refines.overflow] at overflow
  rw [refines.kept]
  omega

/-- The frames stay as they are, apart from what is attached to the innermost one. -/
def Conduct.balanced : Conduct where
  pre := Heap.Framed
  rel h _ h' := ∃ ids, h'.frames = h.frames.attachAll ids
  nil _ := ⟨[], rfl⟩
  append := by
    rintro h h' h'' _ _ ⟨ids, first⟩ ⟨more, second⟩
    exact ⟨ids ++ more, by rw [second, first, Frames.attachAll_append]⟩
  keeps path framed _ := path.framed framed

theorem balanced_act {α : Type} {a : Action α} (free : a.avoids Liberty.framing = true) :
    (act a).Follows .balanced := by
  refine follows_act fun h _ => ?_
  have same : ∀ {f : Frames}, f = h.frames → ∃ ids, f = h.frames.attachAll ids :=
    fun hf => ⟨[], hf⟩
  cases a with
  | pushFrame | popFrame | resyncFrames | startTeardown => cases free
  | attach v =>
    show ∃ ids, (h.attach v).2.frames = h.frames.attachAll ids
    unfold Heap.attach
    split
    · exact ⟨[_], rfl⟩
    · exact same rfl
  | place d p => exact ⟨[(h.place d p).1], h.frames_place d p⟩
  | evict slot => exact same (h.keepsFrames_evict slot).frames
  | change v c => exact same (h.keepsFrames_modify v c.apply).frames
  | mark v => exact same (h.keepsFrames_mark v).frames
  | pop =>
    refine same (f := h.pop.2.frames) ?_
    unfold Heap.pop
    split <;> rfl
  | startMarking => exact same h.keepsFrames_markRoots.frames
  | nextGray => exact same h.keepsFrames_nextGray.frames
  | _ => exact same rfl

theorem nests_balanced : Conduct.balanced.Nests where
  enter caller framed := (Path.single (.pushFrame caller) _).framed framed
  leave := by
    rintro h h' caller _ framed _ ⟨ids, inside⟩
    show ∃ rest, h'.frames.pop = h.frames.attachAll rest
    rw [inside]
    exact h.frames.pop_attachAll_push ids framed.full caller

/-- Let a script ask for no frame to be entered, left or dropped and for no teardown, and let no
callback that it calls ask for this.  Then it leaves the frames of a heap as it found them, be they
kept or only counted, and whether it ends with an answer, with an error or by an abort.  The depth
is the same, the callers are the same, the instances attached below the innermost frame are the
same, and the innermost frame has all it had, in the same order, before what is new. -/
theorem frames_balanced {config : Config} (positive : 1 ≤ config.maxFrameDepth)
    {ts : List Transition} {w : World} (path : Path (Heap.new config) ts w.heap) (n : Nat)
    (steps : List Step) (free : Step.allAvoid Liberty.framing steps = true)
    (callbacks : ∀ t ∈ (Step.runAll (.ofDepth n) steps).run.trace w,
      t.avoids Liberty.framing = true) :
    let before := w.heap.frames
    let after := ((Step.runAll (.ofDepth n) steps).run.exec w).2.heap.frames
    after.depth = before.depth ∧ after.overflow = before.overflow ∧
      (∀ l, (after.level? l).map Frame.caller = (before.level? l).map Frame.caller) ∧
      (∀ l, l + 1 ≠ before.kept.length → after.attachedAt l = before.attachedAt l) ∧
      ∀ l, l + 1 = before.kept.length → before.attachedAt l <+: after.attachedAt l := by
  intro before after
  have framed : w.heap.Framed := path.framed ⟨positive, [], .nil _⟩
  have script := avoids_steps (Runner.avoids_ofDepth Liberty.framing n) steps free
  obtain ⟨_, balanced⟩ := script.follows balanced_act nests_balanced w trivial
  obtain ⟨ids, hafter⟩ : ∃ ids, after = before.attachAll ids := balanced callbacks framed
  rw [hafter]
  refine ⟨?_, before.overflow_attachAll ids, before.caller_attachAll ids, fun l hl => ?_,
    fun l hl => ?_⟩
  · unfold Frames.depth
    rw [before.length_kept_attachAll, before.overflow_attachAll]
  · exact Frames.attachedAt_attachAll_of_ne ids hl
  · rw [Frames.attachedAt_attachAll_last ids hl]
    exact List.prefix_append _ _

def insideTwoFrames : World :=
  ((do pushFrame (.int 1); pushFrame (.int 2)).exec
    { heap := Heap.new { maxFrameDepth := 1 }, maxScopes := 1 }).2

/-- Calls an instance inside a frame; its callback enters one more frame, allocates and aborts. -/
def abortInFrames : List Step :=
  [.op (.register "cell" none),
    .install (.index ⟨0⟩) .call "boom"
      [.withFrame (.const .nil) [.op (.alloc .unit (.index ⟨0⟩)), .op (.abort "boom")]] .nothing,
    .bind "v" (.op (.alloc .unit (.index ⟨0⟩))),
    .withFrame (.var "v") [.op (.call (.var "v"))]]

theorem frames_balanced_abort :
    let w := insideTwoFrames
    let x := (Step.runAll (.ofDepth 2) abortInFrames).run
    (x.exec w).1 = .error (.abort "boom") ∧
      (x.exec w).2.heap.frames.depth = 2 ∧ (x.exec w).2.heap.frames.overflow = 1 ∧
      ((x.exec w).2.heap.frames.level? 0).map Frame.caller = some (.int 1) ∧
      (x.exec w).2.heap.frames.attachedAt 0 = [⟨0, 0⟩, ⟨1, 0⟩] := by
  intro w x
  have path := (do pushFrame (.int 1); pushFrame (.int 2)).path_trace
    { heap := Heap.new { maxFrameDepth := 1 }, maxScopes := 1 }
  have callbacks : ∀ t ∈ x.trace w, t.avoids Liberty.framing = true := by decide +kernel
  obtain ⟨hdepth, hoverflow, hcaller, _, _⟩ :=
    frames_balanced (by decide) path 2 abortInFrames (by decide) callbacks
  exact ⟨by decide +kernel, hdepth, hoverflow, hcaller 0, by decide +kernel⟩

end TracedHeap
