import TracedHeap.Proofs.Borrowing
import TracedHeap.Proofs.Containers
import TracedHeap.Proofs.Lifetime

/-!
# The count of uses is right

The heap counts the uses of payloads that go on, and every instance knows how its own payload is
used.  A collection looks at the count only, so the two have to agree.

* `Heap.KeepsUses`          no payload is in use that was not, and none in another way;
* `Heap.Lends`              the heap at a moment of a computation: no use has ended that goes on at
                            the start, and when those are all, payloads are in use as at the start;
* `Run.Lawful.lending`      so it is throughout a lawful computation, and at its end;
* `Session.quiet_moments`   whenever a session could collect, no payload is in use.
-/

namespace TracedHeap

open Run

namespace Heap

/-- A payload that is in use in `h'` is in use in `h`, and in the same way. -/
def KeepsUses (h h' : Heap) : Prop :=
  ∀ id y, h'.pool.get? id = some y →
    y.borrow = .shared 0 ∨ ∃ x, h.pool.get? id = some x ∧ y.borrow = x.borrow

theorem KeepsUses.refl (h : Heap) : h.KeepsUses h := fun _ y hy => .inr ⟨y, hy, rfl⟩

theorem KeepsUses.trans {h h' h'' : Heap} (first : h.KeepsUses h') (second : h'.KeepsUses h'') :
    h.KeepsUses h'' := by
  intro id z hz
  rcases second id z hz with unused | ⟨y, hy, hzy⟩
  · exact .inl unused
  · rcases first id y hy with unused | ⟨x, hx, hyx⟩
    · exact .inl (hzy.trans unused)
    · exact .inr ⟨x, hx, hzy.trans hyx⟩

/-- On the way from `h` to `h'` uses may have begun, but those of `h` go on. -/
structure Lends (h h' : Heap) : Prop where
  le : h.borrows ≤ h'.borrows
  keeps : h'.borrows = h.borrows → h.KeepsUses h'

theorem Lends.refl (h : Heap) : h.Lends h := ⟨Nat.le_refl _, fun _ => .refl h⟩

theorem Lends.trans {h h' h'' : Heap} (first : h.Lends h') (balanced : h'.borrows = h.borrows)
    (second : h'.Lends h'') : h.Lends h'' :=
  ⟨balanced ▸ second.le, fun heq =>
    (first.keeps balanced).trans (second.keeps (heq.trans balanced.symm))⟩

end Heap

/-- All moments lend, and the uses that begin end. -/
def Conduct.lending : Conduct where
  pre := Heap.SoundPool
  rel h ts h' := h'.borrows = h.borrows ∧ h.Lends h' ∧ ∀ t ∈ ts, h.Lends t.after
  nil _ := ⟨rfl, .refl _, by simp⟩
  append := by
    rintro h h' h'' ts us ⟨balanced, lends, all⟩ ⟨balanced', lends', all'⟩
    refine ⟨balanced'.trans balanced, lends.trans balanced lends', ?_⟩
    exact List.forall_mem_append.mpr ⟨all, fun t ht => lends.trans balanced (all' t ht)⟩
  keeps path sound _ := (path.invariant (fun t _ => t.soundPool) sound).1

/-! ## Single actions -/

def Action.uses : {α : Type} → Action α → Bool
  | _, startUse .. | _, stopUse .. => true
  | _, _ => false

theorem Change.borrow_apply (c : Change) (x : Instance) : (c.apply x).borrow = x.borrow := by
  by_cases hc : c.ordinary = true
  · exact (Change.sameUse hc x).borrow
  · cases c with
    | write p => rfl
    | _ => cases hc rfl

namespace Transition

variable {t : Transition}

theorem borrow_effect (ht : t.action.uses = false) (id : InstanceId) (x : Instance) :
    (t.effect id x).borrow = x.borrow := by
  obtain ⟨a, h⟩ := t
  cases a with
  | change v c =>
    cases v with
    | ref other =>
      show (if other = id then c.apply x else x).borrow = x.borrow
      split
      · exact c.borrow_apply x
      · rfl
    | _ => rfl
  | startUse | stopUse => cases ht
  | _ => rfl

theorem borrow_of_placed {id : InstanceId} {y : Instance} (sound : t.before.SoundPool)
    (hplaced : t.placed? = some id) (hy : t.after.pool.get? id = some y) :
    y.borrow = .shared 0 := by
  obtain ⟨a, h⟩ := t
  cases a with
  | place d p =>
    cases hplaced
    obtain ⟨y', hy', m⟩ := Heap.get?_place_self sound d p
    cases hy.symm.trans hy'
    exact m.borrow
  | _ => cases hplaced

theorem keepsUses (sound : t.before.SoundPool) (ht : t.action.uses = false) :
    t.before.KeepsUses t.after := by
  intro id y hy
  rcases t.poolStep.came hy with hplaced | ⟨⟨x, hx⟩, kept⟩
  · exact .inl (borrow_of_placed sound hplaced hy)
  · obtain ⟨y', hy', m⟩ := effect_of_get? sound hx kept
    cases hy.symm.trans hy'
    exact .inr ⟨x, hx, m.borrow.trans (borrow_effect ht id x)⟩

theorem borrows_after (ht : t.action.uses = false) : t.after.borrows = t.before.borrows := by
  obtain ⟨a, h⟩ := t
  cases a with
  | startUse | stopUse => cases ht
  | place d p => exact h.borrows_place d p
  | evict slot =>
    show (h.evict slot).2.borrows = h.borrows
    unfold Heap.evict
    split <;> rfl
  | startMarking => exact (Heap.eq_of_unmarked_eq h.markRoots_spec.1).2.2.2.2
  | startSweep | startTeardown | finishCollection | setPhase | invoke => rfl
  | change v c => exact h.borrows_modify v c.apply
  | _ => exact (Action.phase_and_borrows_of_ordinary rfl h).2

end Transition

section
variable {α : Type}

theorem lending_act {a : Action α} (ha : a.uses = false) : (act a).Follows .lending := by
  refine follows_act fun h sound => ?_
  have balanced : (a.apply h).2.borrows = h.borrows := Transition.borrows_after (t := ⟨a, h⟩) ha
  have lends : h.Lends (a.apply h).2 :=
    ⟨balanced.ge, fun _ => Transition.keepsUses (t := ⟨a, h⟩) sound ha⟩
  exact ⟨balanced, lends, List.forall_mem_singleton.mpr lends⟩

theorem lending_attempt_act {a : Action α} (ha : a.uses = false) :
    (Attempt.act a).run.Follows .lending :=
  follows_lift (lending_act ha)

end

/-! ## The use of a payload -/

namespace Heap

variable {h h' : Heap} {a : Access} {v : Value} {k : Kind} {id : InstanceId} {c : k.Content}

theorem KeepsUses.stopUse (hc : h.content a v k = .ok (id, c))
    (inside : (h.startUse a id).KeepsUses h') : h.KeepsUses (h'.stopUse a id) := by
  obtain ⟨x, _, hx, hallowed, _⟩ := content_eq_ok hc
  intro other y hy
  by_cases hne : other = id
  · subst hne
    cases hz : h'.pool.get? other with
    | none =>
      have hgone : (h'.stopUse a other).pool.get? other = none := by
        show (h'.pool.modify other _).get? other = none
        rw [Pool.get?_modify_self, hz]
        rfl
      rw [hgone] at hy
      cases hy
    | some z =>
      have hstop : (h'.stopUse a other).pool.get? other = some { z with borrow := a.stop z.borrow } :=
        get?_modify_self _ hz
      cases hy.symm.trans hstop
      have hstart : (h.startUse a other).pool.get? other = some (x.used a) := get?_modify_self _ hx
      rcases inside other z hz with unused | ⟨x', hx', hborrow⟩
      · -- the instance is a new one of the same name, which cannot be told here
        refine .inl ?_
        show a.stop z.borrow = _
        rw [unused]
        cases a <;> rfl
      · cases hstart.symm.trans hx'
        refine .inr ⟨x, hx, ?_⟩
        show a.stop z.borrow = _
        rw [hborrow]
        exact Access.stop_start hallowed
  · have hstop : (h'.stopUse a id).pool.get? other = h'.pool.get? other := get?_modify_of_ne _ hne
    have hstart : (h.startUse a id).pool.get? other = h.pool.get? other := get?_modify_of_ne _ hne
    rw [hstop] at hy
    have hother := inside other y hy
    rw [hstart] at hother
    exact hother

/-- A use that ends leaves the uses that went on before it. -/
theorem lending_use {ts : List Transition} (hc : h.content a v k = .ok (id, c))
    (inside : Conduct.lending.rel (h.startUse a id) ts h') :
    Conduct.lending.rel h (⟨.startUse a id, h⟩ :: (ts ++ [⟨.stopUse a id, h'⟩]))
      (h'.stopUse a id) := by
  obtain ⟨balanced, lends, all⟩ := inside
  have hcount : h'.borrows = h.borrows + 1 := balanced
  have hstopped : (h'.stopUse a id).borrows = h.borrows := Nat.sub_eq_of_eq_add hcount
  have hend : h.Lends (h'.stopUse a id) :=
    ⟨hstopped.ge, fun _ => (lends.keeps balanced).stopUse hc⟩
  -- until then one use more goes on than before
  have during : ∀ {g : Heap}, h.borrows + 1 ≤ g.borrows → h.Lends g :=
    fun hg => ⟨Nat.le_of_succ_le hg, fun heq => absurd (heq ▸ hg) (Nat.not_succ_le_self _)⟩
  refine ⟨hstopped, hend, List.forall_mem_cons.mpr ⟨during (Nat.le_refl _), ?_⟩⟩
  refine List.forall_mem_append.mpr ⟨fun t ht => during (all t ht).le, ?_⟩
  exact List.forall_mem_singleton.mpr hend

end Heap

section
variable {α : Type} {k : Kind}

theorem lending_usePayload (a : Access) (v : Value) {x : InstanceId → k.Content → Attempt α}
    (hx : ∀ id c, (x id c).run.Follows .lending) : (usePayload a v k x).run.Follows .lending := by
  intro w sound
  cases h : w.heap.content a v k with
  | error e =>
    rw [(usePayload_error x h).1, (usePayload_error x h).2]
    exact Conduct.lending.nil sound
  | ok found =>
    obtain ⟨id, c⟩ := found
    rw [(usePayload_ok x h).1, (usePayload_ok x h).2]
    exact Heap.lending_use h
      (hx id c (w.startUse a id) (Transition.soundPool ⟨.startUse a id, w.heap⟩ sound))

theorem lending_writePayload (v : Value) (f : k.Content → Except Error k.Content) :
    (writePayload v k f).run.Follows .lending := by
  intro w sound
  rcases writePayload_cases v k f w with ⟨e, hexec, htrace⟩ | ⟨id, c, c', _, _, hexec, htrace⟩
  · rw [hexec, htrace]
    exact Conduct.lending.nil sound
  · rw [hexec, htrace]
    exact lending_act (a := .change (.ref id) (.write (.of k c'))) rfl w sound

end

/-! ## Lawful computations -/

theorem Action.uses_of_ordinary {α : Type} {a : Action α} (ha : a.ordinary = true) :
    a.uses = false := by
  cases a with
  | startUse | stopUse => cases ha
  | _ => rfl

theorem Action.uses_of_collects {α : Type} {a : Action α} (ha : a.collects = true) :
    a.uses = false := by
  cases a with
  | startUse | stopUse => cases ha
  | _ => rfl

theorem Runner.Announces.lending {r : Runner} {body : Runner.Body} (announces : r.Announces body)
    (hbody : ∀ b c args, (body b c args).Follows .lending) (b : Behavior) :
    r.FollowsOn .lending b := by
  intro _ _ _ c _ args
  rw [announces]
  exact follows_bind (lending_act rfl) fun _ => hbody b c args

/-- Throughout a lawful computation the uses that go on at its start go on, and at its end they are
all. -/
theorem Run.Lawful.lending {α : Type} {x : Run α} (h : x.Lawful) : x.Follows .lending := by
  have collects : ∀ {β : Type} {a : Action β}, a.collects = true → (Run.act a).Follows .lending :=
    fun ha => lending_act (Action.uses_of_collects ha)
  induction h with
  | done a => exact follows_pure a
  | look f => exact follows_look f
  | note f => exact follows_note f
  | halt why => exact follows_halt why
  | act ha => exact lending_act (Action.uses_of_ordinary ha)
  | andThen _ _ hx hnext => exact follows_bind hx hnext
  | ensuring f _ hx => exact follows_ensuring hx (follows_note f)
  | withFrame caller _ hx =>
    exact follows_withFrame (fun _ => lending_act rfl) (lending_act rfl) caller hx
  | withPayload v k _ hx =>
    rw [withPayload_eq]
    exact lending_usePayload .read v fun _ c => hx c
  | withPayloadMut v k _ hx =>
    rw [withPayloadMut_eq]
    refine lending_usePayload .write v fun id c => ?_
    exact follows_attempt_bind (hx c) fun _ =>
      follows_attempt_bind (lending_attempt_act rfl) fun _ => follows_attempt_pure _
  | writePayload v k f => exact lending_writePayload v f
  | collect announces _ hbody =>
    exact follows_collect collects (announces.lending hbody .mark) (announces.lending hbody .free)
  | teardown announces _ hbody =>
    exact follows_teardown collects (lending_act rfl) (announces.lending hbody .free)
  | allocate d p announces _ hbody =>
    exact follows_allocate (follows_collectIfDue collects (announces.lending hbody .mark)
      (announces.lending hbody .free)) (lending_act rfl)

/-! ## Sessions -/

/-- Where a session could collect, the collector is idle and no payload is in use. -/
theorem Session.quiet_moments (s : Session) {r : Runner} (hr : r.Lawful)
    (valid : s.config.fault? = none) :
    ∀ h ∈ s.moments r, h.refusal? = none → h.Quiet := by
  obtain ⟨_, _, _, lends⟩ := s.follows_history (C := .lending) (Heap.soundPool_new valid)
    s.lawful_opening.lending (fun step => (lawful_step hr step).lending)
    (lawful_teardown hr).lending
  have all : ∀ h ∈ s.moments r, (Heap.new s.config).Lends h := by
    intro h hh
    rcases List.mem_cons.mp hh with rfl | hh
    · exact .refl _
    · obtain ⟨t, ht, rfl⟩ := List.mem_map.mp hh
      exact lends t ht
  intro h hh ready
  refine ⟨ready, fun id y hy => ?_⟩
  have hcount : h.borrows = (Heap.new s.config).borrows := (Heap.refusal?_eq_none_iff.mp ready).2
  rcases (all h hh).keeps hcount id y hy with unused | ⟨x, hx, _⟩
  · exact unused
  · cases hx

end TracedHeap
