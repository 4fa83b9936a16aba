import TracedHeap.Proofs.Sweep

/-!
# Permanence

Once an instance is permanent it stays so, and no collection that starts its sweep afterwards
releases it.  But which instances a sweep releases is settled when it begins.  An instance that a
free callback makes permanent while it is already on the list of the sweep is released all the same.

* `doomed`                        the instances that the sweep under way has still to release;
* `Path.isPermanent`              what is permanent and not doomed stays, and stays permanent, until
                                  a teardown begins;
* `Sweep.Leads.released`          what is doomed is released before the collection is finished;
* `Session.permanent_unless_doomed`
                                  both, in every session;
* `Session.permanent_released`    a session in which a permanent instance is released.
-/

namespace TracedHeap

open Run

namespace Transition

def tearsDown : Transition → Bool
  | ⟨.startTeardown, _⟩ => true
  | _ => false

def stops : Transition → Bool
  | ⟨.setPhase _, _⟩ => true
  | _ => false

def finishes : Transition → Bool
  | ⟨.finishCollection _, _⟩ => true
  | _ => false

end Transition

/-- The instances that the sweep under way has still to release, after the transitions `past`. -/
def doomed (past : List Transition) : List InstanceId := past.foldl Sweep.leftAfter []

namespace Sweep

variable {s s' : Sweep} {ts : List Transition} {id : InstanceId}

theorem Leads.left_eq (l : Leads s ts s') : s'.left = ts.foldl leftAfter s.left := by
  induction l with
  | nil => rfl
  | cons _ _ ih => exact ih

theorem InTurn.mem {left : List InstanceId} {t : Transition} (turn : InTurn left t)
    (h : t.released? = some id) : id ∈ left := by
  obtain ⟨a, heap⟩ := t
  cases a with
  | evict slot =>
    obtain ⟨other, hhead, hother⟩ := turn
    rw [hother] at h
    cases h
    exact List.mem_of_mem_head? hhead
  | _ => cases h

theorem not_mem_leftAfter {left : List InstanceId} {t : Transition} {x : Instance}
    (hx : t.before.pool.get? id = some x) (hpin : x.pinned = true) (standing : t.tearsDown = false)
    (spared : id ∉ left) : id ∉ leftAfter left t := by
  obtain ⟨a, h⟩ := t
  cases a with
  | startSweep =>
    intro hmem
    have hnames : id ∈ h.pool.namesOf fun x => !x.pinned := hmem
    obtain ⟨y, hy, hfree⟩ := Pool.mem_namesOf.mp hnames
    rw [hx] at hy
    cases hy
    rw [hpin] at hfree
    cases hfree
  | startTeardown => cases standing
  | evict slot => exact fun hmem => spared (List.mem_of_mem_tail hmem)
  | setPhase phase => exact List.not_mem_nil
  | _ => exact spared

/-- What a sweep has to release stays on its list until it is released or the collector stops. -/
theorem InTurn.mem_leftAfter {left : List InstanceId} {t : Transition} (turn : InTurn left t)
    (hid : id ∈ left) (goes : t.stops = false) (kept : t.released? ≠ some id) :
    id ∈ leftAfter left t := by
  obtain ⟨a, h⟩ := t
  cases a with
  | startSweep | startTeardown =>
    have hnil : left = [] := turn
    rw [hnil] at hid
    cases hid
  | evict slot =>
    obtain ⟨other, hhead, hother⟩ := turn
    cases left with
    | nil => cases hid
    | cons first rest =>
      cases hhead
      rcases List.mem_cons.mp hid with rfl | hid
      · exact absurd hother kept
      · exact hid
  | setPhase phase => cases goes
  | _ => exact hid

/-- What a sweep has to release is released before the collection is finished. -/
theorem Leads.released (l : Leads s ts s') (hid : id ∈ s.left) (goes : ∀ t ∈ ts, t.stops = false)
    (hend : s'.left = []) : ∃ t ∈ ts, t.released? = some id := by
  induction l with
  | nil =>
    rw [hend] at hid
    cases hid
  | @cons s _ t ts allowed _ ih =>
    obtain ⟨here, later⟩ := List.forall_mem_cons.mp goes
    by_cases hself : t.released? = some id
    · exact ⟨t, List.mem_cons_self, hself⟩
    · obtain ⟨u, hu, hrel⟩ := ih (allowed.inTurn.mem_leftAfter hid here hself) later hend
      exact ⟨u, List.mem_cons_of_mem t hu, hrel⟩

end Sweep

theorem Heap.isPermanent_iff {h : Heap} {id : InstanceId} :
    h.isPermanent (.ref id) = true ↔ ∃ x, h.pool.get? id = some x ∧ x.permanent = true :=
  Option.any_eq_true _ _

/-- What is permanent and is not doomed stays, and stays permanent, until a teardown begins. -/
theorem Path.isPermanent {h h' : Heap} {ts : List Transition} (p : Path h ts h') {s s' : Sweep}
    (l : Sweep.Leads s ts s') (sound : h.SoundPool) {id : InstanceId}
    (hperm : h.isPermanent (.ref id) = true) (spared : id ∉ s.left)
    (standing : ∀ t ∈ ts, t.tearsDown = false) : h'.isPermanent (.ref id) = true := by
  induction p generalizing s with
  | nil => exact hperm
  | cons t _ ih =>
    obtain ⟨here, later⟩ := List.forall_mem_cons.mp standing
    obtain ⟨x, hx, hxperm⟩ := Heap.isPermanent_iff.mp hperm
    cases l with
    | cons allowed l =>
      have kept : t.released? ≠ some id := fun hgone => spared (allowed.inTurn.mem hgone)
      obtain ⟨y, hy, hxy⟩ := t.poolStep.keeps sound.sound hx kept
      have hpin : x.pinned = true := by
        unfold Instance.pinned
        rw [hxperm, Bool.or_true]
      exact ih l (t.soundPool sound) (Heap.isPermanent_iff.mpr ⟨y, hy, hxy.permanent hxperm⟩)
        (Sweep.not_mem_leftAfter hx hpin here spared) later

/-- Permanence is irreversible but for what is doomed.  Let an instance be permanent after the
transitions `past` of a session, whatever its callbacks do, and let `mid` come next.

If the sweep under way, if there is one, has not the instance on its list, then the instance is
there after `mid` and still permanent, unless a teardown begins in between.  If it has, then the
instance is released before the collection is finished. -/
theorem Session.permanent_unless_doomed (s : Session) (n : Nat) (valid : s.config.fault? = none)
    {past mid rest : List Transition} {h h' : Heap} {id : InstanceId}
    (hcut : s.history (.ofDepth n) = past ++ (mid ++ rest))
    (hpast : Path (Heap.new s.config) past h) (hmid : Path h mid h')
    (hperm : h.isPermanent (.ref id) = true) :
    (id ∉ doomed past → (∀ t ∈ mid, t.tearsDown = false) →
        h'.contains (.ref id) = true ∧ h'.isPermanent (.ref id) = true) ∧
      (id ∈ doomed past → (∀ t ∈ mid, t.stops = false) → rest.head?.any Transition.finishes = true →
        ∃ t ∈ mid, t.released? = some id) := by
  have leads := s.orderly_history (Runner.lawful_ofDepth n) valid
  rw [hcut] at leads
  obtain ⟨s₁, lpast, leads⟩ := leads.split
  obtain ⟨s₂, lmid, lrest⟩ := leads.split
  have sound := (hpast.invariant (fun t _ => t.soundPool) (Heap.soundPool_new valid)).1
  have hleft : doomed past = s₁.left := lpast.left_eq.symm
  rw [hleft]
  refine ⟨fun spared standing => ?_, fun hid goes hfinish => ?_⟩
  · have hperm' := hmid.isPermanent lmid sound hperm spared standing
    obtain ⟨x, hx, _⟩ := Heap.isPermanent_iff.mp hperm'
    exact ⟨Option.isSome_iff_exists.mpr ⟨x, hx⟩, hperm'⟩
  · refine lmid.released hid goes ?_
    cases lrest with
    | nil => cases hfinish
    | @cons _ _ t _ allowed _ =>
      obtain ⟨a, g⟩ := t
      cases a with
      | finishCollection k => exact allowed.inTurn
      | _ => cases hfinish

/-- A session with three instances.  The third is made permanent in time, the second only by the free
callback of the first, when it is already doomed. -/
def lateRescue : Session where
  containers := false
  steps := [.op (.register "cell" none),
    .install (.index ⟨0⟩) .free "free" [.op (.pin .makePermanent (.var "late"))] .nothing,
    .op (.alloc (.int 1) (.index ⟨0⟩)), .bind "late" (.op (.alloc (.int 2) (.index ⟨0⟩))),
    .bind "early" (.op (.alloc (.int 3) (.index ⟨0⟩))), .op (.pin .makePermanent (.var "early")),
    .op .collect]

theorem Session.permanent_unless_doomed_lateRescue :
    ∃ past mid rest h h', lateRescue.history (.ofDepth 3) = past ++ (mid ++ rest) ∧
      Path (Heap.new lateRescue.config) past h ∧ Path h mid h' ∧
      h.isPermanent (.ref ⟨1, 0⟩) = true ∧ (∃ t ∈ mid, t.released? = some ⟨1, 0⟩) ∧
      h.isPermanent (.ref ⟨2, 0⟩) = true ∧ h'.contains (.ref ⟨2, 0⟩) = true ∧
      h'.isPermanent (.ref ⟨2, 0⟩) = true := by
  obtain ⟨hcut, h, h', hpast, hmid⟩ := lateRescue.history_cut (.ofDepth 3) 13 3
  have late : h.isPermanent (.ref ⟨1, 0⟩) = true := by
    rw [hpast.eq_getLast?]
    decide +kernel
  have early : h.isPermanent (.ref ⟨2, 0⟩) = true := by
    rw [hpast.eq_getLast?]
    decide +kernel
  have released := (lateRescue.permanent_unless_doomed 3 rfl hcut hpast hmid late).2
    (by decide +kernel) (by decide +kernel) (by decide +kernel)
  have kept := (lateRescue.permanent_unless_doomed 3 rfl hcut hpast hmid early).1
    (by decide +kernel) (by decide +kernel)
  exact ⟨_, _, _, h, h', hcut, hpast, hmid, late, released, early, kept⟩

/-- Permanence does not always last until a teardown: the second instance is permanent in the middle
of the sweep and is gone after the collection. -/
theorem Session.permanent_released :
    ∃ past mid rest h h', lateRescue.history (.ofDepth 3) = past ++ (mid ++ rest) ∧
      Path (Heap.new lateRescue.config) past h ∧ Path h mid h' ∧
      h.isPermanent (.ref ⟨1, 0⟩) = true ∧ (∀ t ∈ mid, t.tearsDown = false) ∧
      h'.refusal? = none ∧ h'.contains (.ref ⟨1, 0⟩) = false ∧
      h'.isPermanent (.ref ⟨1, 0⟩) = false := by
  obtain ⟨hcut, h, h', hpast, hmid⟩ := lateRescue.history_cut (.ofDepth 3) 13 5
  refine ⟨_, _, _, h, h', hcut, hpast, hmid, ?_, by decide +kernel, ?_⟩
  · rw [hpast.eq_getLast?]
    decide +kernel
  · rw [hmid.eq_getLast?, hpast.eq_getLast?]
    decide +kernel

end TracedHeap
