import Mathlib.Data.List.Flatten
import TracedHeap.Proofs.Conduct
import TracedHeap.Proofs.Lifetime
import TracedHeap.Proofs.Marking

/-!
# Frames beyond the limit

Only a limited number of frames is kept, and the frames beyond the limit are only counted.  This
module compares the frames of a heap with a stack that has no limit.

* `Scope`                a frame of the stack without limit;
* `Transition.scopes`    what a transition does to that stack;
* `Frames.Refines`       what the frames kept tell about it;
* `Transition.refines`   every transition keeps this;
* `frames_refine`        what follows for the heap after any transitions, and what the operations do
                         to the stack.
-/

namespace TracedHeap

open Run

/-! ## The frames kept, by level -/

namespace Frames

section
variable {f : Frames} {limit l : Nat}

theorem level?_of_le (h : f.kept.length ≤ l) : f.level? l = none := by
  unfold level?
  exact List.getElem?_eq_none (by rwa [List.length_reverse])

theorem level?_push (f : Frames) (limit l : Nat) (caller : Value) :
    (f.push limit caller).level? l =
      if f.kept.length < limit ∧ l = f.kept.length then some { caller } else f.level? l := by
  unfold push
  by_cases hfull : limit ≤ f.kept.length
  · rw [if_pos hfull, if_neg (fun h => Nat.not_lt.mpr hfull h.1)]
    rfl
  · rw [if_neg hfull]
    unfold level?
    rw [List.reverse_cons]
    rcases Nat.lt_trichotomy l f.kept.length with hl | hl | hl
    · rw [if_neg (fun h => Nat.ne_of_lt hl h.2), List.getElem?_append_left]
      rwa [List.length_reverse]
    · rw [if_pos ⟨Nat.lt_of_not_le hfull, hl⟩, hl, ← List.length_reverse, List.getElem?_concat_length]
    · rw [if_neg (fun h => Nat.ne_of_gt hl h.2), List.getElem?_eq_none, List.getElem?_eq_none]
      · rw [List.length_reverse]
        exact Nat.le_of_lt hl
      · rw [List.length_append, List.length_reverse]
        exact hl

theorem level?_resync (f : Frames) (d l : Nat) :
    (f.resync d).level? l = if l < d then f.level? l else none := by
  have above : ∀ {g : Frames}, g.kept.length ≤ d → g.level? l = if l < d then g.level? l else none := by
    intro g hg
    by_cases hl : l < d
    · rw [if_pos hl]
    · rw [if_neg hl]
      exact level?_of_le (Nat.le_trans hg (Nat.le_of_not_lt hl))
  unfold resync
  split
  · next hdepth => exact above (Nat.le_trans (Nat.le_add_right _ _) hdepth)
  · split
    · next hkept => exact above hkept
    · next hkept =>
      show (f.kept.drop (f.kept.length - d)).reverse[l]? = _
      rw [List.reverse_drop, Nat.sub_sub_self (Nat.le_of_not_le hkept), List.getElem?_take]
      rfl

theorem pop_eq_resync (f : Frames) : f.pop = f.resync (f.depth - 1) := by
  obtain ⟨kept, overflow⟩ := f
  cases overflow with
  | zero =>
    cases kept with
    | nil => rfl
    | cons top rest =>
      have hdepth : ¬ rest.length + 1 ≤ rest.length := Nat.not_succ_le_self _
      simp [pop, resync, depth, hdepth]
  | succ n =>
    have hdepth : ¬ kept.length + (n + 1) ≤ kept.length + n := by omega
    simp [pop, resync, depth, hdepth]

theorem level?_attach (f : Frames) (id : InstanceId) (l : Nat) :
    (f.attach id).level? l =
      if l + 1 = f.kept.length then
        (f.level? l).map fun top => { top with attached := id :: top.attached }
      else f.level? l := by
  obtain ⟨kept, overflow⟩ := f
  cases kept with
  | nil => rfl
  | cons top rest =>
    show (({ top with attached := id :: top.attached } : Frame) :: rest).reverse[l]? =
      if l + 1 = rest.length + 1 then ((top :: rest).reverse[l]?).map _ else (top :: rest).reverse[l]?
    rw [List.reverse_cons, List.reverse_cons]
    by_cases hl : l + 1 = rest.length + 1
    · obtain rfl : l = rest.length := Nat.succ.inj hl
      rw [if_pos rfl, ← List.length_reverse, List.getElem?_concat_length, List.getElem?_concat_length]
      rfl
    · rw [if_neg hl]
      rcases Nat.lt_or_gt_of_ne (fun h => hl (congrArg (· + 1) h)) with hlt | hgt
      · rw [List.getElem?_append_left, List.getElem?_append_left] <;> rwa [List.length_reverse]
      · rw [List.getElem?_eq_none, List.getElem?_eq_none] <;>
          rw [List.length_append, List.length_reverse] <;> exact hgt

theorem caller_attach (f : Frames) (id : InstanceId) (l : Nat) :
    ((f.attach id).level? l).map Frame.caller = (f.level? l).map Frame.caller := by
  rw [level?_attach]
  split
  · rw [Option.map_map]
    rfl
  · rfl

@[simp]
theorem length_kept_attach (f : Frames) (id : InstanceId) :
    (f.attach id).kept.length = f.kept.length := by
  unfold attach
  split
  · rfl
  · next hkept => rw [hkept]; rfl

@[simp]
theorem overflow_attach (f : Frames) (id : InstanceId) : (f.attach id).overflow = f.overflow := by
  unfold attach
  split <;> rfl

end

end Frames

/-! ## The stack without limit -/

/-- A frame of the stack without limit: its caller, and what was attached to it, in order. -/
structure Scope where
  caller : Value
  attached : List InstanceId := []
deriving DecidableEq

def Scope.add (x : Scope) (id : InstanceId) : Scope := { x with attached := x.attached ++ [id] }

def attachLast (S : List Scope) (id : InstanceId) : List Scope := S.modify (S.length - 1) (·.add id)

/-- What a transition does to the stack without limit. -/
def Transition.scopes (S : List Scope) : Transition → List Scope
  | ⟨.pushFrame caller, _⟩ => S ++ [⟨caller, []⟩]
  | ⟨.popFrame, _⟩ => S.dropLast
  | ⟨.resyncFrames d, _⟩ => S.take d
  | ⟨.attach (.ref id), h⟩ => if h.contains (.ref id) then attachLast S id else S
  | ⟨.place d p, h⟩ => attachLast S (h.place d p).1
  | ⟨.startTeardown, _⟩ => []
  | _ => S

def scopesAfter (S : List Scope) (ts : List Transition) : List Scope := ts.foldl Transition.scopes S

@[simp]
theorem scopesAfter_append (S : List Scope) (ts us : List Transition) :
    scopesAfter S (ts ++ us) = scopesAfter (scopesAfter S ts) us := List.foldl_append

theorem attachLast_concat (S : List Scope) (x : Scope) (id : InstanceId) :
    attachLast (S ++ [x]) id = S ++ [x.add id] := by
  unfold attachLast
  rw [List.length_append, List.length_singleton, Nat.add_sub_cancel, List.modify_eq_set_getElem?]
  simp

theorem getElem?_attachLast (S : List Scope) (id : InstanceId) (l : Nat) :
    (attachLast S id)[l]? = if l + 1 = S.length then S[l]?.map (·.add id) else S[l]? := by
  unfold attachLast
  rw [List.getElem?_modify]
  by_cases hl : l + 1 = S.length
  · rw [if_pos hl, ← hl]
    simp
  · rw [if_neg hl]
    cases hx : S[l]? with
    | none => rfl
    | some x =>
      obtain ⟨hlt, _⟩ := List.getElem?_eq_some_iff.mp hx
      have hne : S.length - 1 ≠ l := by omega
      simp [hne]

@[simp]
theorem length_attachLast (S : List Scope) (id : InstanceId) :
    (attachLast S id).length = S.length := List.length_modify _ _ _

/-! ## What the frames kept tell about it -/

/-- The frames that are kept under a limit, and the stack without limit: there is a frame for each
scope below the limit, with the same caller, and the other scopes are counted.  Below the last frame
that can be kept, the frames have the same instances attached.  That last one has also those of all
scopes above it, and may have more: what was attached to a scope beyond the limit stays when the
scope is left. -/
structure Frames.Refines (limit : Nat) (f : Frames) (S : List Scope) : Prop where
  kept : f.kept.length = min S.length limit
  overflow : f.overflow = S.length - limit
  caller : ∀ l < limit, (f.level? l).map Frame.caller = S[l]?.map Scope.caller
  attached : ∀ l, l + 1 < limit → f.attachedAt l = (S[l]?.map Scope.attached).getD []
  clamped : ((S.drop (limit - 1)).flatMap Scope.attached).Sublist (f.attachedAt (limit - 1))

namespace Frames

theorem attachedAt_push (f : Frames) (limit l : Nat) (caller : Value) :
    (f.push limit caller).attachedAt l = f.attachedAt l := by
  unfold attachedAt
  rw [level?_push]
  split
  · next h => rw [level?_of_le (Nat.le_of_eq h.2.symm)]; rfl
  · rfl

theorem attachedAt_resync_of_lt (f : Frames) {d l : Nat} (h : l < d) :
    (f.resync d).attachedAt l = f.attachedAt l := by
  unfold attachedAt
  rw [level?_resync, if_pos h]

theorem attachedAt_attach_of_ne (f : Frames) (id : InstanceId) {l : Nat}
    (h : l + 1 ≠ f.kept.length) : (f.attach id).attachedAt l = f.attachedAt l := by
  unfold attachedAt
  rw [level?_attach, if_neg h]

theorem attachedAt_attach_last (f : Frames) (id : InstanceId) {l : Nat}
    (h : l + 1 = f.kept.length) : (f.attach id).attachedAt l = f.attachedAt l ++ [id] := by
  have hl : l < f.kept.reverse.length := by
    rw [List.length_reverse, ← h]
    exact Nat.lt_succ_self l
  unfold attachedAt
  rw [level?_attach, if_pos h]
  unfold level?
  rw [List.getElem?_eq_getElem hl]
  exact List.reverse_cons

end Frames

namespace Frames.Refines

variable {limit : Nat} {f : Frames} {S : List Scope}

theorem depth (r : Refines limit f S) : f.depth = S.length := by
  unfold Frames.depth
  rw [r.kept, r.overflow]
  omega

theorem nil (limit : Nat) : Refines limit {} [] where
  kept := (Nat.zero_min limit).symm
  overflow := (Nat.zero_sub limit).symm
  caller _ _ := rfl
  attached _ _ := rfl
  clamped := by rw [List.drop_nil]; exact List.nil_sublist _

theorem push (r : Refines limit f S) (caller : Value) :
    Refines limit (f.push limit caller) (S ++ [⟨caller, []⟩]) where
  kept := by
    unfold Frames.push
    have := r.kept
    rw [List.length_append, List.length_singleton]
    split
    · show f.kept.length = _
      omega
    · show f.kept.length + 1 = _
      omega
  overflow := by
    unfold Frames.push
    have := r.kept
    have := r.overflow
    rw [List.length_append, List.length_singleton]
    split
    · show f.overflow + 1 = _
      omega
    · show f.overflow = _
      omega
  caller l hl := by
    rw [level?_push]
    have hkept := r.kept
    rcases Nat.lt_trichotomy l S.length with hlt | rfl | hgt
    · rw [if_neg (by omega), List.getElem?_append_left hlt]
      exact r.caller l hl
    · rw [if_pos (by omega), List.getElem?_concat_length]
      rfl
    · rw [if_neg (by omega), level?_of_le (by omega), List.getElem?_eq_none]
      · rfl
      · rw [List.length_append]
        exact hgt
  attached l hl := by
    rw [attachedAt_push, r.attached l hl]
    rcases Nat.lt_trichotomy l S.length with hlt | rfl | hgt
    · rw [List.getElem?_append_left hlt]
    · rw [List.getElem?_concat_length, List.getElem?_eq_none (Nat.le_refl _)]
      rfl
    · rw [List.getElem?_eq_none (Nat.le_of_lt hgt), List.getElem?_eq_none]
      rw [List.length_append]
      exact hgt
  clamped := by
    rw [attachedAt_push]
    -- the new scope has nothing attached
    let new : Scope := ⟨caller, []⟩
    have hsame : ((S ++ [new]).drop (limit - 1)).flatMap Scope.attached =
        (S.drop (limit - 1)).flatMap Scope.attached := by
      rw [List.drop_append, List.flatMap_append]
      cases limit - 1 - S.length <;> simp [new]
    rw [hsame]
    exact r.clamped

theorem resync (r : Refines limit f S) (d : Nat) : Refines limit (f.resync d) (S.take d) where
  kept := by
    have hkept := r.kept
    have hoverflow := r.overflow
    rw [List.length_take]
    unfold Frames.resync Frames.depth
    split
    · omega
    · split
      · show f.kept.length = _
        omega
      · show (f.kept.drop _).length = _
        rw [List.length_drop]
        omega
  overflow := by
    have hkept := r.kept
    have hoverflow := r.overflow
    rw [List.length_take]
    unfold Frames.resync Frames.depth
    split
    · omega
    · split
      · show d - f.kept.length = _
        omega
      · show 0 = _
        omega
  caller l hl := by
    rw [level?_resync, List.getElem?_take]
    split
    · exact r.caller l hl
    · rfl
  attached l hl := by
    rw [List.getElem?_take]
    by_cases hd : l < d
    · rw [attachedAt_resync_of_lt f hd, if_pos hd]
      exact r.attached l hl
    · unfold attachedAt
      rw [level?_resync, if_neg hd, if_neg hd]
      rfl
  clamped := by
    by_cases hd : limit - 1 < d
    · rw [attachedAt_resync_of_lt f hd, List.drop_take]
      exact ((List.take_sublist _ _).flatMap _).trans r.clamped
    · rw [List.drop_of_length_le]
      · exact List.nil_sublist _
      · rw [List.length_take]
        omega

theorem pop (r : Refines limit f S) : Refines limit f.pop S.dropLast := by
  rw [pop_eq_resync, r.depth, List.dropLast_eq_take]
  exact r.resync _

theorem attach (r : Refines limit f S) (positive : 1 ≤ limit) (id : InstanceId) :
    Refines limit (f.attach id) (attachLast S id) where
  kept := by
    rw [length_kept_attach, length_attachLast]
    exact r.kept
  overflow := by
    rw [overflow_attach, length_attachLast]
    exact r.overflow
  caller l hl := by
    have hscope : (attachLast S id)[l]?.map Scope.caller = S[l]?.map Scope.caller := by
      rw [getElem?_attachLast]
      split
      · rw [Option.map_map]
        rfl
      · rfl
    rw [caller_attach, hscope]
    exact r.caller l hl
  attached l hl := by
    have hkept := r.kept
    rw [getElem?_attachLast]
    by_cases hlast : l + 1 = S.length
    · rw [attachedAt_attach_last f id (by omega), r.attached l hl, if_pos hlast,
        List.getElem?_eq_getElem (by omega)]
      rfl
    · rw [attachedAt_attach_of_ne f id (by omega), if_neg hlast]
      exact r.attached l hl
  clamped := by
    have hkept := r.kept
    by_cases hfull : limit ≤ S.length
    · obtain ⟨T, x, rfl⟩ : ∃ T x, S = T ++ [x] := by
        rcases List.eq_nil_or_concat S with rfl | hconcat
        · exact absurd (Nat.le_trans positive hfull) (Nat.not_succ_le_zero 0)
        · simpa using hconcat
      have hdrop : ∀ y : Scope, (T ++ [y]).drop (limit - 1) = T.drop (limit - 1) ++ [y] := by
        intro y
        rw [List.length_append, List.length_singleton] at hfull
        exact List.drop_append_of_le_length (by omega)
      have hbefore := r.clamped
      rw [hdrop, List.flatMap_append, List.flatMap_singleton] at hbefore
      rw [attachedAt_attach_last f id (by omega), attachLast_concat, hdrop, List.flatMap_append,
        List.flatMap_singleton]
      show (_ ++ (x.attached ++ [id])).Sublist _
      rw [← List.append_assoc]
      exact hbefore.append (List.Sublist.refl [id])
    · rw [List.drop_of_length_le]
      · exact List.nil_sublist _
      · rw [length_attachLast]
        omega

theorem level?_caller (r : Refines limit f S) (l : Nat) : (f.level? l).map Frame.caller =
    if l < min S.length limit then S[l]?.map Scope.caller else none := by
  split
  · next hl => exact r.caller l (Nat.lt_of_lt_of_le hl (Nat.min_le_right _ _))
  · next hl =>
    rw [level?_of_le (r.kept ▸ Nat.le_of_not_lt hl)]
    rfl

/-- What is attached to a scope, the frames keep alive. -/
theorem mem_roots (r : Refines limit f S) (positive : 1 ≤ limit) {x : Scope} (hx : x ∈ S)
    {id : InstanceId} (hid : id ∈ x.attached) : Value.ref id ∈ f.roots := by
  -- some frame kept has the instance attached
  have hkept : ∃ l, id ∈ f.attachedAt l := by
    obtain ⟨l, hl, rfl⟩ := List.getElem_of_mem hx
    by_cases hlow : l + 1 < limit
    · refine ⟨l, ?_⟩
      rw [r.attached l hlow, List.getElem?_eq_getElem hl]
      exact hid
    · refine ⟨limit - 1, r.clamped.subset (List.mem_flatMap.mpr ⟨S[l], ?_, hid⟩)⟩
      rw [List.mem_drop_iff_getElem]
      refine ⟨l - (limit - 1), by omega, ?_⟩
      congr 1
      omega
  obtain ⟨l, hl⟩ := hkept
  unfold attachedAt level? at hl
  cases htop : f.kept.reverse[l]? with
  | none =>
    rw [htop] at hl
    cases hl
  | some top =>
    rw [htop] at hl
    have hmem : top ∈ f.kept := List.mem_reverse.mp (List.mem_of_getElem? htop)
    have hattached : id ∈ top.attached := List.mem_reverse.mp hl
    exact List.mem_flatMap.mpr
      ⟨top, hmem, List.mem_cons_of_mem _ (List.mem_map.mpr ⟨id, hattached, rfl⟩)⟩

end Frames.Refines

/-! ## Transitions -/

structure Heap.KeepsFrames (h h' : Heap) : Prop where
  frames : h'.frames = h.frames
  registry : h'.registry = h.registry

namespace Heap

theorem keepsFrames_modify (h : Heap) (v : Value) (f : Instance → Instance) :
    h.KeepsFrames (h.modify v f) := by
  cases v <;> exact ⟨rfl, rfl⟩

theorem keepsFrames_mark (h : Heap) (v : Value) : h.KeepsFrames (h.mark v) := by
  obtain ⟨_, hregistry, hframes, _⟩ := eq_of_unmarked_eq (h.unmarked_mark v)
  exact ⟨hframes, hregistry⟩

theorem keepsFrames_markRoots (h : Heap) : h.KeepsFrames h.markRoots := by
  unfold markRoots
  generalize h.roots = vs
  induction vs generalizing h with
  | nil => exact ⟨rfl, rfl⟩
  | cons v vs ih =>
    have first := h.keepsFrames_modify v fun x => { x with marked := true }
    have rest := ih (h.modify v fun x => { x with marked := true })
    exact ⟨rest.frames.trans first.frames, rest.registry.trans first.registry⟩

theorem keepsFrames_evict (h : Heap) (slot : Nat) : h.KeepsFrames (h.evict slot).2 := by
  unfold evict
  split <;> exact ⟨rfl, rfl⟩

theorem keepsFrames_nextGray (h : Heap) : h.KeepsFrames h.nextGray.2 := by
  unfold nextGray
  split <;> exact ⟨rfl, rfl⟩

theorem frames_place (h : Heap) (d : Descriptor) (p : Payload) :
    (h.place d p).2.frames = h.frames.attach (h.place d p).1 := by
  unfold place
  simp only
  split
  · exact (keepsFrames_mark _ _).frames
  · rfl

end Heap

/-- Every transition does to the frames kept what it does to the stack without limit. -/
theorem Transition.refines {t : Transition} {S : List Scope}
    (positive : 1 ≤ t.before.config.maxFrameDepth)
    (r : t.before.frames.Refines t.before.config.maxFrameDepth S) :
    t.after.frames.Refines t.before.config.maxFrameDepth (t.scopes S) := by
  obtain ⟨a, h⟩ := t
  have same : ∀ {f : Frames}, f = h.frames → f.Refines h.config.maxFrameDepth S := by
    rintro _ rfl
    exact r
  cases a with
  | pushFrame caller => exact r.push caller
  | popFrame => exact r.pop
  | resyncFrames d => exact r.resync d
  | attach v =>
    show (h.attach v).2.frames.Refines _ _
    unfold Heap.attach
    cases v with
    | ref id =>
      show Frames.Refines _ _ (if h.contains (.ref id) then attachLast S id else S)
      cases hlive : h.contains (.ref id) with
      | false => exact r
      | true =>
        have hattach := r.attach positive id
        by_cases hdepth : 0 < h.frames.depth
        · simpa [hdepth] using hattach
        · -- without a frame there is no scope either
          have hnil : S = [] := by
            rw [r.depth] at hdepth
            exact List.length_eq_zero_iff.mp (Nat.eq_zero_of_not_pos hdepth)
          subst hnil
          simpa [hdepth, attachLast] using r
    | _ => exact r
  | place d p =>
    show (h.place d p).2.frames.Refines _ _
    rw [h.frames_place d p]
    exact r.attach positive _
  | startTeardown => exact .nil _
  | evict slot => exact same (h.keepsFrames_evict slot).frames
  | change v c => exact same (h.keepsFrames_modify v c.apply).frames
  | mark v => exact same (h.keepsFrames_mark v).frames
  | pop =>
    refine same (f := h.pop.2.frames) ?_
    unfold Heap.pop
    split <;> rfl
  | startMarking => exact same h.keepsFrames_markRoots.frames
  | nextGray => exact same h.keepsFrames_nextGray.frames
  | _ => exact r

theorem Path.refines {h h' : Heap} {ts : List Transition} (p : Path h ts h') {S : List Scope}
    (positive : 1 ≤ h.config.maxFrameDepth) (r : h.frames.Refines h.config.maxFrameDepth S) :
    h'.frames.Refines h.config.maxFrameDepth (scopesAfter S ts) := by
  induction p generalizing S with
  | nil => exact r
  | cons t _ ih =>
    have step := t.refines positive r
    rw [← t.keepsTypes.config] at positive step ⊢
    exact ih positive step

/-! ## Operations -/

/-- The types stay as `g` says, and the stack without limit stays as it is. -/
def Conduct.unframed (g : Registry) : Conduct where
  pre h := h.registry = g
  rel _ ts h' := h'.registry = g ∧ ∀ S, scopesAfter S ts = S
  nil hg := ⟨hg, fun _ => rfl⟩
  append first second := ⟨second.1, fun S => by rw [scopesAfter_append, first.2, second.2]⟩
  keeps _ _ h := h.1

/-- The collector does nothing to the frames. -/
theorem unframed_act {g : Registry} {α : Type} {a : Action α} (ha : a.collects = true) :
    (act a).Follows (.unframed g) := by
  refine follows_act ?_
  rintro h rfl
  cases a with
  | mark v => exact ⟨(h.keepsFrames_mark v).registry, fun _ => rfl⟩
  | nextGray => exact ⟨h.keepsFrames_nextGray.registry, fun _ => rfl⟩
  | startMarking => exact ⟨h.keepsFrames_markRoots.registry, fun _ => rfl⟩
  | evict slot => exact ⟨(h.keepsFrames_evict slot).registry, fun _ => rfl⟩
  | startSweep | finishCollection | setPhase | schedule => exact ⟨rfl, fun _ => rfl⟩
  | _ => cases ha

/-- Whether an instance is attached depends on whether there is a scope. -/
theorem Heap.attach_iff {h : Heap} {limit : Nat} {S : List Scope} (r : h.frames.Refines limit S)
    {v : Value} (live : h.contains v = true) : (h.attach v).1 = true ↔ S ≠ [] := by
  have hdepth : 0 < h.frames.depth ↔ S ≠ [] := by
    rw [r.depth]
    exact List.length_pos_iff
  rw [← hdepth]
  unfold attach
  cases v with
  | ref id =>
    rw [live]
    by_cases hpos : 0 < h.frames.depth <;> simp [hpos]
  | _ => cases live

namespace Heap

variable {h : Heap} {S : List Scope}

theorem scopes_of_attached {id : InstanceId} (S : List Scope) (hid : (h.attach (.ref id)).1 = true) :
    Transition.scopes S ⟨.attach (.ref id), h⟩ = attachLast S id := by
  have live : h.contains (.ref id) = true := by
    by_contra hdead
    rw [Bool.not_eq_true] at hdead
    simp [attach, hdead] at hid
  exact if_pos live

theorem scopes_of_refused {limit : Nat} (r : h.frames.Refines limit S) {v : Value}
    (hv : (h.attach v).1 = false) : Transition.scopes S ⟨.attach v, h⟩ = S := by
  cases v with
  | ref id =>
    show (if h.contains (.ref id) then attachLast S id else S) = S
    split
    · next live =>
      have hnil : S = [] := by
        by_contra hne
        rw [(attach_iff r live).mpr hne] at hv
        cases hv
      rw [hnil]
      rfl
    · rfl
  | _ => rfl

end Heap

/-- The frames of a heap refine a stack of scopes without limit.  Let `S` be that stack after any
transitions from a fresh heap, such as those of a session up to any moment.

The depth of the frames is that of `S`.  The frame at a level below the limit has the caller of the
scope at that level, and there are no frames above.  Below the last frame that can be kept, the same
instances are attached; that one has those of all scopes from its level on.  A live instance can be
attached if there is a scope.  So whatever is attached to a scope is a root as long as the scope is
there.

And `S` is what one expects: entering a frame adds an empty scope, leaving one drops the last, and so
on.  A collection leaves `S` as it is, and an allocation attaches the new instance to the last scope,
if the mark and free callbacks that types have leave frames and types alone. -/
theorem frames_refine {config : Config} (positive : 1 ≤ config.maxFrameDepth) {ts : List Transition}
    {w : World} (path : Path (Heap.new config) ts w.heap) :
    let m := config.maxFrameDepth
    let S := scopesAfter [] ts
    (w.heap.frames.depth = S.length ∧
      (∀ l, (w.heap.frames.level? l).map Frame.caller =
        if l < min S.length m then S[l]?.map Scope.caller else none) ∧
      (∀ l, l + 1 < m → w.heap.frames.attachedAt l = (S[l]?.map Scope.attached).getD []) ∧
      ((S.drop (m - 1)).flatMap Scope.attached).Sublist (w.heap.frames.attachedAt (m - 1)) ∧
      (∀ v, w.heap.contains v = true → ((w.heap.attach v).1 = true ↔ S ≠ [])) ∧
      ∀ x ∈ S, ∀ id ∈ x.attached, Value.ref id ∈ w.heap.roots) ∧
    (∀ caller, scopesAfter S ((pushFrame caller).trace w) = S ++ [⟨caller, []⟩]) ∧
    scopesAfter S (popFrame.trace w) = S.dropLast ∧
    (∀ d, scopesAfter S ((act (.resyncFrames d)).trace w) = S.take d) ∧
    (∀ v, (w.heap.attach v).1 = false → scopesAfter S ((act (.attach v)).trace w) = S) ∧
    (∀ id, (w.heap.attach (.ref id)).1 = true →
      scopesAfter S ((act (.attach (.ref id))).trace w) = attachLast S id) ∧
    ∀ r : Runner, r.FollowsOn (.unframed w.heap.registry) .mark →
      r.FollowsOn (.unframed w.heap.registry) .free →
      scopesAfter S ((collect r).trace w) = S ∧
      ∀ d p v w', (allocate r d p).run.exec w = (.ok (.ok v), w') →
        ∃ id, v = .ref id ∧ scopesAfter S ((allocate r d p).run.trace w) = attachLast S id := by
  intro m S
  have refines : w.heap.frames.Refines m S := path.refines positive (.nil m)
  refine ⟨⟨refines.depth, refines.level?_caller, refines.attached, refines.clamped,
    fun v live => Heap.attach_iff refines live, fun x hx id hid => ?_⟩, fun caller => ?_, ?_,
    fun d => rfl, fun v => Heap.scopes_of_refused refines, fun id => Heap.scopes_of_attached S,
    fun r hmark hfree => ⟨?_, fun d p v w' hexec => ?_⟩⟩
  · exact List.mem_append_right _ (refines.mem_roots positive hx hid)
  · rw [trace_pushFrame]
    rfl
  · rw [trace_popFrame]
    rfl
  · exact (follows_collect unframed_act hmark hfree w rfl).2 S
  · obtain ⟨h', rfl, htrace⟩ := allocate_ok hexec
    refine ⟨_, rfl, ?_⟩
    rw [htrace, scopesAfter_append, (follows_collectIfDue unframed_act hmark hfree w rfl).2 S]
    rfl

/-- A session that enters three frames where two are kept, allocates in the third, leaves it, and
allocates again. -/
def deepFrames : Session where
  config := { maxFrameDepth := 2 }
  containers := false
  steps := [.op (.register "cell" none), .op (.pushFrame (.const (.int 1))),
    .op (.pushFrame (.const (.int 2))), .op (.pushFrame (.const (.int 3))),
    .op (.alloc .unit (.index ⟨0⟩)), .op .popFrame, .op (.alloc .unit (.index ⟨0⟩)), .op .collect]

theorem frames_refine_deepFrames :
    let w := deepFrames.closing (.ofDepth 2)
    let ts := deepFrames.opening.trace (deepFrames.start (Heap.new deepFrames.config)) ++
      deepFrames.stepsTrace (.ofDepth 2) deepFrames.steps deepFrames.opened
    let S : List Scope := [⟨.int 1, []⟩, ⟨.int 2, [⟨1, 0⟩]⟩]
    scopesAfter [] ts = S ∧ w.heap.frames.depth = 2 ∧ w.heap.frames.attachedAt 0 = [] ∧
      [⟨1, 0⟩].Sublist (w.heap.frames.attachedAt 1) ∧
      w.heap.frames.attachedAt 1 = [⟨0, 0⟩, ⟨1, 0⟩] ∧ Value.ref ⟨1, 0⟩ ∈ w.heap.roots ∧
      scopesAfter S ((collect (.ofDepth 2)).trace w) = S := by
  intro w ts S
  have path : Path (Heap.new deepFrames.config) ts w.heap := deepFrames.path_closing (.ofDepth 2)
  have hscopes : scopesAfter [] ts = S := by decide +kernel
  -- the one type of the session has no callbacks
  have hdefined : ∀ g ∈ w.heap.registry.records, g.table.defined = [] := by decide +kernel
  have hnone : ∀ d b, w.heap.registry.callback? d b = none := by
    intro d b
    unfold Registry.callback? Registry.get?
    refine Option.bind_eq_none_iff.mpr fun g hg => ?_
    by_contra hsome
    have hb := DispatchTable.mem_defined.mpr (Option.isSome_iff_ne_none.mpr hsome)
    rw [hdefined g (Array.mem_of_getElem? hg)] at hb
    cases hb
  have follows : ∀ b, (Runner.ofDepth 2).FollowsOn (.unframed w.heap.registry) b := by
    intro b h hh d c hc
    rw [show h.registry = w.heap.registry from hh, hnone] at hc
    cases hc
  obtain ⟨⟨hdepth, _, hattached, hclamped, _, hroots⟩, _, _, _, _, _, collecting⟩ :=
    frames_refine (by decide) path
  obtain ⟨hcollect, _⟩ := collecting (.ofDepth 2) (follows .mark) (follows .free)
  rw [hscopes] at hdepth hattached hclamped hroots hcollect
  exact ⟨hscopes, hdepth, hattached 0 (by decide), hclamped, by decide +kernel,
    hroots _ (List.mem_cons_of_mem _ List.mem_cons_self) _ List.mem_cons_self, hcollect⟩

end TracedHeap
