import TracedHeap.Proofs.Registration

/-!
# Registrations that fail

A registration fails if its tag is taken or its base is unknown.  If it brought its tag, it leaves
nothing behind.  If it did not, the tag that was drawn for it is lost: no automatic tag is that one
again, although no type has it.

* `Heap.withTypes`             actions that are not about types do not look at them;
* `Path.withNextTag`           actions that draw no tag do the same, whatever the counter is;
* `registerType_of_failed`     what a registration that fails does;
* `Registry.Sound.isLeast_unusedTag`
                               an automatic tag is the least one that no type has and that is not
                               lost;
* `Session.failed_registration`
                               what a registration that fails means for those after it.
-/

namespace TracedHeap

/-! ## Actions and types -/

def Registry.withNextTag (g : Registry) (n : Tag) : Registry := { g with nextTag := n }

namespace Heap

def withTypes (h : Heap) (g : Registry) : Heap := { h with registry := g }

theorem modify_withTypes (h : Heap) (g : Registry) (v : Value) (f : Instance → Instance) :
    (h.withTypes g).modify v f = (h.modify v f).withTypes g := by
  cases v <;> rfl

theorem mark_withTypes (h : Heap) (g : Registry) (v : Value) :
    (h.withTypes g).mark v = (h.mark v).withTypes g := by
  cases v with
  | ref id =>
    have hfind : (h.withTypes g).find? (.ref id) = h.find? (.ref id) := rfl
    unfold mark
    rw [hfind]
    cases h.find? (.ref id) with
    | none => rfl
    | some x =>
      simp only
      split
      · rfl
      · show (if h.collector.phase = .marking then _ else _) =
          withTypes (if h.collector.phase = .marking then _ else _) g
        split <;> rfl
  | _ => rfl

theorem markRoots_withTypes (h : Heap) (g : Registry) :
    (h.withTypes g).markRoots = h.markRoots.withTypes g := by
  unfold markRoots
  show h.roots.foldl _ _ = _
  generalize h.roots = vs
  induction vs generalizing h with
  | nil => rfl
  | cons v vs ih =>
    rw [List.foldl_cons, modify_withTypes, ih]
    rfl

def withNextTag (h : Heap) (n : Tag) : Heap := h.withTypes (h.registry.withNextTag n)

end Heap

namespace Action

variable {α : Type} {a : Action α}

/-- An action that is not about types answers and does the same, whatever types there are. -/
theorem apply_withTypes (ha : a.typing = false) (h : Heap) (g : Registry) :
    a.apply (h.withTypes g) = ((a.apply h).1, (a.apply h).2.withTypes g) := by
  cases a with
  | register | install => cases ha
  | change v c => exact Prod.ext rfl (h.modify_withTypes g v c.apply)
  | mark v => exact Prod.ext rfl (h.mark_withTypes g v)
  | place d p =>
    refine Prod.ext rfl ?_
    show (if h.collector.phase = .marking then _ else _) =
      Heap.withTypes (if h.collector.phase = .marking then _ else _) g
    split
    · exact (h.enroll _ _).mark_withTypes g _
    · rfl
  | evict slot =>
    show (h.withTypes g).evict slot = ((h.evict slot).1, (h.evict slot).2.withTypes g)
    have hpool : (h.withTypes g).pool = h.pool := rfl
    unfold Heap.evict
    rw [hpool]
    cases h.pool.evict slot <;> rfl
  | pop =>
    show (h.withTypes g).pop = (h.pop.1, h.pop.2.withTypes g)
    have hstack : (h.withTypes g).stack = h.stack := rfl
    unfold Heap.pop
    rw [hstack]
    cases h.stack <;> rfl
  | attach v =>
    show (h.withTypes g).attach v = ((h.attach v).1, (h.attach v).2.withTypes g)
    have hcontains : ((h.withTypes g).contains v && 0 < (h.withTypes g).frames.depth) =
        (h.contains v && 0 < h.frames.depth) := rfl
    unfold Heap.attach
    rw [hcontains]
    split <;> rfl
  | startMarking =>
    show ((), (h.withTypes g).startMarking) = ((), h.startMarking.withTypes g)
    unfold Heap.startMarking
    rw [h.markRoots_withTypes g]
    rfl
  | nextGray =>
    show (h.withTypes g).nextGray = (h.nextGray.1, h.nextGray.2.withTypes g)
    have hgray : (h.withTypes g).collector = h.collector := rfl
    unfold Heap.nextGray
    rw [hgray]
    cases h.collector.gray <;> rfl
  | _ => rfl

def draws : {α : Type} → Action α → Bool
  | _, register _ tag _ => tag.isNone
  | _, _ => false

end Action

namespace Registry

theorem startTable_withNextTag (g : Registry) (n : Tag) (base : Option Descriptor) :
    (g.withNextTag n).startTable base = g.startTable base := rfl

/-- A registration that brings its tag does not look at the counter. -/
theorem register_withNextTag (g : Registry) (n : Tag) (increment : Nat) (name : String) (t : Tag)
    (base : Option Descriptor) :
    (g.withNextTag n).register increment name (some t) base =
      ((g.register increment name (some t) base).1,
        (g.register increment name (some t) base).2.withNextTag n) := by
  unfold register
  by_cases hused : g.usesTag t = true
  · have taken : ∀ k : Registry, k.usesTag t = true →
        k.chooseTag (some t) = .error (.duplicateTag t) := fun _ hk => if_pos hk
    rw [taken _ hused, taken (g.withNextTag n) hused]
  · have free : ∀ k : Registry, ¬ k.usesTag t = true → k.chooseTag (some t) = .ok (t, k) :=
      fun _ hk => if_neg hk
    rw [free _ hused, free (g.withNextTag n) hused]
    simp only [startTable_withNextTag]
    cases g.startTable base <;> rfl

end Registry

theorem Action.apply_withNextTag {α : Type} {a : Action α} (ha : a.draws = false) (h : Heap)
    (n : Tag) : a.apply (h.withNextTag n) = ((a.apply h).1, (a.apply h).2.withNextTag n) := by
  cases ht : a.typing with
  | false =>
    have hsame : (a.apply h).2.registry = h.registry :=
      (Transition.sameTypes (t := ⟨a, h⟩) ht).registry
    unfold Heap.withNextTag
    rw [apply_withTypes ht, hsame]
  | true =>
    cases a with
    | install d b c => rfl
    | register name tag base =>
      cases tag with
      | none => cases ha
      | some t =>
        have heq := h.registry.register_withNextTag n h.config.registryIncrement name t base
        have hanswer := congrArg Prod.fst heq
        have htypes := congrArg Prod.snd heq
        exact Prod.ext hanswer (congrArg h.withTypes htypes)
    | _ => cases ht

def Transition.withNextTag (t : Transition) (n : Tag) : Transition :=
  ⟨t.action, t.before.withNextTag n⟩

/-- Actions that draw no tag lead to the same heap, whatever the counter is. -/
theorem Path.withNextTag {h h' : Heap} {ts : List Transition} (p : Path h ts h') (n : Tag)
    (chosen : ∀ t ∈ ts, t.action.draws = false) :
    Path (h.withNextTag n) (ts.map fun t => t.withNextTag n) (h'.withNextTag n) := by
  induction p with
  | nil h => exact .nil _
  | cons t _ ih =>
    have heq : (t.withNextTag n).after = t.after.withNextTag n :=
      congrArg Prod.snd (Action.apply_withNextTag (chosen t List.mem_cons_self) t.before n)
    have rest := ih fun u hu => chosen u (List.mem_cons_of_mem t hu)
    rw [← heq] at rest
    exact .cons (t.withNextTag n) rest

/-! ## What a registration that fails leaves -/

section
variable {name : String} {tag : Option Tag} {base : Option Descriptor} {e : Error}

theorem exec_registerType_fst (name : String) (tag : Option Tag) (base : Option Descriptor)
    (w : World) :
    ((registerType name tag base).run.exec w).1 = .ok (w.heap.register name tag base).1 := by
  unfold registerType
  simp only [Attempt.exec_ofRun, Run.exec_bind, Run.exec_look, Run.exec_act]
  split <;> rfl

theorem exec_registerType_snd {w : World}
    (same : (w.heap.register name tag base).2.registry.capacity = w.heap.registry.capacity) :
    ((registerType name tag base).run.exec w).2 =
      { w with heap := (w.heap.register name tag base).2 } := by
  unfold registerType
  simp only [Attempt.exec_ofRun, Run.exec_bind, Run.exec_look, Run.exec_act]
  have hsame : ¬ ((Action.register name tag base).apply w.heap).2.registry.capacity ≠
      w.heap.registry.capacity := not_not_intro same
  rw [if_neg hsame]
  rfl

theorem registerType_of_failed {w w' : World}
    (failed : (registerType name tag base).run.exec w = (.ok (.error e), w')) :
    w' = { w with heap := w.heap.withTypes (w.heap.registry.drawn tag) } := by
  have hanswer : (w.heap.register name tag base).1 = .error e := by
    have h := exec_registerType_fst name tag base w
    rw [failed] at h
    exact (Except.ok.inj h).symm
  have hheap : (w.heap.register name tag base).2 = w.heap.withTypes (w.heap.registry.drawn tag) :=
    congrArg w.heap.withTypes (Heap.register_of_error hanswer)
  have hcapacity : (w.heap.register name tag base).2.registry.capacity =
      w.heap.registry.capacity := by
    rw [hheap]
    cases tag <;> rfl
  have hworld := exec_registerType_snd hcapacity
  rwa [failed, hheap] at hworld

end

/-! ## The next automatic tag -/

/-- An automatic tag is the least one that no type has and that is not lost. -/
theorem Registry.Sound.isLeast_unusedTag {g : Registry} {lost : List Tag} {made : Nat}
    (sound : g.Sound lost made) (few : made + 1 < UInt32.size) :
    IsLeast {n | n ∉ g.tags ∧ n ∉ lost.map UInt32.toNat} g.unusedTag.toNat := by
  obtain ⟨search, _⟩ := sound.search few
  refine ⟨⟨fun hn => ?_, fun hn => ?_⟩, fun n ⟨hn, hn'⟩ => ?_⟩
  · have hused := sound.toIndexed.usesTag_iff_mem.mpr hn
    rw [search.unused] at hused
    cases hused
  · obtain ⟨t, ht, heq⟩ := List.mem_map.mp hn
    have hlt := sound.lost_lt t ht
    have hle := search.le
    omega
  · by_contra hlt
    rcases List.mem_append.mp
      (sound.toAccounted.spent_of_search sound.toIndexed search n (by omega)) with h | h
    · exact hn h
    · exact hn' h

/-- What a registration that fails means for those after it.  One that brought its tag leaves the
world as it was.  One that brought none has moved the counter on, past the tag that was drawn for
it, and done nothing else; so up to the next registration without a tag, all actions answer and do
what they would have done without it.  In a session with fewer than 2³² registrations a type
without a tag gets the least one that no type has and that no such failure has lost. -/
theorem Session.failed_registration (s : Session) (r : Runner)
    (few : registrations (s.history r) < UInt32.size) :
    (∀ name tag base w e w',
        (registerType name (some tag) base).run.exec w = (.ok (.error e), w') → w' = w) ∧
      (∀ name base w e w',
        (registerType name none base).run.exec w = (.ok (.error e), w') →
          w' = { w with heap := w.heap.withNextTag (w.heap.registry.unusedTag + 1) }) ∧
      (∀ h ts h' n, Path h ts h' → (∀ t ∈ ts, t.action.draws = false) →
        Path (h.withNextTag n) (ts.map fun t => t.withNextTag n) (h'.withNextTag n) ∧
          ∀ t ∈ ts, (t.action.apply (t.before.withNextTag n)).1 = (t.action.apply t.before).1) ∧
      ∀ past name base h rest, s.history r = past ++ ⟨.register name none base, h⟩ :: rest →
        ∀ d, (h.register name none base).1 = .ok d →
          ∃ x, (h.register name none base).2.registry.get? d = some x ∧
            IsLeast {n | n ∉ h.registry.tags ∧ n ∉ (lostTags past).map UInt32.toNat}
              x.tag.toNat := by
  refine ⟨fun name tag base w e w' failed => registerType_of_failed failed,
    fun name base w e w' failed => registerType_of_failed failed,
    fun h ts h' n path chosen => ⟨path.withNextTag n chosen, fun t ht => ?_⟩,
    fun past name base h rest heq d hd => ?_⟩
  · rw [Action.apply_withNextTag (chosen t ht)]
  · obtain ⟨x, hx, _, htag, _⟩ := Heap.get?_of_register hd
    refine ⟨x, hx, ?_⟩
    rw [htag]
    exact (soundRegistry_before few heq).isLeast_unusedTag (registrations_before few heq rfl)

theorem Session.failed_registration_mixedTags :
    ∃ past h rest, mixedTags.history (.ofDepth 1) =
        past ++ ⟨.register "twin" none (some ⟨2⟩), h⟩ :: rest ∧
      lostTags past = [2] ∧ h.registry.tags = [0, 4294967295, 1] ∧
      ∃ x, (h.register "twin" none (some ⟨2⟩)).2.registry.get? ⟨3⟩ = some x ∧
        IsLeast {n | n ∉ h.registry.tags ∧ n ∉ (lostTags past).map UInt32.toNat} x.tag.toNat := by
  have hlen : 5 < (mixedTags.history (.ofDepth 1)).length := by decide +kernel
  obtain ⟨hlast, htags, hok⟩ :
      ((mixedTags.history (.ofDepth 1)).get ⟨5, hlen⟩).registration? =
          some ("twin", none, some ⟨2⟩) ∧
        ((mixedTags.history (.ofDepth 1)).get ⟨5, hlen⟩).before.registry.tags =
          [0, 4294967295, 1] ∧
        (((mixedTags.history (.ofDepth 1)).get ⟨5, hlen⟩).before.register "twin" none
          (some ⟨2⟩)).1 = .ok ⟨3⟩ := by decide +kernel +revert
  have hcut : mixedTags.history (.ofDepth 1) = (mixedTags.history (.ofDepth 1)).take 5 ++
      (mixedTags.history (.ofDepth 1)).get ⟨5, hlen⟩ :: (mixedTags.history (.ofDepth 1)).drop 6 :=
    (List.take_append_drop 5 _).symm.trans (congrArg _ (List.drop_eq_getElem_cons hlen))
  rw [Transition.eq_of_registration? hlast] at hcut
  obtain ⟨_, _, _, least⟩ :=
    mixedTags.failed_registration (.ofDepth 1) (by decide +kernel)
  exact ⟨_, _, _, hcut, by decide +kernel, htags, least _ _ _ _ _ hcut ⟨3⟩ hok⟩

def orphan : Session where
  containers := false
  steps := [.op (.derive "orphan" none (.index ⟨42⟩)), .op (.register "cell" none)]

/-- Without the derivation that fails the tag of the type would be 0. -/
theorem Session.tag_of_failed_lost :
    (orphan.closing (.ofDepth 1)).heap.registry.tags = [1] ∧
      (closing { orphan with steps := orphan.steps.tail } (.ofDepth 1)).heap.registry.tags = [0] := by
  decide +kernel

end TracedHeap
