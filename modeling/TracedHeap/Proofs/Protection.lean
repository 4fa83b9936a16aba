import Mathlib.Data.List.Induction
import Mathlib.Data.List.Infix
import TracedHeap.Proofs.Effect
import TracedHeap.Proofs.Phases
import TracedHeap.Proofs.PoolInvariant
import TracedHeap.Proofs.Release

/-!
# Protection nests

The header of an instance has a flag that says whether it is protected, and counts the protections
that are not lifted yet, in 32 bits.  The collector reads the flag only.

* `unmatched`                how many protections some transitions leave, if each lifting takes one
                             away as long as there is one;
* `Lives`                    an instance that is there, with the transitions since its allocation;
* `Lives.protections`        its header counts the unmatched protections since then;
* `Path.protected_until`     what is protected and not doomed is not released before a lifting has
                             left it unprotected;
* `Session.protection_nests` what all this says about the instances and collections of a session.
-/

namespace TracedHeap

/-! ## Unmatched protections -/

def Change.protections (n : Nat) : Change → Nat
  | protect => n + 1
  | unprotect => n - 1
  | _ => n

namespace Transition

def protections (id : InstanceId) (n : Nat) : Transition → Nat
  | ⟨.change (.ref other) c, _⟩ => if other = id then c.protections n else n
  | _ => n

def unprotects (id : InstanceId) : Transition → Bool
  | ⟨.change (.ref other) .unprotect, _⟩ => other == id
  | _ => false

end Transition

/-- How many protections of the instance `id` some transitions leave unmatched. -/
def unmatched (id : InstanceId) (life : List Transition) : Nat :=
  life.foldl (Transition.protections id) 0

/-- Never are more protections of `id` unmatched than the header can count. -/
def FewProtections (id : InstanceId) (life : List Transition) : Prop :=
  ∀ ts, ts <+: life → unmatched id ts ≤ Instance.maxProtections

theorem FewProtections.of_prefix {id : InstanceId} {ts us : List Transition}
    (few : FewProtections id us) (h : ts <+: us) : FewProtections id ts :=
  fun vs hvs => few vs (hvs.trans h)

instance (id : InstanceId) (life : List Transition) : Decidable (FewProtections id life) :=
  decidable_of_iff (∀ ts ∈ life.inits, unmatched id ts ≤ Instance.maxProtections)
    (forall_congr' fun ts => imp_congr_left (List.mem_inits ts life))

/-! ## One transition -/

namespace Instance.Marks

variable {x y : Instance}

theorem protections (m : x.Marks y) : y.protections = x.protections := by
  rcases m with rfl | rfl <;> rfl

theorem isProtected (m : x.Marks y) : y.isProtected = x.isProtected := by
  rcases m with rfl | rfl <;> rfl

end Instance.Marks

namespace Change

variable {c : Change} {x : Instance}

/-- The header counts what a change leaves, unless that is too much to count. -/
theorem protections_apply (few : c.protections x.protections ≤ Instance.maxProtections) :
    (c.apply x).protections = c.protections x.protections := by
  cases c with
  | protect => exact Nat.min_eq_left few
  | advanceCursor len =>
    show (x.advance len).2.protections = x.protections
    unfold Instance.advance
    split <;> rfl
  | _ => rfl

theorem isProtected_apply (hc : c ≠ .unprotect) (hx : x.isProtected = true) :
    (c.apply x).isProtected = true := by
  cases c with
  | unprotect => exact absurd rfl hc
  | protect => rfl
  | advanceCursor len =>
    show (x.advance len).2.isProtected = true
    unfold Instance.advance
    split <;> exact hx
  | _ => exact hx

end Change

namespace Transition

variable {t : Transition} {id : InstanceId} {x : Instance}

theorem protections_effect (few : t.protections id x.protections ≤ Instance.maxProtections) :
    (t.effect id x).protections = t.protections id x.protections := by
  obtain ⟨a, h⟩ := t
  cases a with
  | change v c =>
    cases v with
    | ref other =>
      have few : (if other = id then c.protections x.protections else x.protections) ≤ _ := few
      show (if other = id then c.apply x else x).protections =
        if other = id then c.protections x.protections else x.protections
      split at few
      · next hid =>
        rw [if_pos hid, if_pos hid]
        exact Change.protections_apply few
      · next hid => rw [if_neg hid, if_neg hid]
    | _ => rfl
  | startUse a other | stopUse a other =>
    show (if other = id then ({ x with borrow := _ } : Instance) else x).protections = x.protections
    split <;> rfl
  | _ => rfl

theorem isProtected_effect (keeps : t.unprotects id = false) (hx : x.isProtected = true) :
    (t.effect id x).isProtected = true := by
  obtain ⟨a, h⟩ := t
  cases a with
  | change v c =>
    cases v with
    | ref other =>
      show (if other = id then c.apply x else x).isProtected = true
      split
      · next hid =>
        refine Change.isProtected_apply ?_ hx
        rintro rfl
        have keeps : (other == id) = false := keeps
        exact absurd hid (beq_eq_false_iff_ne.mp keeps)
      · exact hx
    | _ => exact hx
  | startUse a other | stopUse a other =>
    show (if other = id then ({ x with borrow := _ } : Instance) else x).isProtected = true
    split <;> exact hx
  | _ => exact hx

theorem protections_of_get? (sound : t.before.SoundPool) (hx : t.before.pool.get? id = some x)
    (kept : t.released? ≠ some id)
    (few : t.protections id x.protections ≤ Instance.maxProtections) :
    ∃ y, t.after.pool.get? id = some y ∧ y.protections = t.protections id x.protections := by
  obtain ⟨y, hy, m⟩ := effect_of_get? sound hx kept
  exact ⟨y, hy, m.protections.trans (protections_effect few)⟩

theorem protections_of_placed (sound : t.before.SoundPool) (placed : t.placed? = some id) :
    ∃ y, t.after.pool.get? id = some y ∧ y.protections = 0 := by
  obtain ⟨a, h⟩ := t
  cases a with
  | place d p =>
    cases placed
    obtain ⟨y, hy, m⟩ := Heap.get?_place_self sound d p
    exact ⟨y, hy, m.protections⟩
  | _ => cases placed

end Transition

/-! ## The life of an instance -/

/-- The header counts what the transitions leave. -/
theorem Path.protections {h h' : Heap} {ts : List Transition} (p : Path h ts h') {id : InstanceId}
    {x : Instance} (sound : h.SoundPool) (hx : h.pool.get? id = some x)
    (kept : ∀ t ∈ ts, t.released? ≠ some id)
    (few : ∀ us, us <+: ts →
      us.foldl (Transition.protections id) x.protections ≤ Instance.maxProtections) :
    ∃ y, h'.pool.get? id = some y ∧
      y.protections = ts.foldl (Transition.protections id) x.protections := by
  induction p generalizing x with
  | nil => exact ⟨x, hx, rfl⟩
  | @cons t ts _ _ ih =>
    obtain ⟨here, later⟩ := List.forall_mem_cons.mp kept
    have hfirst : [t] <+: t :: ts := List.prefix_cons_inj t |>.mpr List.nil_prefix
    obtain ⟨y, hy, heq⟩ := Transition.protections_of_get? sound hx here (few _ hfirst)
    rw [List.foldl_cons, ← heq]
    refine ih (t.soundPool sound) hy later fun us hus => ?_
    have hus : t :: us <+: t :: ts := List.prefix_cons_inj t |>.mpr hus
    have hfew := few _ hus
    rwa [List.foldl_cons, ← heq] at hfew

/-- The transitions `past` have brought the instance `id`, and `life` are those since then, in which
it was not released. -/
structure Lives (past : List Transition) (id : InstanceId) (life : List Transition) : Prop where
  born : ∃ earlier t, past = earlier ++ t :: life ∧ t.placed? = some id
  kept : ∀ t ∈ life, t.released? ≠ some id

namespace Lives

variable {past life : List Transition} {id : InstanceId} {c : Config} {h : Heap}

theorem append (l : Lives past id life) {ts : List Transition}
    (kept : ∀ t ∈ ts, t.released? ≠ some id) : Lives (past ++ ts) id (life ++ ts) := by
  obtain ⟨⟨earlier, t, rfl, placed⟩, kept'⟩ := l
  exact ⟨⟨earlier, t, List.append_assoc _ _ _, placed⟩, List.forall_mem_append.mpr ⟨kept', kept⟩⟩

theorem path (l : Lives past id life) (valid : c.fault? = none) (p : Path (Heap.new c) past h) :
    ∃ g x, Path g life h ∧ g.SoundPool ∧ g.pool.get? id = some x ∧ x.protections = 0 := by
  obtain ⟨earlier, t, rfl, placed⟩ := l.born
  obtain ⟨_, before, after⟩ := p.split
  have sound := before.soundPool (Heap.soundPool_new valid)
  cases after with
  | cons _ after =>
    obtain ⟨x, hx, hzero⟩ := Transition.protections_of_placed sound placed
    exact ⟨t.after, x, after, t.soundPool sound, hx, hzero⟩

/-- The header of an instance counts the protections unmatched since its allocation. -/
theorem protections (l : Lives past id life) (valid : c.fault? = none)
    (p : Path (Heap.new c) past h) (few : FewProtections id life) :
    ∃ x, h.pool.get? id = some x ∧ x.protections = unmatched id life := by
  obtain ⟨_, x, path, sound, hx, hzero⟩ := l.path valid p
  have counted := path.protections sound hx l.kept
  rw [hzero] at counted
  exact counted few

end Lives

theorem Path.contains_iff_lives {c : Config} {h : Heap} {past : List Transition}
    (p : Path (Heap.new c) past h) (valid : c.fault? = none) (id : InstanceId) :
    h.contains (.ref id) = true ↔ ∃ life, Lives past id life := by
  constructor
  · intro there
    obtain ⟨y, hy⟩ := Option.isSome_iff_exists.mp there
    induction past using List.reverseRecOn generalizing h y with
    | nil =>
      obtain rfl := p.eq_of_nil
      cases hy
    | append_singleton ts t ih =>
      obtain ⟨before, rfl⟩ := p.of_concat
      rcases t.poolStep.came hy with placed | ⟨⟨x, hx⟩, kept⟩
      · exact ⟨[], ⟨ts, t, rfl, placed⟩, List.forall_mem_nil _⟩
      · obtain ⟨life, l⟩ := ih before (Option.isSome_iff_exists.mpr ⟨x, hx⟩) x hx
        exact ⟨life ++ [t], l.append (List.forall_mem_singleton.mpr kept)⟩
  · rintro ⟨life, l⟩
    obtain ⟨_, x, path, sound, hx, _⟩ := l.path valid p
    exact Option.isSome_iff_exists.mpr (path.contains sound ⟨x, hx⟩ l.kept)

/-! ## The flag -/

theorem Heap.isProtected_iff {h : Heap} {id : InstanceId} :
    h.isProtected (.ref id) = true ↔ ∃ x, h.pool.get? id = some x ∧ x.isProtected = true :=
  Option.any_eq_true _ _

theorem Heap.mem_protectedInstances {h : Heap} {id : InstanceId} :
    .ref id ∈ h.protectedInstances ↔ h.isProtected (.ref id) = true := by
  rw [isProtected_iff, protectedInstances, List.mem_map]
  constructor
  · rintro ⟨_, hmem, ⟨⟩⟩
    exact Pool.mem_namesOf.mp hmem
  · intro hid
    exact ⟨id, Pool.mem_namesOf.mpr hid, rfl⟩

theorem Path.flag_iff {c : Config} {h : Heap} {past : List Transition}
    (p : Path (Heap.new c) past h) (valid : c.fault? = none) {id : InstanceId} {x : Instance}
    (hx : h.pool.get? id = some x) : x.isProtected = true ↔ x.protections ≠ 0 := by
  have start : (Heap.new c).pool.AllSound fun _ => True :=
    (Heap.consistent_new valid).allSound.mono fun _ _ => trivial
  have sound := (p.invariant (I := fun h => h.pool.AllSound fun _ => True)
    (fun t _ => t.poolStep.allSound) start).1
  exact (sound _ x (Pool.occupant?_of_get? hx)).protected_iff

/-- An instance is protected while some of its protections are unmatched. -/
theorem Lives.isProtected {past life : List Transition} {id : InstanceId} {c : Config} {h : Heap}
    (l : Lives past id life) (valid : c.fault? = none) (p : Path (Heap.new c) past h)
    (few : FewProtections id life) : h.isProtected (.ref id) = true ↔ 0 < unmatched id life := by
  obtain ⟨x, hx, hcount⟩ := l.protections valid p few
  have hflag := p.flag_iff valid hx
  rw [hcount, ← Nat.pos_iff_ne_zero] at hflag
  rw [Heap.isProtected_iff, ← hflag]
  constructor
  · rintro ⟨y, hy, hprot⟩
    cases hx.symm.trans hy
    exact hprot
  · intro hprot
    exact ⟨x, hx, hprot⟩

/-! ## Collections -/

theorem Transition.exists_of_startsMarking {t : Transition} (ht : t.startsMarking = true) :
    ∃ h, t = ⟨.startMarking, h⟩ := by
  obtain ⟨a, h⟩ := t
  cases a with
  | startMarking => exact ⟨h, rfl⟩
  | _ => cases ht

theorem Transition.isProtected_after {t : Transition} {id : InstanceId}
    (sound : t.before.SoundPool) (hprot : t.before.isProtected (.ref id) = true)
    (kept : t.released? ≠ some id) (keeps : t.unprotects id = false) :
    t.after.isProtected (.ref id) = true := by
  obtain ⟨x, hx, hflag⟩ := Heap.isProtected_iff.mp hprot
  obtain ⟨y, hy, m⟩ := effect_of_get? sound hx kept
  exact Heap.isProtected_iff.mpr ⟨y, hy, m.isProtected.trans (isProtected_effect keeps hflag)⟩

/-- Until a lifting leaves it unprotected, what is protected and not doomed is not doomed and not
released. -/
theorem Path.protected_until {h h' : Heap} {ts : List Transition} (p : Path h ts h') {s s' : Sweep}
    (l : Sweep.Leads s ts s') (sound : h.SoundPool) {id : InstanceId}
    (hprot : h.isProtected (.ref id) = true) (spared : id ∉ s.left)
    (standing : ∀ t ∈ ts, t.tearsDown = false) :
    id ∉ s'.left ∨ ∃ before t after, ts = before ++ t :: after ∧ t.unprotects id = true ∧
      t.after.isProtected (.ref id) = false ∧ ∀ u ∈ before ++ [t], u.released? ≠ some id := by
  induction p generalizing s with
  | nil =>
    cases l
    exact .inl spared
  | cons t _ ih =>
    obtain ⟨here, later⟩ := List.forall_mem_cons.mp standing
    cases l with
    | cons allowed l =>
      have kept : t.released? ≠ some id := fun gone => spared (allowed.inTurn.mem gone)
      cases hafter : t.after.isProtected (.ref id) with
      | false =>
        refine .inr ⟨[], t, _, rfl, ?_, hafter, List.forall_mem_singleton.mpr kept⟩
        by_contra keeps
        rw [t.isProtected_after sound hprot kept (Bool.eq_false_iff.mpr keeps)] at hafter
        cases hafter
      | true =>
        obtain ⟨x, hx, hflag⟩ := Heap.isProtected_iff.mp hprot
        have hpin : x.pinned = true := by
          unfold Instance.pinned
          rw [hflag, Bool.or_true, Bool.true_or]
        rcases ih l (t.soundPool sound) hafter (Sweep.not_mem_leftAfter hx hpin here spared) later with
          hleft | ⟨before, u, after, rfl, lifts, hflag, hkept⟩
        · exact .inl hleft
        · exact .inr ⟨t :: before, u, after, rfl, lifts, hflag,
            List.forall_mem_cons.mpr ⟨kept, hkept⟩⟩

/-- A collection that begins while some protections of an instance are unmatched releases it only
after the last of them was lifted. -/
theorem Session.lifted_of_released (s : Session) {r : Runner} (hr : r.Lawful)
    (valid : s.config.fault? = none) {past life mid later : List Transition} {b u : Transition}
    {id : InstanceId} (heq : s.history r = past ++ b :: (mid ++ u :: later))
    (l : Lives past id life) (pos : 0 < unmatched id life) (starts : b.startsMarking = true)
    (goes : ∀ t ∈ mid, t.stops = false) (few : FewProtections id (life ++ b :: mid))
    (gone : u.released? = some id) :
    ∃ before t after, mid = before ++ t :: after ∧ t.unprotects id = true ∧
      unmatched id (life ++ b :: (before ++ [t])) = 0 := by
  obtain ⟨h₀, rfl⟩ := Transition.exists_of_startsMarking starts
  have hpast := path_before heq
  have sound := hpast.soundPool (Heap.soundPool_new valid)
  have hprot := (l.isProtected valid hpast (few.of_prefix (List.prefix_append _ _))).mpr pos
  have leads := s.orderly_history hr valid
  rw [heq] at leads
  obtain ⟨s₁, lpast, leads⟩ := leads.split
  rw [← List.cons_append] at leads
  obtain ⟨s₂, lmid, lrest⟩ := leads.split
  have spared : id ∉ s₁.left := by
    rw [lpast.left_eq]
    show id ∉ doomed past
    rw [s.doomed_of_begins hr valid heq rfl]
    exact List.not_mem_nil
  have standing : ∀ t ∈ ⟨.startMarking, h₀⟩ :: mid, t.tearsDown = false :=
    List.forall_mem_cons.mpr ⟨rfl, fun t ht =>
      (Bool.or_eq_false_iff.mp (s.unbegun_until_stops hr valid heq rfl goes t ht)).2⟩
  -- the heap that `u` finds is the end of the collection up to there
  rw [← List.cons_append, ← List.append_assoc] at heq
  obtain ⟨_, hstart, hmid⟩ := (path_before heq).split
  obtain rfl := hstart.eq_getLast?.trans hpast.eq_getLast?.symm
  rcases hmid.protected_until lmid sound hprot spared standing with
    hleft | ⟨before, t, after, hsplit, lifts, hflag, kept⟩
  · cases lrest with
    | cons allowed _ => exact absurd (allowed.inTurn.mem gone) hleft
  · cases before with
    | nil =>
      cases hsplit
      cases lifts
    | cons _ before =>
      rw [List.cons_append] at hsplit
      obtain ⟨rfl, rfl⟩ := List.cons_eq_cons.mp hsplit
      refine ⟨before, t, after, rfl, lifts, ?_⟩
      rw [List.append_cons, ← List.cons_append, ← List.cons_append] at hmid
      obtain ⟨_, hlift, _⟩ := hmid.split
      obtain ⟨_, rfl⟩ := hlift.of_concat
      have hcount := (l.append kept).isProtected valid (hpast.append hlift)
        (few.of_prefix ⟨after, by simp⟩)
      by_contra hpos
      rw [hcount.mpr (Nat.pos_of_ne_zero hpos)] at hflag
      cases hflag

/-- Protection nests, whatever else happens and whatever callbacks do.

Let the transitions `past` of a session lead to the heap `h`.  The instances that are there are those
that were allocated and have not been released since.  Such an instance, if never more of its
protections are unmatched than 32 bits can count, is protected if and only if the number of its
protections, each lifting taking one away as long as there is one, is positive; nothing else counts.
The protected instances are listed in the order of their slots, each once.  And a collection that
begins while that number is positive, asked for or automatic, releases the instance only after the
protection was lifted in the course of the collection so that none is left. -/
theorem Session.protection_nests (s : Session) (n : Nat) (valid : s.config.fault? = none)
    {past rest : List Transition} {h : Heap} (heq : s.history (.ofDepth n) = past ++ rest)
    (path : Path (Heap.new s.config) past h) :
    (∀ id, h.contains (.ref id) = true ↔ ∃ life, Lives past id life) ∧
    (∀ id life, Lives past id life → FewProtections id life →
      h.isProtected (.ref id) = decide (0 < unmatched id life) ∧
        (.ref id ∈ h.protectedInstances ↔ 0 < unmatched id life)) ∧
    (∃ ids : List InstanceId, h.protectedInstances = ids.map Value.ref ∧
      (ids.map InstanceId.index).Pairwise (· < ·) ∧ ∀ id ∈ ids, h.contains (.ref id) = true) ∧
    ∀ id life b mid u later, Lives past id life → 0 < unmatched id life →
      rest = b :: (mid ++ u :: later) → b.startsMarking = true → (∀ t ∈ mid, t.stops = false) →
      FewProtections id (life ++ b :: mid) → u.released? = some id →
      ∃ before t after, mid = before ++ t :: after ∧ t.unprotects id = true ∧
        unmatched id (life ++ b :: (before ++ [t])) = 0 := by
  refine ⟨path.contains_iff_lives valid, fun id life l few => ?_, ?_, ?_⟩
  · have hprot := l.isProtected valid path few
    exact ⟨Bool.eq_iff_iff.mpr (hprot.trans decide_eq_true_iff.symm),
      Heap.mem_protectedInstances.trans hprot⟩
  · refine ⟨_, rfl, h.pool.pairwise_index_namesOf _, fun id hid => ?_⟩
    obtain ⟨x, hx, _⟩ := Pool.mem_namesOf.mp hid
    exact Option.isSome_iff_exists.mpr ⟨x, hx⟩
  · rintro id life b mid u later l pos rfl starts goes few gone
    exact s.lifted_of_released (Runner.lawful_ofDepth n) valid heq l pos starts goes few gone

/-- A session with a cell that is protected twice.  Each collection lifts one protection and takes the
mark of the cell away, so the first one leaves the cell and the second one releases it. -/
def heldTwice : Session where
  containers := false
  steps := [.op (.register "cell" none),
    .install (.index ⟨0⟩) .mark "mark"
      [.op (.pin .unprotect (.var "a")), .op (.pin .unmark (.var "a"))] .nothing,
    .bind "a" (.op (.alloc .unit (.index ⟨0⟩))), .op (.pin .protect (.var "a")),
    .op (.pin .protect (.var "a")), .op .collect, .op .collect]

theorem Session.protection_nests_heldTwice :
    ∃ past b mid u later h life,
      heldTwice.history (.ofDepth 3) = past ++ b :: (mid ++ u :: later) ∧
      Path (Heap.new heldTwice.config) past h ∧ Lives past ⟨0, 0⟩ life ∧
      unmatched ⟨0, 0⟩ life = 1 ∧ h.contains (.ref ⟨0, 0⟩) = true ∧
      h.isProtected (.ref ⟨0, 0⟩) = true ∧ .ref ⟨0, 0⟩ ∈ h.protectedInstances ∧
      b.startsMarking = true ∧ u.released? = some ⟨0, 0⟩ ∧
      ∃ before t after, mid = before ++ t :: after ∧ t.unprotects ⟨0, 0⟩ = true ∧
        unmatched ⟨0, 0⟩ (life ++ b :: (before ++ [t])) = 0 := by
  let ts := heldTwice.history (.ofDepth 3)
  let past := ts.take 14
  let rest := ts.drop 15
  have hplace : 2 < past.length := by decide +kernel
  have hstart : 14 < ts.length := by decide +kernel
  have hend : 6 < rest.length := by decide +kernel
  obtain ⟨placed, starts, gone, few⟩ : (past.get ⟨2, hplace⟩).placed? = some ⟨0, 0⟩ ∧
      (ts.get ⟨14, hstart⟩).startsMarking = true ∧
      (rest.get ⟨6, hend⟩).released? = some ⟨0, 0⟩ ∧
      FewProtections ⟨0, 0⟩ (past.drop 3 ++ ts.get ⟨14, hstart⟩ :: rest.take 6) := by
    decide +kernel +revert
  have hcut : heldTwice.history (.ofDepth 3) = past ++ ts.get ⟨14, hstart⟩ ::
      (rest.take 6 ++ rest.get ⟨6, hend⟩ :: rest.drop 7) := by
    rw [List.get_eq_getElem, List.get_eq_getElem, List.getElem_cons_drop, List.take_append_drop,
      List.getElem_cons_drop, List.take_append_drop]
  have lives : Lives past ⟨0, 0⟩ (past.drop 3) := by
    refine ⟨⟨past.take 2, _, ?_, placed⟩, by decide +kernel⟩
    rw [List.get_eq_getElem, List.getElem_cons_drop, List.take_append_drop]
  have count : unmatched ⟨0, 0⟩ (past.drop 3) = 1 := by decide +kernel
  have path := path_before hcut
  obtain ⟨there, nested, _, lifted⟩ := heldTwice.protection_nests 3 rfl hcut path
  obtain ⟨flag, listed⟩ := nested _ _ lives (few.of_prefix (List.prefix_append _ _))
  rw [count] at flag listed
  exact ⟨_, _, _, _, _, _, _, hcut, path, lives, count, (there _).mpr ⟨_, lives⟩, flag,
    listed.mpr Nat.one_pos, starts, gone, lifted _ _ _ _ _ _ lives (count.symm ▸ Nat.one_pos) rfl
      starts (by decide +kernel) few gone⟩

end TracedHeap
