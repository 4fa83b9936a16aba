import TracedHeap.Proofs.Effect

/-!
# Payloads in use

While a payload is in use the heap is busy, so what runs inside is an interlude.  It may use the
payload of the same instance again, for reading, but each such use has ended when it is over.

* `Borrow.Within`            a payload is in use as before, or by more readers;
* `Heap.Holds`               an instance still has its payload, and this is in use as before;
* `Interlude.holds`          in an interlude a payload in use stays as it is, and in the end it is
                             in use exactly as in the beginning;
* `Session.payload_stable`   what this means for reading and for writing, in every session.
-/

namespace TracedHeap

open Run

/-- `b.Within b'`: a payload in use as `b'` says is in use as `b` says, and perhaps by more
readers. -/
inductive Borrow.Within : Borrow → Borrow → Prop where
  | shared {m n : Nat} : m ≤ n → Within (.shared m) (.shared n)
  | exclusive : Within .exclusive .exclusive

theorem Borrow.Within.refl (b : Borrow) : b.Within b := by
  cases b with
  | shared n => exact .shared (Nat.le_refl n)
  | exclusive => exact .exclusive

theorem Borrow.Within.trans {b b' b'' : Borrow} (h : b.Within b') (h' : b'.Within b'') :
    b.Within b'' := by
  cases h with
  | shared hmn =>
    cases h' with
    | shared hnk => exact .shared (Nat.le_trans hmn hnk)
  | exclusive => exact h'

structure Instance.SameUse (x y : Instance) : Prop where
  payload : y.payload = x.payload
  borrow : y.borrow = x.borrow

namespace Instance

theorem SameUse.refl (x : Instance) : x.SameUse x := ⟨rfl, rfl⟩

theorem SameUse.trans {x y z : Instance} (h : x.SameUse y) (h' : y.SameUse z) : x.SameUse z :=
  ⟨h'.payload.trans h.payload, h'.borrow.trans h.borrow⟩

theorem Marks.sameUse {x y : Instance} (m : x.Marks y) : x.SameUse y := ⟨m.payload, m.borrow⟩

end Instance

/-- Every change but the writing of the payload leaves payload and use as they are. -/
theorem Change.sameUse {c : Change} (hc : c.ordinary = true) (x : Instance) :
    x.SameUse (c.apply x) := by
  cases c with
  | write p => cases hc
  | advanceCursor len =>
    show x.SameUse (x.advance len).2
    unfold Instance.advance
    split <;> exact ⟨rfl, rfl⟩
  | _ => exact ⟨rfl, rfl⟩

namespace Heap

section
variable {h : Heap} {id other : InstanceId} {x : Instance}

theorem sameUse_mark (v : Value) (hx : h.pool.get? id = some x) :
    ∃ y, (h.mark v).pool.get? id = some y ∧ x.SameUse y := by
  obtain ⟨y, hy, hxy⟩ := get?_mark v hx
  exact ⟨y, hy, hxy.sameUse⟩

theorem sameUse_modify {f : Instance → Instance} (v : Value) (hf : ∀ x : Instance, x.SameUse (f x))
    (hx : h.pool.get? id = some x) : ∃ y, (h.modify v f).pool.get? id = some y ∧ x.SameUse y := by
  cases v with
  | ref other =>
    by_cases hne : id = other
    · subst hne
      exact ⟨f x, get?_modify_self f hx, hf x⟩
    · rw [get?_modify_of_ne f hne]
      exact ⟨x, hx, .refl x⟩
  | _ => exact ⟨x, hx, .refl x⟩

theorem sameUse_place (sound : h.SoundPool) (d : Descriptor) (p : Payload)
    (hx : h.pool.get? id = some x) : ∃ y, (h.place d p).2.pool.get? id = some y ∧ x.SameUse y := by
  obtain ⟨y, hy, hxy⟩ := get?_place sound d p hx
  exact ⟨y, hy, hxy.sameUse⟩

end

end Heap

theorem Action.sameUse_of_ordinary {α : Type} {a : Action α} (ha : a.ordinary = true) {h : Heap}
    {id : InstanceId} {x : Instance} (hx : h.pool.get? id = some x) :
    ∃ y, (a.apply h).2.pool.get? id = some y ∧ x.SameUse y := by
  cases a with
  | change v c => exact Heap.sameUse_modify v (Change.sameUse ha) hx
  | mark v => exact Heap.sameUse_mark v hx
  | pop =>
    show ∃ y, h.pop.2.pool.get? id = some y ∧ _
    unfold Heap.pop
    split <;> exact ⟨x, hx, .refl x⟩
  | attach v =>
    show ∃ y, (h.attach v).2.pool.get? id = some y ∧ _
    unfold Heap.attach
    split <;> exact ⟨x, hx, .refl x⟩
  | nextGray =>
    show ∃ y, h.nextGray.2.pool.get? id = some y ∧ _
    unfold Heap.nextGray
    split <;> exact ⟨x, hx, .refl x⟩
  | place | evict | startUse | stopUse | startMarking | startSweep | startTeardown
  | finishCollection | setPhase => cases ha
  | _ => exact ⟨x, hx, .refl x⟩

/-- The instance `id` has the payload of `x`, which is in use as that of `x` is. -/
def Heap.Holds (h : Heap) (id : InstanceId) (x : Instance) : Prop :=
  ∃ y, h.pool.get? id = some y ∧ y.payload = x.payload ∧ x.borrow.Within y.borrow

theorem Heap.Holds.of_sameUse {h : Heap} {id : InstanceId} {x y : Instance}
    (hy : h.pool.get? id = some y) (hxy : x.SameUse y) : h.Holds id x :=
  ⟨y, hy, hxy.payload, hxy.borrow ▸ .refl x.borrow⟩

theorem Heap.Holds.congr {h : Heap} {id : InstanceId} {x y : Instance} (holds : h.Holds id y)
    (hxy : x.SameUse y) : h.Holds id x := by
  obtain ⟨z, hz, hpayload, hborrow⟩ := holds
  exact ⟨z, hz, hpayload.trans hxy.payload, hxy.borrow ▸ hborrow⟩

theorem Heap.content_eq_ok {h : Heap} {a : Access} {v : Value} {k : Kind} {id : InstanceId}
    {c : k.Content} (hc : h.content a v k = .ok (id, c)) :
    ∃ x, v = .ref id ∧ h.pool.get? id = some x ∧ a.allowed x.borrow = true ∧
      x.payload = .of k c := by
  cases v with
  | ref other =>
    cases hx : h.pool.get? other with
    | none => simp [content, find, hx, bind, Except.bind] at hc
    | some x =>
      simp only [content, find, hx, bind, Except.bind] at hc
      split at hc
      · next hallowed =>
        split at hc
        · next c' hpayload =>
          cases hc
          exact ⟨x, rfl, hx, hallowed, Payload.as?_eq_some_iff.mp hpayload⟩
        · cases hc
      · cases hc
  | _ => simp [content, find, bind, Except.bind] at hc

theorem Heap.read_eq_ok {h : Heap} {v : Value} {k : Kind} {c : k.Content}
    (hc : h.read v k = .ok c) :
    ∃ id x, v = .ref id ∧ h.pool.get? id = some x ∧ x.payload = .of k c := by
  unfold Heap.read at hc
  rcases hcontent : h.content .read v k with e | ⟨id, c'⟩
  · rw [hcontent] at hc
    cases hc
  · rw [hcontent] at hc
    cases hc
    obtain ⟨x, rfl, hx, _, hpayload⟩ := Heap.content_eq_ok hcontent
    exact ⟨id, x, rfl, hx, hpayload⟩

theorem Heap.ne_of_content_write {h : Heap} {v : Value} {k : Kind} {id other : InstanceId}
    {c : k.Content} {x : Instance} (hc : h.content .write v k = .ok (other, c))
    (hx : h.pool.get? id = some x) (inUse : x.borrow.writable = false) : id ≠ other := by
  rintro rfl
  obtain ⟨y, _, hy, hallowed, _⟩ := content_eq_ok hc
  rw [hx] at hy
  cases hy
  have hwritable : x.borrow.writable = true := hallowed
  rw [inUse] at hwritable
  cases hwritable

/-- How the use of a payload looks from an instance whose payload is in use already: the other use is
that of another instance, or one more reader, and when it ends all is as before. -/
theorem Heap.startUse_inUse {h : Heap} {a : Access} {v : Value} {k : Kind} {id other : InstanceId}
    {c : k.Content} {x : Instance} (hc : h.content a v k = .ok (other, c))
    (hx : h.pool.get? id = some x) (inUse : x.borrow.writable = false) :
    ∃ x', (h.startUse a other).pool.get? id = some x' ∧ x'.payload = x.payload ∧
      x.borrow.Within x'.borrow ∧ x'.borrow.writable = false ∧
      ∀ {h' : Heap} {y : Instance}, h'.pool.get? id = some y → x'.SameUse y →
        ∃ z, (h'.stopUse a other).pool.get? id = some z ∧ x.SameUse z := by
  by_cases hne : id = other
  · subst hne
    obtain ⟨y, _, hy, hallowed, _⟩ := content_eq_ok hc
    rw [hx] at hy
    cases hy
    cases a with
    | write => exact absurd rfl (ne_of_content_write hc hx inUse)
    | read =>
      cases hborrow : x.borrow with
      | exclusive =>
        rw [hborrow] at hallowed
        cases hallowed
      | shared n =>
        refine ⟨{ x with borrow := .shared (n + 1) }, ?_, rfl, .shared (Nat.le_succ n), rfl, ?_⟩
        · refine (get?_modify_self _ hx).trans ?_
          rw [hborrow]
          rfl
        · intro h' y hy hxy
          refine ⟨_, get?_modify_self _ hy, hxy.payload, ?_⟩
          show Access.read.stop y.borrow = x.borrow
          rw [hxy.borrow, hborrow]
          rfl
  · refine ⟨x, (get?_modify_of_ne _ hne).trans hx, rfl, .refl _, inUse, ?_⟩
    exact fun hy hxy => ⟨_, (get?_modify_of_ne _ hne).trans hy, hxy⟩

theorem Interlude.soundPool {h h' : Heap} {ts : List Transition} (i : Interlude h ts h')
    (sound : h.SoundPool) : h'.SoundPool :=
  i.path.soundPool sound

section
variable {id : InstanceId}

theorem forall_moments_append {P : Heap → Prop} {h h' : Heap} {ts us : List Transition}
    (first : ∀ g ∈ h :: ts.map Transition.after, P g)
    (second : ∀ g ∈ h' :: us.map Transition.after, P g) :
    ∀ g ∈ h :: (ts ++ us).map Transition.after, P g := by
  intro g hg
  rw [List.map_append, ← List.cons_append] at hg
  rcases List.mem_append.mp hg with hg | hg
  · exact first g hg
  · exact second g (List.mem_cons_of_mem h' hg)

/-- In an interlude a payload in use stays as it is, and is in use at least as in the beginning.  In
the end it is in use exactly as in the beginning. -/
theorem Interlude.holds {h h' : Heap} {ts : List Transition} (i : Interlude h ts h') {x : Instance}
    (sound : h.SoundPool) (hx : h.pool.get? id = some x) (inUse : x.borrow.writable = false) :
    (∀ g ∈ h :: ts.map Transition.after, g.Holds id x) ∧
      ∃ y, h'.pool.get? id = some y ∧ x.SameUse y := by
  have here : ∀ {h : Heap} {x : Instance}, h.pool.get? id = some x → h.Holds id x :=
    fun hx => .of_sameUse hx (.refl _)
  -- one transition that leaves payload and use of the instance as they are
  have quiet : ∀ {h : Heap} {x : Instance} (t : Transition), h.pool.get? id = some x →
      (∃ y, t.after.pool.get? id = some y ∧ x.SameUse y) →
      (∀ g ∈ h :: [t].map Transition.after, g.Holds id x) ∧
        ∃ y, t.after.pool.get? id = some y ∧ x.SameUse y := by
    intro h x t hx hafter
    refine ⟨?_, hafter⟩
    obtain ⟨y, hy, hxy⟩ := hafter
    exact List.forall_mem_cons.mpr ⟨here hx, List.forall_mem_singleton.mpr (.of_sameUse hy hxy)⟩
  induction i generalizing x with
  | nil h => exact ⟨List.forall_mem_singleton.mpr (here hx), x, hx, .refl x⟩
  | append i _ ih ih' =>
    obtain ⟨first, y, hy, hxy⟩ := ih sound hx inUse
    have inUse' : y.borrow.writable = false := hxy.borrow ▸ inUse
    obtain ⟨second, z, hz, hyz⟩ := ih' (i.soundPool sound) hy inUse'
    exact ⟨forall_moments_append first fun g hg => (second g hg).congr hxy, z, hz, hxy.trans hyz⟩
  | @act _ a h ha => exact quiet ⟨a, h⟩ hx (Action.sameUse_of_ordinary ha hx)
  | place d p h => exact quiet ⟨.place d p, h⟩ hx (Heap.sameUse_place sound d p hx)
  | @write h _ k other _ c' hcontent =>
    have hne := Heap.ne_of_content_write hcontent hx inUse
    exact quiet ⟨.change (.ref other) (.write (.of k c')), h⟩ hx
      ⟨x, (Heap.get?_modify_of_ne _ hne).trans hx, .refl x⟩
  | @use h h' a _ _ other _ ts hcontent i ih =>
    obtain ⟨x', hx', hpayload, more, inUse', stop⟩ := Heap.startUse_inUse hcontent hx inUse
    obtain ⟨inside, y, hy, hxy⟩ :=
      ih (Transition.soundPool ⟨.startUse a other, h⟩ sound) hx' inUse'
    obtain ⟨z, hz, hxz⟩ := stop hy hxy
    have inside' : ∀ g ∈ h.startUse a other :: ts.map Transition.after, g.Holds id x := by
      intro g hg
      obtain ⟨u, hu, hupayload, hwithin⟩ := inside g hg
      exact ⟨u, hu, hupayload.trans hpayload, more.trans hwithin⟩
    have last : ∀ g ∈ h' :: [(⟨.stopUse a other, h'⟩ : Transition)].map Transition.after,
        g.Holds id x := by
      refine List.forall_mem_cons.mpr ⟨?_, List.forall_mem_singleton.mpr (.of_sameUse hz hxz)⟩
      exact ⟨y, hy, hxy.payload.trans hpayload, hxy.borrow ▸ more⟩
    exact ⟨List.forall_mem_cons.mpr ⟨here hx, forall_moments_append inside' last⟩, z, hz, hxz⟩
  | @edit h h' _ k other _ ts c' hcontent i ih =>
    have hne := Heap.ne_of_content_write hcontent hx inUse
    have hx' : (h.startUse .write other).pool.get? id = some x :=
      (Heap.get?_modify_of_ne _ hne).trans hx
    obtain ⟨inside, y, hy, hxy⟩ :=
      ih (Transition.soundPool ⟨.startUse .write other, h⟩ sound) hx' inUse
    have hwrite : (h'.change (.ref other) (.write (.of k c'))).pool.get? id = some y :=
      (Heap.get?_modify_of_ne _ hne).trans hy
    have hstop : ((h'.change (.ref other) (.write (.of k c'))).stopUse .write other).pool.get? id =
        some y := (Heap.get?_modify_of_ne _ hne).trans hwrite
    have last : ∀ g ∈ h' :: [(⟨.change (.ref other) (.write (.of k c')), h'⟩ : Transition),
        ⟨.stopUse .write other, h'.change (.ref other) (.write (.of k c'))⟩].map Transition.after,
        g.Holds id y :=
      List.forall_mem_cons.mpr ⟨here hy, List.forall_mem_cons.mpr
        ⟨here hwrite, List.forall_mem_singleton.mpr (here hstop)⟩⟩
    refine ⟨List.forall_mem_cons.mpr ⟨here hx, ?_⟩, y, hstop, hxy⟩
    exact forall_moments_append inside fun g hg => (last g hg).congr hxy

end

/-! ## Sessions -/

def Run.moments {α : Type} (x : Run α) (w : World) : List Heap :=
  w.heap :: (x.trace w).map Transition.after

/-- A payload that is in use for writing is refused to everybody else. -/
theorem Heap.Holds.refused {h : Heap} {id : InstanceId} {x : Instance} (holds : h.Holds id x)
    (hborrow : x.borrow = .exclusive) (a : Access) (k : Kind) :
    h.content a (.ref id) k = .error (.payloadBorrowed id) ∧ h.payloadIs (.ref id) k = false := by
  obtain ⟨y, hy, _, hwithin⟩ := holds
  rw [hborrow] at hwithin
  have hexclusive : y.borrow = .exclusive := by
    generalize y.borrow = b at hwithin
    cases hwithin
    rfl
  refine ⟨?_, ?_⟩
  · have hallowed : a.allowed y.borrow = false := by
      rw [hexclusive]
      cases a <;> rfl
    simp [content, find, hy, bind, Except.bind, hallowed]
  · simp [payloadIs, find?, Value.instance?, hy, hexclusive, Borrow.readable]

def Instance.used (x : Instance) (a : Access) : Instance := { x with borrow := a.start x.borrow }

theorem Access.writable_start (a : Access) (b : Borrow) : (a.start b).writable = false := by
  cases a <;> cases b <;> rfl

/-- When a use ends, the payload is in use as before it. -/
theorem Access.stop_start {a : Access} {b : Borrow} (h : a.allowed b = true) :
    a.stop (a.start b) = b := by
  cases a with
  | read =>
    cases b with
    | shared n => rfl
    | exclusive => cases h
  | write =>
    cases b with
    | shared n =>
      cases n with
      | zero => rfl
      | succ n => cases h
    | exclusive => cases h

section
variable {α : Type} {a : Access} {id : InstanceId} {w : World}

/-- Inside the use of a payload the payload stays, and stays in use. -/
theorem Run.Lawful.holds {x : Run α} (lawful : x.Lawful) (sound : w.heap.SoundPool) {x₀ : Instance}
    (hx₀ : w.heap.pool.get? id = some x₀) :
    (∀ h ∈ x.moments (w.startUse a id), h.Holds id (x₀.used a)) ∧
      ∃ z, (x.exec (w.startUse a id)).2.heap.pool.get? id = some z ∧ (x₀.used a).SameUse z := by
  have inside := lawful.inside (w.startUse a id) (w.heap.busy_startUse a id)
  have hstart : (w.startUse a id).heap.pool.get? id = some (x₀.used a) :=
    Heap.get?_modify_self _ hx₀
  exact inside.holds (Transition.soundPool ⟨.startUse a id, w.heap⟩ sound) hstart
    (a.writable_start x₀.borrow)

theorem Heap.borrow_stopUse {h : Heap} {x z : Instance} (hz : h.pool.get? id = some z)
    (hborrow : z.borrow = (x.used a).borrow) (hallowed : a.allowed x.borrow = true) :
    ((h.stopUse a id).pool.get? id).map Instance.borrow = some x.borrow := by
  have hstop : (h.stopUse a id).pool.get? id = some { z with borrow := a.stop z.borrow } :=
    get?_modify_self _ hz
  rw [hstop]
  show some (a.stop z.borrow) = some x.borrow
  rw [hborrow]
  exact congrArg some (Access.stop_start hallowed)

end

/-- Payloads in use are stable.  Let `w` be a world whose heap is any moment of a session, and let
`x` be any lawful computation, such as a script.

While `x` reads a payload, and while it writes one, nothing is released.  If it reads, the payload is
the same at every moment.  If it writes, the payload is refused to whatever runs inside at every
moment, for reading and for writing.  However `x` ends, afterwards as many uses go on as before, and
the payload is in use as before. -/
theorem Session.payload_stable (s : Session) (n : Nat) (valid : s.config.fault? = none) {α : Type}
    {w : World} (hw : w.heap ∈ s.moments (.ofDepth n)) (v : Value) (k : Kind) (id : InstanceId)
    (c : k.Content) :
    (∀ (m : Nat) (steps : List Step), (Step.runAll (.ofDepth m) steps).run.Lawful) ∧
      (∀ x : k.Content → Attempt α, (∀ c, (x c).run.Lawful) →
        w.heap.content .read v k = .ok (id, c) →
        let inside := w.startUse .read id
        let last := ((withPayload v k x).run.exec w).2.heap
        ⟨.startUse .read id, w.heap⟩ :: (x c).run.trace inside <+:
            (withPayload v k x).run.trace w ∧
          (∀ t ∈ (withPayload v k x).run.trace w, t.released? = none) ∧
          (∀ h ∈ (x c).run.moments inside,
            (h.pool.get? id).map Instance.payload = some (.of k c)) ∧
          last.borrows = w.heap.borrows ∧
          (last.pool.get? id).map Instance.borrow = (w.heap.pool.get? id).map Instance.borrow) ∧
      ∀ x : k.Content → Attempt (α × k.Content), (∀ c, (x c).run.Lawful) →
        w.heap.content .write v k = .ok (id, c) →
        let inside := w.startUse .write id
        let last := ((withPayloadMut v k x).run.exec w).2.heap
        ⟨.startUse .write id, w.heap⟩ :: (x c).run.trace inside <+:
            (withPayloadMut v k x).run.trace w ∧
          (∀ t ∈ (withPayloadMut v k x).run.trace w, t.released? = none) ∧
          (∀ h ∈ (x c).run.moments inside, ∀ (a : Access) (k' : Kind),
            h.content a (.ref id) k' = .error (.payloadBorrowed id) ∧
              h.payloadIs (.ref id) k' = false) ∧
          last.borrows = w.heap.borrows ∧
          (last.pool.get? id).map Instance.borrow = (w.heap.pool.get? id).map Instance.borrow := by
  have sound := s.soundPool_moments _ valid _ hw
  refine ⟨fun m => lawful_steps (Runner.lawful_ofDepth m), fun x lawful hc => ?_,
    fun x lawful hc => ?_⟩
  · obtain ⟨x₀, _, hx₀, hallowed, hpayload⟩ := Heap.content_eq_ok hc
    obtain ⟨holds, z, hz, hxz⟩ := (lawful c).holds (a := .read) sound hx₀
    obtain ⟨htrace, hexec⟩ := usePayload_ok (fun _ c => x c) hc
    have interlude := interlude_withPayload v k (fun c => (lawful c).inside) w
    refine ⟨?_, ?_, ?_, interlude.borrows, ?_⟩
    · rw [withPayload_eq, htrace]
      exact ⟨_, rfl⟩
    · exact fun t ht => Transition.released?_of_calm (interlude.calm t ht)
    · intro h hh
      obtain ⟨y, hy, hy', _⟩ := holds h hh
      rw [hy]
      exact congrArg some (hy'.trans hpayload)
    · rw [withPayload_eq, hexec, hx₀]
      exact Heap.borrow_stopUse hz hxz.borrow hallowed
  · obtain ⟨x₀, _, hx₀, hallowed, _⟩ := Heap.content_eq_ok hc
    obtain ⟨holds, z, hz, hxz⟩ := (lawful c).holds (a := .write) sound hx₀
    obtain ⟨htrace, hexec⟩ := usePayload_ok (fun id c => thenWrite id k (x c)) hc
    have interlude := interlude_withPayloadMut v k (fun c => (lawful c).inside) w
    refine ⟨?_, ?_, fun h hh => (holds h hh).refused rfl, interlude.borrows, ?_⟩
    · rw [withPayloadMut_eq, htrace]
      rcases thenWrite_cases id (x c) (w.startUse .write id) with ⟨htrace, _⟩ | ⟨c', htrace, _⟩
      · rw [htrace]
        exact ⟨_, rfl⟩
      · rw [htrace, List.append_assoc]
        exact ⟨_, rfl⟩
    · exact fun t ht => Transition.released?_of_calm (interlude.calm t ht)
    · rw [withPayloadMut_eq, hexec, hx₀]
      rcases thenWrite_cases id (x c) (w.startUse .write id) with ⟨_, hend⟩ | ⟨c', _, hend⟩
      · rw [World.stopUse, hend]
        exact Heap.borrow_stopUse hz hxz.borrow hallowed
      · rw [World.stopUse, hend]
        exact Heap.borrow_stopUse (Heap.get?_modify_self _ hz) hxz.borrow hallowed

def fullCell : Session where
  config := { highWaterMark := 1 }
  containers := false
  steps := [.op (.register "cell" none), .op (.alloc (.int 1) (.index ⟨0⟩))]

/-- A script that asks for a collection and a teardown and allocates. -/
def meddle : Attempt Unit :=
  Step.runAll (.ofDepth 2) [.op .collect, .op .teardown, .op (.alloc .unit (.index ⟨0⟩))]

theorem Session.payload_stable_fullCell :
    let w := fullCell.closing (.ofDepth 2)
    let id : InstanceId := ⟨0, 0⟩
    (∀ h ∈ meddle.run.moments (w.startUse .read id),
        (h.pool.get? id).map Instance.payload = some (.int 1)) ∧
      (meddle.run.exec (w.startUse .read id)).2.heap.pool.live = 2 ∧
      (∀ h ∈ (do meddle; return ((), 7) : Attempt (Unit × Int64)).run.moments (w.startUse .write id),
        h.content .read (.ref id) .int = .error (.payloadBorrowed id)) ∧
      ((withPayloadMut (.ref id) .int fun _ => do meddle; return ((), 7)).run.exec w).2.heap.borrows =
        0 := by
  intro w id
  have hw := fullCell.closing_mem_moments (.ofDepth 2)
  obtain ⟨scripts, reading, writing⟩ :=
    fullCell.payload_stable 2 rfl (α := Unit) hw (.ref id) .int id 1
  have lawful : meddle.run.Lawful := scripts 2 _
  obtain ⟨_, _, stable, _, _⟩ := reading (fun _ => meddle) (fun _ => lawful) (by rfl)
  obtain ⟨_, _, refused, hborrows, _⟩ := writing (fun _ => do meddle; return ((), 7))
    (fun _ => lawful_attempt_bind lawful fun _ => lawful_attempt_pure _) (by rfl)
  exact ⟨stable, by decide +kernel, fun h hh => (refused h hh .read .int).1, hborrows⟩

end TracedHeap
