import TracedHeap.Proofs.Idiom
import TracedHeap.Proofs.Release
import TracedHeap.Proofs.Sifting

/-!
# What the remembered sequences of containers list

The sequence of a string or a table is an array, which is remembered and given out again and again.
The array can be written like any other, so what it lists depends on its past.

* `writtenAfter`, `insertedAfter`
                        what has happened to an instance: whether it was written, and the keys that
                        were added to it;
* `Payload.listing?`    the values that the sequence of a container is to have;
* `Heap.Truthful`       a sequence that is remembered lists what it is to list, unless it was
                        written since it was made;
* `Heap.Truthful.settled`, `Heap.Truthful.place`, `Heap.Truthful.write`, `Heap.Truthful.sift`
                        what keeps this.
-/

namespace TracedHeap

open Run

/-! ## The past of an instance -/

namespace Transition

/-- Whether the instance `id` was written since it was made, if it was so before a transition. -/
def written (id : InstanceId) (b : Bool) : Transition → Bool
  | ⟨.change (.ref other) (.write _), _⟩ => b || other == id
  | ⟨.place d p, h⟩ => b && (h.place d p).1 != id
  | _ => b

/-- The keys of the table `id` in the order in which they were added, if they were `keys` before a
transition.  Keys that are new stand after the others. -/
def inserted (id : InstanceId) (keys : List Value) : Transition → List Value
  | ⟨.change (.ref other) (.write (.table es)), _⟩ =>
    if other = id then keys ++ (es.map Prod.fst).drop keys.length else keys
  | ⟨.place d (.table es), h⟩ => if (h.place d (.table es)).1 = id then es.map Prod.fst else keys
  | _ => keys

end Transition

def writtenAfter (id : InstanceId) (ts : List Transition) : Bool :=
  ts.foldl (Transition.written id) false

def insertedAfter (id : InstanceId) (ts : List Transition) : List Value :=
  ts.foldl (Transition.inserted id) []

def Action.quiet : {α : Type} → Action α → Bool
  | _, place .. | _, change _ (.write _) => false
  | _, _ => true

theorem writtenAfter_concat (id : InstanceId) (past : List Transition) (t : Transition) :
    writtenAfter id (past ++ [t]) = t.written id (writtenAfter id past) := List.foldl_concat ..

theorem insertedAfter_concat (id : InstanceId) (past : List Transition) (t : Transition) :
    insertedAfter id (past ++ [t]) = t.inserted id (insertedAfter id past) := List.foldl_concat ..

theorem Transition.past_of_quiet {t : Transition} (h : t.action.quiet = true) (id : InstanceId)
    (b : Bool) (keys : List Value) : t.written id b = b ∧ t.inserted id keys = keys := by
  obtain ⟨a, heap⟩ := t
  cases a with
  | change v c =>
    cases v with
    | ref other =>
      cases c with
      | write p => cases h
      | _ => exact ⟨rfl, rfl⟩
    | _ => exact ⟨rfl, rfl⟩
  | place d p => cases h
  | _ => exact ⟨rfl, rfl⟩

theorem past_append_of_quiet (id : InstanceId) (past : List Transition) {ts : List Transition}
    (h : ∀ t ∈ ts, t.action.quiet = true) :
    writtenAfter id (past ++ ts) = writtenAfter id past ∧
      insertedAfter id (past ++ ts) = insertedAfter id past := by
  induction ts generalizing past with
  | nil => simp
  | cons t ts ih =>
    obtain ⟨here, later⟩ := List.forall_mem_cons.mp h
    obtain ⟨hwritten, hinserted⟩ := t.past_of_quiet here id (writtenAfter id past)
      (insertedAfter id past)
    rw [List.append_cons, (ih (past ++ [t]) later).1, (ih (past ++ [t]) later).2,
      writtenAfter_concat, insertedAfter_concat]
    exact ⟨hwritten, hinserted⟩

/-! ## The invariant -/

/-- What the sequence of a container lists, if it is a new array: the code points of a text, and the
keys of a table. -/
def Payload.listing? : Payload → Option (List Value)
  | text s => some (codePoints s)
  | table es => some (es.map Prod.fst)
  | _ => none

def Descriptor.content? (d : Descriptor) : Option Kind :=
  [Kind.items, .items, .text, .table, .words][d.index]?

/-- `q` is an array with the elements `items`, unless it was written since it was made. -/
def Heap.Lists (h : Heap) (past : List Transition) (q : Value) (items : List Value) : Prop :=
  ∃ a y, q = .ref a ∧ h.pool.get? a = some y ∧ y.descriptor = Containers.standard.array ∧
    (writtenAfter a past = false → y.payload = .items items)

/-- All instances are containers as they should be: payloads are of the kind that belongs to the
type, nobody writes them, the keys of a table are in order, and a sequence that is remembered lists
what it is to list. -/
structure Heap.Truthful (past : List Transition) (h : Heap) : Prop where
  sound : h.SoundPool
  stocked : h.registry.Stocked
  fits : ∀ id x, h.pool.get? id = some x → x.descriptor.content? = some x.payload.kind
  readable : ∀ id x, h.pool.get? id = some x → x.borrow.readable = true
  ordered : ∀ id x es, h.pool.get? id = some x → x.payload = .table es →
    es.map Prod.fst = insertedAfter id past
  listed : ∀ id x q items, h.pool.get? id = some x → x.sequence.current? = some q →
    x.payload.listing? = some items → h.Lists past q items

/-- `p'` can be written over `p`: it is of the same kind, and a table keeps its keys in their order
and gets at most one more. -/
structure Payload.Revises (p p' : Payload) : Prop where
  kind : p'.kind = p.kind
  keys : ∀ es es', p = .table es → p' = .table es' → es'.map Prod.fst = es.map Prod.fst ∨
    ∃ k, es'.map Prod.fst = es.map Prod.fst ++ [k]

/-- `y` is `x`, perhaps with other pins or properties, and perhaps with its sequence outdated. -/
structure Instance.Settles (x y : Instance) : Prop where
  descriptor : y.descriptor = x.descriptor
  payload : y.payload = x.payload
  readable : x.borrow.readable = true → y.borrow.readable = true
  current : ∀ q, y.sequence.current? = some q → x.sequence.current? = some q

namespace Instance.Settles

variable {x y z : Instance}

theorem refl (x : Instance) : x.Settles x := ⟨rfl, rfl, id, fun _ => id⟩

theorem trans (h : x.Settles y) (h' : y.Settles z) : x.Settles z where
  descriptor := h'.descriptor.trans h.descriptor
  payload := h'.payload.trans h.payload
  readable := h'.readable ∘ h.readable
  current q hq := h.current q (h'.current q hq)

theorem of_marks (m : x.Marks y) : x.Settles y where
  descriptor := m.descriptor
  payload := m.payload
  readable h := m.borrow ▸ h
  current _ hq := m.sequence ▸ hq

theorem of_unmark_eq (h : y.unmark = x.unmark) : x.Settles y := by
  have field : ∀ {β : Type} (f : Instance → β), f y.unmark = f x.unmark := fun f => congrArg f h
  have hborrow : y.borrow = x.borrow := field Instance.borrow
  have hsequence : y.sequence = x.sequence := field fun x => x.sequence
  refine ⟨field Instance.descriptor, field Instance.payload, fun hx => ?_, fun q hq => ?_⟩
  · rw [hborrow]
    exact hx
  · rw [← hsequence]
    exact hq

end Instance.Settles

theorem Change.settles {c : Change} (hwrite : ∀ p, c ≠ .write p) (hremember : ∀ q, c ≠ .remember q)
    (x : Instance) : x.Settles (c.apply x) := by
  cases c with
  | write p => exact absurd rfl (hwrite p)
  | remember q => exact absurd rfl (hremember q)
  | advanceCursor len =>
    show x.Settles (x.advance len).2
    unfold Instance.advance
    split <;> exact ⟨rfl, rfl, id, fun _ => id⟩
  | invalidateSequence =>
    refine ⟨rfl, rfl, id, fun q hq => ?_⟩
    have none : x.sequence.invalidate.current? = Option.none := by cases x.sequence <;> rfl
    cases none.symm.trans hq
  | _ => exact ⟨rfl, rfl, id, fun _ => id⟩

def Action.settled : {α : Type} → Action α → Bool
  | _, place .. | _, evict .. | _, install .. | _, startUse .write _ | _, change _ (.write _)
  | _, change _ (.remember _) => false
  | _, _ => true

def Action.installs : {α : Type} → Action α → Bool
  | _, install .. => true
  | _, _ => false

theorem Action.settled_of_harmless {α : Type} {a : Action α} (h : a.harmless = true) :
    a.settled = true := by
  cases a with
  | change v c => cases c <;> first | rfl | cases h
  | startUse | place | evict | install => cases h
  | _ => rfl

theorem Action.settled_of_brackets {α : Type} {a : Action α} (h : a.brackets = true) :
    a.settled = true := by
  cases a with
  | pushFrame | popFrame => rfl
  | startUse b id | stopUse b id =>
    cases b with
    | read => rfl
    | write => cases h
  | _ => cases h

theorem Action.quiet_of_settled {α : Type} {a : Action α} (h : a.settled = true) :
    a.quiet = true := by
  cases a with
  | change v c => cases c <;> first | rfl | cases h
  | place => cases h
  | _ => rfl

namespace Transition

variable {t : Transition}

theorem settles_effect (h : t.action.settled = true) (id : InstanceId) (x : Instance) :
    x.Settles (t.effect id x) := by
  obtain ⟨a, heap⟩ := t
  cases a with
  | change v c =>
    cases v with
    | ref other =>
      show x.Settles (if other = id then c.apply x else x)
      split
      · refine Change.settles (fun p hp => ?_) (fun q hq => ?_) x
        · subst hp
          cases h
        · subst hq
          cases h
      · exact .refl x
    | _ => exact .refl x
  | startUse a other =>
    cases a with
    | write => cases h
    | read =>
      show x.Settles (if other = id then _ else x)
      split
      · refine ⟨rfl, rfl, fun hx => ?_, fun _ hq => hq⟩
        show (Access.start .read x.borrow).readable = true
        cases hb : x.borrow with
        | shared n => rfl
        | exclusive =>
          rw [hb] at hx
          cases hx
      · exact .refl x
  | stopUse a other =>
    show x.Settles (if other = id then _ else x)
    split
    · refine ⟨rfl, rfl, fun hx => ?_, fun _ hq => hq⟩
      show (a.stop x.borrow).readable = true
      cases hb : x.borrow with
      | shared n => cases a <;> rfl
      | exclusive =>
        rw [hb] at hx
        cases hx
    · exact .refl x
  | startSweep => exact ⟨rfl, rfl, fun hx => hx, fun _ hq => hq⟩
  | _ => exact .refl x

theorem settles (h : t.action.settled = true) (sound : t.before.SoundPool) (id : InstanceId) :
    (∀ x, t.before.pool.get? id = some x → ∃ y, t.after.pool.get? id = some y ∧ x.Settles y) ∧
      ∀ y, t.after.pool.get? id = some y → ∃ x, t.before.pool.get? id = some x ∧ x.Settles y := by
  have kept : t.released? ≠ some id := by
    obtain ⟨a, heap⟩ := t
    cases a with
    | evict => cases h
    | _ => exact nofun
  have forward : ∀ x, t.before.pool.get? id = some x →
      ∃ y, t.after.pool.get? id = some y ∧ x.Settles y := by
    intro x hx
    obtain ⟨y, hy, m⟩ := t.effect_of_get? sound hx kept
    exact ⟨y, hy, (settles_effect h id x).trans (.of_marks m)⟩
  refine ⟨forward, fun y hy => ?_⟩
  rcases t.poolStep.came hy with hplaced | ⟨⟨x, hx⟩, _⟩
  · obtain ⟨a, heap⟩ := t
    cases a with
    | place => cases h
    | _ => cases hplaced
  · obtain ⟨z, hz, s⟩ := forward x hx
    cases hy.symm.trans hz
    exact ⟨x, hx, s⟩

theorem stocked_after (h : t.action.installs = false)
    (stocked : t.before.registry.Stocked) : t.after.registry.Stocked := by
  cases ht : t.action.typing with
  | false => exact (sameTypes ht).registry ▸ stocked
  | true =>
    obtain ⟨a, heap⟩ := t
    cases a with
    | install => cases h
    | register name tag base => exact stocked.register _ name tag base
    | _ => cases ht

end Transition

namespace Heap.Truthful

variable {h h' : Heap} {past past' : List Transition}

/-- Instances may go, but not the sequences of those that are left. -/
theorem of_settles (truth : h.Truthful past) (sound : h'.SoundPool) (stocked : h'.registry.Stocked)
    (came : ∀ id y, h'.pool.get? id = some y → ∃ x, h.pool.get? id = some x ∧ x.Settles y)
    (holds : ∀ id y a z, h'.pool.get? id = some y → y.sequence.current? = some (.ref a) →
      h.pool.get? a = some z → ∃ z', h'.pool.get? a = some z')
    (same : ∀ id, writtenAfter id past' = writtenAfter id past ∧
      insertedAfter id past' = insertedAfter id past) : h'.Truthful past' where
  sound := sound
  stocked := stocked
  fits id y hy := by
    obtain ⟨x, hx, s⟩ := came id y hy
    rw [s.descriptor, s.payload]
    exact truth.fits id x hx
  readable id y hy := by
    obtain ⟨x, hx, s⟩ := came id y hy
    exact s.readable (truth.readable id x hx)
  ordered id y es hy hes := by
    obtain ⟨x, hx, s⟩ := came id y hy
    rw [(same id).2]
    exact truth.ordered id x es hx (s.payload.symm.trans hes)
  listed id y q items hy hq hitems := by
    obtain ⟨x, hx, s⟩ := came id y hy
    obtain ⟨a, z, rfl, hz, hdescriptor, hpayload⟩ :=
      truth.listed id x q items hx (s.current q hq) (s.payload ▸ hitems)
    obtain ⟨z', hz'⟩ := holds id y a z hy hq hz
    obtain ⟨z₀, hz₀, sz⟩ := came a z' hz'
    cases hz.symm.trans hz₀
    refine ⟨a, z', rfl, hz', sz.descriptor.trans hdescriptor, fun unwritten => ?_⟩
    rw [sz.payload]
    exact hpayload ((same a).1.symm.trans unwritten)

theorem settled {t : Transition} (ht : t.action.settled = true) (truth : t.before.Truthful past) :
    t.after.Truthful (past ++ [t]) := by
  have installs : t.action.installs = false := by
    obtain ⟨a, heap⟩ := t
    cases a with
    | install => cases ht
    | _ => rfl
  refine truth.of_settles (t.soundPool truth.sound) (t.stocked_after installs truth.stocked)
    (fun id => (t.settles ht truth.sound id).2) (fun _ _ a z _ _ hz => ?_) fun id => ?_
  · obtain ⟨z', hz', _⟩ := (t.settles ht truth.sound a).1 z hz
    exact ⟨z', hz'⟩
  · exact past_append_of_quiet id past
      (List.forall_mem_singleton.mpr (Action.quiet_of_settled ht))

/-- A collection may take instances, but not what the header of one that is left holds. -/
theorem sift {ts : List Transition} (truth : h.Truthful past) (p : Path h ts h')
    (sifts : h.Sifts h') (quiet : ∀ t ∈ ts, t.action.quiet = true) : h'.Truthful (past ++ ts) := by
  refine truth.of_settles (p.soundPool truth.sound)
    (sifts.registry ▸ truth.stocked) (fun id y hy => ?_) (fun id y a z hy hq hz => ?_)
    fun id => past_append_of_quiet id past quiet
  · obtain ⟨x, hx, same⟩ := sifts.came id y hy
    exact ⟨x, hx, .of_unmark_eq same⟩
  · refine sifts.holds id y hy a z ?_ hz
    have held : y.sequence.held? = some (.ref a) := by
      unfold SequenceCache.current? at hq
      split at hq
      · next heq =>
        rw [heq]
        exact hq
      · cases hq
    unfold Instance.children
    rw [held]
    exact List.mem_append_left _ (List.mem_append_left _ List.mem_cons_self)

theorem place {d : Descriptor} {p : Payload} (truth : h.Truthful past)
    (fits : d.content? = some p.kind) :
    (h.place d p).2.Truthful (past ++ [⟨.place d p, h⟩]) := by
  let t : Transition := ⟨.place d p, h⟩
  have new : ∀ {id x}, h.pool.get? id = some x → (h.place d p).1 ≠ id :=
    fun hx => (truth.sound.sound.ne_place hx d p).symm
  have came : ∀ {id y}, (h.place d p).2.pool.get? id = some y →
      ((h.place d p).1 = id ∧ Instance.Marks { descriptor := d, payload := p } y) ∨
        ∃ x, h.pool.get? id = some x ∧ x.Settles y := by
    intro id y hy
    rcases t.poolStep.came hy with hplaced | ⟨⟨x, hx⟩, _⟩
    · have hid : (h.place d p).1 = id := Option.some.inj hplaced
      obtain ⟨z, hz, m⟩ := Heap.get?_place_self truth.sound d p
      rw [hid] at hz
      cases hy.symm.trans hz
      exact .inl ⟨hid, m⟩
    · obtain ⟨z, hz, m⟩ := Heap.get?_place truth.sound d p hx
      cases hy.symm.trans hz
      exact .inr ⟨x, hx, .of_marks m⟩
  refine ⟨t.soundPool truth.sound, t.stocked_after rfl truth.stocked, fun id y hy => ?_,
    fun id y hy => ?_, fun id y es hy hes => ?_, fun id y q items hy hq hitems => ?_⟩
  · rcases came hy with ⟨_, m⟩ | ⟨x, hx, s⟩
    · rw [m.descriptor, m.payload]
      exact fits
    · rw [s.descriptor, s.payload]
      exact truth.fits id x hx
  · rcases came hy with ⟨_, m⟩ | ⟨x, hx, s⟩
    · rw [m.borrow]
      rfl
    · exact s.readable (truth.readable id x hx)
  · rw [insertedAfter_concat]
    rcases came hy with ⟨hid, m⟩ | ⟨x, hx, s⟩
    · have hp : p = .table es := m.payload.symm.trans hes
      subst hp
      exact (if_pos hid).symm
    · rw [truth.ordered id x es hx (s.payload.symm.trans hes)]
      cases p with
      | table es => exact (if_neg (new hx)).symm
      | _ => rfl
  · rcases came hy with ⟨_, m⟩ | ⟨x, hx, s⟩
    · rw [m.sequence] at hq
      cases hq
    · obtain ⟨a, z, rfl, hz, hdescriptor, hpayload⟩ :=
        truth.listed id x q items hx (s.current q hq) (s.payload ▸ hitems)
      obtain ⟨z', hz', m⟩ := Heap.get?_place truth.sound d p hz
      refine ⟨a, z', rfl, hz', m.descriptor.trans hdescriptor, fun unwritten => ?_⟩
      rw [writtenAfter_concat] at unwritten
      have hne : ((h.place d p).1 != a) = true := bne_iff_ne.mpr (new hz)
      have unwritten : (writtenAfter a past && ((h.place d p).1 != a)) = false := unwritten
      rw [hne, Bool.and_true] at unwritten
      rw [m.payload]
      exact hpayload unwritten

theorem write {id : InstanceId} {x : Instance} {p : Payload} (truth : h.Truthful past)
    (hx : h.pool.get? id = some x) (revises : x.payload.Revises p) :
    ((h.change (.ref id) (.write p)).change (.ref id) .invalidateSequence).Truthful
      (past ++ [⟨.change (.ref id) (.write p), h⟩,
        ⟨.change (.ref id) .invalidateSequence, h.change (.ref id) (.write p)⟩]) := by
  let t : Transition := ⟨.change (.ref id) (.write p), h⟩
  let u : Transition := ⟨.change (.ref id) .invalidateSequence, t.after⟩
  have hself : u.after.pool.get? id = some { x with
      payload := p, sequence := x.sequence.invalidate } :=
    Heap.get?_modify_self _ (Heap.get?_modify_self _ hx)
  have hother : ∀ {other}, other ≠ id → u.after.pool.get? other = h.pool.get? other :=
    fun hne => (Heap.get?_modify_of_ne _ hne).trans (Heap.get?_modify_of_ne _ hne)
  have hpast : past ++ [t, u] = past ++ [t] ++ [u] := List.append_cons ..
  have quiet : ∀ v ∈ [u], v.action.quiet = true := List.forall_mem_singleton.mpr rfl
  have stocked : t.after.registry.Stocked := t.stocked_after rfl truth.stocked
  refine ⟨u.soundPool (t.soundPool truth.sound), u.stocked_after rfl stocked,
    fun other y hy => ?_, fun other y hy => ?_, fun other y es hy hes => ?_,
    fun other y q items hy hq hitems => ?_⟩
  · by_cases hid : other = id
    · subst hid
      cases hself.symm.trans hy
      show x.descriptor.content? = some p.kind
      rw [revises.kind]
      exact truth.fits other x hx
    · exact truth.fits other y ((hother hid).symm.trans hy)
  · by_cases hid : other = id
    · subst hid
      cases hself.symm.trans hy
      exact truth.readable other x hx
    · exact truth.readable other y ((hother hid).symm.trans hy)
  · show _ = insertedAfter other (past ++ [t, u])
    rw [hpast, (past_append_of_quiet other (past ++ [t]) quiet).2, insertedAfter_concat]
    by_cases hid : other = id
    · subst hid
      cases hself.symm.trans hy
      have hp : p = .table es := hes
      have hkind := revises.kind
      rw [hp] at hkind
      obtain ⟨es₀, hes₀⟩ : ∃ es₀, x.payload = .table es₀ := by
        cases hpayload : x.payload with
        | table es₀ => exact ⟨es₀, rfl⟩
        | _ =>
          rw [hpayload] at hkind
          cases hkind
      have hkeys : t.inserted other (insertedAfter other past) =
          insertedAfter other past ++ (es.map Prod.fst).drop (insertedAfter other past).length := by
        subst hp
        exact if_pos rfl
      rw [hkeys, ← truth.ordered other x es₀ hx hes₀]
      rcases revises.keys es₀ es hes₀ hp with same | ⟨k, more⟩
      · rw [same, List.drop_length, List.append_nil]
      · rw [more, List.drop_left]
    · rw [truth.ordered other y es ((hother hid).symm.trans hy) hes]
      have hne : ¬ id = other := fun heq => hid heq.symm
      cases p with
      | table es' => exact (if_neg hne).symm
      | _ => rfl
  · by_cases hid : other = id
    · subst hid
      cases hself.symm.trans hy
      have none : x.sequence.invalidate.current? = Option.none := by cases x.sequence <;> rfl
      cases none.symm.trans hq
    · obtain ⟨a, z, rfl, hz, hdescriptor, hpayload⟩ :=
        truth.listed other y q items ((hother hid).symm.trans hy) hq hitems
      show Heap.Lists _ (past ++ [t, u]) _ _
      rw [hpast]
      have hwritten : writtenAfter a (past ++ [t] ++ [u]) = (writtenAfter a past || id == a) := by
        rw [(past_append_of_quiet a (past ++ [t]) quiet).1, writtenAfter_concat]
        rfl
      by_cases ha : a = id
      · -- the array itself is written, so nothing is asked of it any more
        subst ha
        cases hx.symm.trans hz
        refine ⟨a, _, rfl, hself, hdescriptor, fun unwritten => ?_⟩
        rw [hwritten, beq_self_eq_true, Bool.or_true] at unwritten
        cases unwritten
      · refine ⟨a, z, rfl, (hother ha).trans hz, hdescriptor, fun unwritten => hpayload ?_⟩
        rw [hwritten, Bool.or_eq_false_iff] at unwritten
        exact unwritten.1

theorem remember {id : InstanceId} {x : Instance} {q : Value} (truth : h.Truthful past)
    (hx : h.pool.get? id = some x)
    (lists : ∀ items, x.payload.listing? = some items → h.Lists past q items) :
    (h.change (.ref id) (.remember q)).Truthful
      (past ++ [⟨.change (.ref id) (.remember q), h⟩]) := by
  let t : Transition := ⟨.change (.ref id) (.remember q), h⟩
  have hself : t.after.pool.get? id = some { x with sequence := .current q } :=
    Heap.get?_modify_self _ hx
  have hother : ∀ {other}, other ≠ id → t.after.pool.get? other = h.pool.get? other :=
    fun hne => Heap.get?_modify_of_ne _ hne
  have past_same : ∀ other, writtenAfter other (past ++ [t]) = writtenAfter other past ∧
      insertedAfter other (past ++ [t]) = insertedAfter other past :=
    fun other => past_append_of_quiet other past (List.forall_mem_singleton.mpr rfl)
  -- the arrays are as before, apart from what is remembered for them
  have keeps : ∀ {q' items}, h.Lists past q' items → t.after.Lists (past ++ [t]) q' items := by
    rintro q' items ⟨a, z, rfl, hz, hdescriptor, hpayload⟩
    have kept := hpayload ∘ (past_same a).1.symm.trans
    by_cases ha : a = id
    · subst ha
      cases hx.symm.trans hz
      exact ⟨a, _, rfl, hself, hdescriptor, kept⟩
    · exact ⟨a, z, rfl, (hother ha).trans hz, hdescriptor, kept⟩
  refine ⟨t.soundPool truth.sound, t.stocked_after rfl truth.stocked, fun other y hy => ?_,
    fun other y hy => ?_, fun other y es hy hes => ?_, fun other y q' items hy hq hitems => ?_⟩
  · by_cases hid : other = id
    · subst hid
      cases hself.symm.trans hy
      exact truth.fits other x hx
    · exact truth.fits other y ((hother hid).symm.trans hy)
  · by_cases hid : other = id
    · subst hid
      cases hself.symm.trans hy
      exact truth.readable other x hx
    · exact truth.readable other y ((hother hid).symm.trans hy)
  · refine Eq.trans ?_ (past_same other).2.symm
    by_cases hid : other = id
    · subst hid
      cases hself.symm.trans hy
      exact truth.ordered other x es hx hes
    · exact truth.ordered other y es ((hother hid).symm.trans hy) hes
  · by_cases hid : other = id
    · subst hid
      cases hself.symm.trans hy
      cases hq
      exact keeps (lists items hitems)
    · exact keeps (truth.listed other y q' items ((hother hid).symm.trans hy) hq hitems)

end Heap.Truthful

end TracedHeap
