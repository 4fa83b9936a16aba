import TracedHeap.Proofs.Equality
import TracedHeap.Proofs.PoolInvariant

/-!
# Tables are finite maps

A table is a list of entries that is searched from the front, with the key of an entry as the first
of the two values compared.  As to be equal is an equivalence, and as a table is equal to itself only,
so that a write to it does not change any comparison, tables obey the laws of finite maps, with keys
told apart by `equal`.

* `lookupKey`, `insertKey`     what `get` and `set` do with the entries;
* `lookupKey_insertKey`        the law of finite maps, for any equivalence of keys;
* `exec_setItem`, `exec_getItem`
                         that is what `get` and `set` do;
* `Filled`               a table filled from the empty one, while its keys stay as they are;
* `tables_are_maps`      the laws of tables, and the keys of filled tables;
* `equal_keys_of_rewritten_string`
                         keys become equal when a string among them is written.
-/

namespace TracedHeap

open Run

/-! ## Entries -/

section
variable (eq : Value → Value → Bool)

def lookupKey (key : Value) : List (Value × Value) → Value
  | [] => .undefined
  | (k, x) :: rest => if eq k key then x else lookupKey key rest

def insertKey (key item : Value) : List (Value × Value) → List (Value × Value)
  | [] => [(key, item)]
  | (k, x) :: rest => if eq k key then (k, item) :: rest else (k, x) :: insertKey key item rest

variable {eq}

/-- A value that is set is found under the keys that are equal to its own; under other keys the same
is found as before. -/
theorem lookupKey_insertKey (equivalence : Equivalence fun a b => eq a b = true)
    (key item other : Value) (es : List (Value × Value)) :
    lookupKey eq other (insertKey eq key item es) =
      if eq key other then item else lookupKey eq other es := by
  induction es with
  | nil => rfl
  | cons e rest ih =>
    obtain ⟨k, x⟩ := e
    unfold insertKey
    by_cases hk : eq k key = true
    · -- the key of the entry and the key that is set are equal to the same keys
      have hsame : eq k other = eq key other := by
        rw [Bool.eq_iff_iff]
        exact ⟨fun h => equivalence.trans (equivalence.symm hk) h, fun h => equivalence.trans hk h⟩
      rw [if_pos hk]
      unfold lookupKey
      rw [hsame]
      split <;> rfl
    · rw [if_neg hk]
      unfold lookupKey
      rw [ih]
      by_cases hother : eq k other = true
      · have hno : eq key other ≠ true := fun h =>
          hk (equivalence.trans hother (equivalence.symm h))
        rw [if_pos hother, if_neg hno, if_pos hother]
      · rw [if_neg hother, if_neg hother]

/-- The keys stay in their order, and a new one comes to the end if none is equal to it. -/
theorem keys_insertKey (key item : Value) (es : List (Value × Value)) :
    (insertKey eq key item es).map Prod.fst =
      if ∃ k ∈ es.map Prod.fst, eq k key = true then es.map Prod.fst
      else es.map Prod.fst ++ [key] := by
  induction es with
  | nil => simp [insertKey]
  | cons e rest ih =>
    obtain ⟨k, x⟩ := e
    unfold insertKey
    by_cases hk : eq k key = true
    · rw [if_pos hk, if_pos ⟨k, List.mem_cons_self, hk⟩]
      rfl
    · rw [if_neg hk, List.map_cons, ih]
      have hiff : (∃ k' ∈ k :: rest.map Prod.fst, eq k' key = true) ↔
          ∃ k' ∈ rest.map Prod.fst, eq k' key = true := by
        simp only [List.mem_cons, exists_eq_or_imp, or_iff_right hk]
      rw [List.map_cons]
      by_cases hrest : ∃ k' ∈ rest.map Prod.fst, eq k' key = true
      · rw [if_pos hrest, if_pos (hiff.mpr hrest)]
      · rw [if_neg hrest, if_neg (mt hiff.mp hrest)]
        rfl

theorem lookupKey_eq_findIdx? (key : Value) (es : List (Value × Value)) :
    lookupKey eq key es = ((es.findIdx? fun e => eq e.1 key).bind fun n =>
      (es[n]?).map Prod.snd).getD .undefined := by
  induction es with
  | nil => rfl
  | cons e rest ih =>
    obtain ⟨k, x⟩ := e
    unfold lookupKey
    rw [List.findIdx?_cons, ih]
    by_cases hk : eq k key = true
    · rw [if_pos hk, if_pos hk]
      rfl
    · rw [if_neg hk, if_neg hk]
      cases rest.findIdx? fun e => eq e.1 key <;> rfl

theorem putEntry_cons_succ (e : Value × Value) (es : List (Value × Value)) (found : Option Nat)
    (key item : Value) :
    putEntry (e :: es) (found.map (· + 1)) key item = e :: putEntry es found key item := by
  unfold putEntry
  cases found with
  | none => rfl
  | some n =>
    simp only [Option.map_some, Option.bind_some, List.getElem?_cons_succ]
    cases es[n]? <;> rfl

theorem putEntry_eq_insertKey (key item : Value) (es : List (Value × Value)) :
    putEntry es (es.findIdx? fun e => eq e.1 key) key item = insertKey eq key item es := by
  induction es with
  | nil => rfl
  | cons e rest ih =>
    obtain ⟨k, x⟩ := e
    unfold insertKey
    rw [List.findIdx?_cons]
    by_cases hk : eq k key = true
    · rw [if_pos hk, if_pos hk]
      rfl
    · rw [if_neg hk, if_neg hk, putEntry_cons_succ, ih]

end

/-! ## A heap after a table is written -/

theorem Pool.Edited.length_instances {p q : Pool} (e : p.Edited q) :
    q.instances.length = p.instances.length := by
  have hsome : q.slots.toList.map (fun s => s.occupant.isSome) =
      p.slots.toList.map fun s => s.occupant.isSome := by
    refine List.ext_getElem? fun i => ?_
    rw [List.getElem?_map, List.getElem?_map, Array.getElem?_toList, Array.getElem?_toList]
    cases hs : p.slots[i]? with
    | none =>
      have hlen := Array.getElem?_eq_none_iff.mp hs
      rw [Array.getElem?_eq_none_iff.mpr (by rw [e.size]; exact hlen)]
    | some s =>
      obtain ⟨t, ht, hst⟩ := e.slots hs
      have ho := hst.occupant
      rw [ht]
      cases hso : s.occupant <;> cases hto : t.occupant <;> rw [hso, hto] at ho <;> cases ho <;>
        simp [hso, hto]
  have hcount : ∀ l : List Slot, (l.countP fun s => s.occupant.isSome) =
      (l.map fun s => s.occupant.isSome).countP id := by
    intro l
    rw [List.countP_map]
    rfl
  rw [Pool.length_instances, Pool.length_instances, hcount, hcount, hsome]

namespace Heap

/-- The heap after the entries of a table are written; the sequence remembered for the table no longer
counts. -/
def putEntries (h : Heap) (t : InstanceId) (es : List (Value × Value)) : Heap :=
  (h.change (.ref t) (.write (.table es))).change (.ref t) .invalidateSequence

variable {h : Heap} {t id : InstanceId} {x y : Instance} {es : List (Value × Value)}

theorem get?_putEntries_self (hx : h.pool.get? t = some x) (es : List (Value × Value)) :
    (h.putEntries t es).pool.get? t =
      some { x with payload := .table es, sequence := x.sequence.invalidate } :=
  get?_modify_self (Change.apply .invalidateSequence)
    (get?_modify_self (Change.apply (.write (.table es))) hx)

theorem get?_putEntries_of_ne (es : List (Value × Value)) (hne : id ≠ t) :
    (h.putEntries t es).pool.get? id = h.pool.get? id :=
  (get?_modify_of_ne _ hne).trans (get?_modify_of_ne _ hne)

theorem length_instances_putEntries (h : Heap) (t : InstanceId) (es : List (Value × Value)) :
    (h.putEntries t es).pool.instances.length = h.pool.instances.length :=
  ((edited_modify _ _ (Change.edited _)).length_instances).trans
    (edited_modify _ _ (Change.edited _)).length_instances

theorem is_putEntries (hx : h.pool.get? t = some x) {es₀ : List (Value × Value)}
    (hp : x.payload = .table es₀) (es : List (Value × Value)) {v : Value} {d : Descriptor}
    {p : Payload} (plain : ∀ es, p ≠ .table es) : (h.putEntries t es).Is v d p ↔ h.Is v d p := by
  cases v with
  | ref id =>
    by_cases hid : id = t
    · subst hid
      constructor
      · intro hv
        have hself := is_of_get? (get?_putEntries_self hx es)
        exact absurd (hself.unique hv).2 (plain es)
      · intro hv
        exact absurd ((is_of_get? hx).unique hv).2 (hp ▸ plain es₀)
    · unfold Is
      show (∃ y, (h.putEntries t es).pool.get? id = some y ∧ _) ↔ ∃ y, h.pool.get? id = some y ∧ _
      rw [get?_putEntries_of_ne es hid]
  | _ =>
    constructor <;>
    · rintro ⟨_, hv, _⟩
      cases hv

theorem bisimilar_putEntries {c : Containers} (hx : h.pool.get? t = some x)
    {es₀ : List (Value × Value)} (hp : x.payload = .table es₀) (es : List (Value × Value)) :
    (h.putEntries t es).Bisimilar c = h.Bisimilar c := by
  have texts : ∀ {v s}, (h.putEntries t es).Is v c.string (.text s) ↔ h.Is v c.string (.text s) :=
    is_putEntries hx hp es (fun _ => Payload.noConfusion)
  have items : ∀ {v d xs}, (h.putEntries t es).Is v d (.items xs) ↔ h.Is v d (.items xs) :=
    is_putEntries hx hp es (fun _ => Payload.noConfusion)
  funext v u
  refine propext ⟨fun b => ?_, fun b => ?_⟩
  · exact b.transfer (K := fun _ => True) (fun _ _ _ => texts.mp)
      (fun _ _ _ _ _ hv => ⟨items.mp hv, fun _ _ => trivial⟩) trivial trivial
  · exact b.transfer (K := fun _ => True) (fun _ _ _ => texts.mpr)
      (fun _ _ _ _ _ hv => ⟨items.mpr hv, fun _ _ => trivial⟩) trivial trivial

end Heap

/-! ## Operations on tables -/

open Classical in
/-- Whether two values are bisimilar. -/
noncomputable def Heap.same (c : Containers) (h : Heap) (v u : Value) : Bool :=
  decide (h.Bisimilar c v u)

theorem Heap.same_iff {c : Containers} {h : Heap} {v u : Value} :
    h.same c v u = true ↔ h.Bisimilar c v u := by
  simp [same]

theorem Heap.same_eq_false_iff {c : Containers} {h : Heap} {v u : Value} :
    h.same c v u = false ↔ ¬ h.Bisimilar c v u := by
  simp [same]

theorem Heap.equivalence_same (c : Containers) (h : Heap) :
    Equivalence fun v u => h.same c v u = true := by
  simp only [same_iff]
  exact Bisimilar.equivalence c h

/-- A heap of containers none of which is in use, with tables as they are registered; no comparison
goes on, and callbacks may run deep enough to compare any two values inside an operation. -/
structure World.Ready (c : Containers) (n : Nat) (w : World) : Prop where
  contained : w.heap.Contained c
  get : w.heap.registry.callback? c.table .get = some (.routine .tableGet)
  set : w.heap.registry.callback? c.table .set = some (.routine .tableSet)
  unused : ∀ id x, w.heap.pool.get? id = some x → x.borrow = .shared 0
  idle : w.comparing = []
  deep : w.heap.pool.instances.length * w.heap.pool.instances.length + 1 < n

section
variable {c : Containers} {n m : Nat} {w : World} {t : InstanceId} {x : Instance}
  {es : List (Value × Value)}

theorem World.Ready.exec_equal (ready : w.Ready c n) (hm : n ≤ m + 1) (v u : Value) :
    (equal (.ofDepth m) v u).exec w = (.ok (w.heap.same c v u), w) := by
  have deep := ready.deep
  obtain ⟨b, hexec, hb⟩ := TracedHeap.exec_equal (n := m) ready.contained ready.idle
    (by omega) v u
  rw [hexec, Bool.eq_iff_iff.mpr (hb.trans Heap.same_iff.symm)]

theorem exec_findKey {r : Runner} {eq : Value → Value → Bool} {key : Value}
    (hequal : ∀ v, (equal r v key).exec w = (.ok (eq v key), w)) (es : List (Value × Value)) :
    (findKey r key es).exec w = (.ok (es.findIdx? fun e => eq e.1 key), w) := by
  induction es with
  | nil => rfl
  | cons e rest ih =>
    obtain ⟨k, x⟩ := e
    have hbind := (bind_of_ok (hequal k) fun b => if b = true then pure (some 0)
      else findKey r key rest >>= fun found => pure (found.map (· + 1))).1
    rw [List.findIdx?_cons]
    cases hk : eq k key with
    | true =>
      rw [hk] at hbind
      exact hbind
    | false =>
      rw [hk] at hbind
      exact hbind.trans (bind_of_ok ih fun found => pure (found.map (· + 1))).1

theorem World.Ready.read (ready : w.Ready c n) (hx : w.heap.pool.get? t = some x)
    (hp : x.payload = .table es) : w.heap.read (.ref t) .table = .ok es :=
  ready.contained.read_eq_ok hx hp

/-- What `get` finds in a table. -/
theorem exec_getItem (ready : w.Ready c n) (hx : w.heap.pool.get? t = some x)
    (hd : x.descriptor = c.table) (hp : x.payload = .table es) (key : Value) :
    (getItem (.ofDepth n) (.ref t) key).run.exec w =
      (.ok (.ok (lookupKey (w.heap.same c) key es)), w) := by
  obtain ⟨m, rfl⟩ := Nat.exists_eq_succ_of_ne_zero (Nat.ne_zero_of_lt ready.deep)
  have hcallback : w.heap.callback .get (.ref t) = .ok (some (.routine .tableGet)) := by
    rw [Heap.callback_of_get? hx, hd, ready.get]
  have hsearch := exec_findKey (fun v => ready.exec_equal (Nat.le_refl _) v key) es
  unfold getItem
  rw [(ask_bind_of_ok hcallback _).1]
  simp only [Attempt.exec_ofRun]
  rw [(run_ofDepth_succ m (.routine .tableGet) (.ref t, key) w).1]
  show (tableGet (.ofDepth m) (.ref t) key).run.exec w = _
  unfold tableGet
  rw [(ask_bind_of_ok (f := fun h => h.read (.ref t) .table) (ready.read hx hp) _).1,
    Attempt.exec_bind, Attempt.exec_lift, hsearch, lookupKey_eq_findIdx?]
  simp only
  cases es.findIdx? fun e => w.heap.same c e.1 key <;> rfl

theorem exec_writePayload {k : Kind} {content content' : k.Content}
    {f : k.Content → Except Error k.Content} (hx : w.heap.pool.get? t = some x)
    (hw : x.borrow.writable = true) (hp : x.payload = .of k content)
    (hf : f content = .ok content') :
    (writePayload (.ref t) k f).run.exec w =
      (.ok (.ok ()), { w with heap := w.heap.change (.ref t) (.write (.of k content')) }) := by
  have hcontent : w.heap.content .write (.ref t) k = .ok (t, content) := by
    unfold Heap.content
    rw [Heap.find_of_get? hx]
    show (if x.borrow.writable = true then _ else _) = _
    rw [if_pos hw, hp, Payload.as?_of]
  rcases writePayload_cases (.ref t) k f w with ⟨e, hexec, _⟩ | ⟨id, a, a', ha, hfa, hexec, _⟩
  · unfold writePayload at hexec
    rw [Attempt.exec_bind, Attempt.exec_ask] at hexec
    simp only [hcontent, hf, bind, Except.bind] at hexec
    cases hexec
  · rw [hcontent] at ha
    cases ha
    rw [hf] at hfa
    cases hfa
    exact hexec

theorem exec_setItem (ready : w.Ready c n) (hx : w.heap.pool.get? t = some x)
    (hd : x.descriptor = c.table) (hp : x.payload = .table es) (key item : Value) :
    (setItem (.ofDepth n) (.ref t) key item).run.exec w =
      (.ok (.ok true), { w with
        heap := w.heap.putEntries t (insertKey (w.heap.same c) key item es) }) := by
  obtain ⟨m, rfl⟩ := Nat.exists_eq_succ_of_ne_zero (Nat.ne_zero_of_lt ready.deep)
  have hcallback : w.heap.callback .set (.ref t) = .ok (some (.routine .tableSet)) := by
    rw [Heap.callback_of_get? hx, hd, ready.set]
  have hsearch := exec_findKey (fun v => ready.exec_equal (Nat.le_refl _) v key) es
  have hwritable : x.borrow.writable = true := by
    rw [ready.unused t x hx]
    rfl
  let written := w.heap.change (.ref t)
    (.write (.table (insertKey (w.heap.same c) key item es)))
  have hput : (Runner.run (.ofDepth (m + 1)) .set (.routine .tableSet) (.ref t, key, item)).exec w =
      (.ok (.ok ()), { w with heap := written }) := by
    rw [(run_ofDepth_succ m (.routine .tableSet) (.ref t, key, item) w).1]
    show (tableSet (.ofDepth m) (.ref t) key item).run.exec w = _
    unfold tableSet
    rw [(ask_bind_of_ok (f := fun h => h.read (.ref t) .table) (ready.read hx hp) _).1,
      Attempt.exec_bind, Attempt.exec_lift, hsearch]
    simp only [written]
    rw [← putEntry_eq_insertKey]
    exact exec_writePayload (k := .table) hx hwritable hp rfl
  have hchange := (exec_change_of_get? (w := { w with heap := written })
    (Heap.get?_modify_self _ hx) .invalidateSequence).1
  unfold setItem
  rw [(ask_bind_of_ok hcallback _).1]
  simp only [Attempt.exec_bind, Attempt.exec_ofRun, hput, hchange]
  rfl

theorem World.Ready.putEntries (ready : w.Ready c n) (hx : w.heap.pool.get? t = some x)
    (hd : x.descriptor = c.table) (es : List (Value × Value)) :
    ({ w with heap := w.heap.putEntries t es } : World).Ready c n := by
  have each : ∀ {P : Instance → Prop}, (∀ id y, w.heap.pool.get? id = some y → P y) →
      P { x with payload := .table es, sequence := x.sequence.invalidate } →
      ∀ id y, (w.heap.putEntries t es).pool.get? id = some y → P y := by
    intro P hP hself id y hy
    by_cases hid : id = t
    · subst hid
      rw [Heap.get?_putEntries_self hx] at hy
      cases hy
      exact hself
    · rw [Heap.get?_putEntries_of_ne es hid] at hy
      exact hP id y hy
  refine ⟨⟨ready.contained.array, ready.contained.list, ready.contained.string,
    ready.contained.table, ready.contained.quotation, ?_, ?_⟩, ready.get, ready.set, ?_, ready.idle,
    ?_⟩
  · exact each ready.contained.fits (decide_eq_true hd)
  · exact each ready.contained.readable (ready.contained.readable t x hx)
  · exact each ready.unused (ready.unused t x hx)
  · show (w.heap.putEntries t es).pool.instances.length * _ + 1 < n
    rw [Heap.length_instances_putEntries]
    exact ready.deep

end

/-! ## Tables that are filled -/

/-- What a value is or holds, at any depth of arrays and lists. -/
inductive Heap.Within (c : Containers) (h : Heap) (v : Value) : Value → Prop where
  | self : Within c h v v
  | item {u x : Value} {d : Descriptor} {xs : List Value} : Within c h v u →
      d = c.array ∨ d = c.list → h.Is u d (.items xs) → x ∈ xs → Within c h v x

/-- From `h` to `h'` the value stays as it is.  Every reference that it is or holds, at any depth,
stands for an instance before and after, of the same type, and a string, an array or a list has the
same payload. -/
def Heap.Keeps (c : Containers) (h h' : Heap) (v : Value) : Prop :=
  ∀ id, h.Within c v (.ref id) → ∃ x y, h.pool.get? id = some x ∧ h'.pool.get? id = some y ∧
    y.descriptor = x.descriptor ∧
    (x.descriptor = c.string ∨ x.descriptor = c.array ∨ x.descriptor = c.list →
      y.payload = x.payload)

section
variable {c : Containers} {h h' : Heap} {u v a : Value}

theorem Heap.Keeps.is_before (keeps : h.Keeps c h' v) (within : h.Within c v a) {d : Descriptor}
    {p : Payload} (hd : d = c.string ∨ d = c.array ∨ d = c.list) (ha : h'.Is a d p) :
    h.Is a d p := by
  obtain ⟨id, y, rfl, hy, hyd, hyp⟩ := ha.exists_get?
  obtain ⟨x, z, hx, hz, hdescriptor, hpayload⟩ := keeps id within
  rw [hy] at hz
  cases hz
  have hxd : x.descriptor = d := hdescriptor.symm.trans hyd
  exact ⟨x, hx, hxd, (hpayload (hxd ▸ hd)).symm.trans hyp⟩

/-- Values that stay as they are do not become bisimilar. -/
theorem Heap.Bisimilar.of_keeps (hv : h.Keeps c h' v) (hu : h.Keeps c h' u)
    (b : h'.Bisimilar c v u) : h.Bisimilar c v u := by
  have before : ∀ {a d p}, h.Within c v a ∨ h.Within c u a →
      d = c.string ∨ d = c.array ∨ d = c.list → h'.Is a d p → h.Is a d p := by
    rintro a d p (within | within) hd ha
    · exact hv.is_before within hd ha
    · exact hu.is_before within hd ha
  refine b.transfer (K := fun a => h.Within c v a ∨ h.Within c u a) ?_ ?_ (Or.inl .self)
    (Or.inr .self)
  · exact fun a s within ha => before within (Or.inl rfl) ha
  · intro a d xs within hd ha
    have ha' := before within (Or.inr hd) ha
    exact ⟨ha', fun x hx => within.imp (.item · hd ha' hx) (.item · hd ha' hx)⟩

end

/-- The table was empty once, and since then it was written by `set` only.  In between anything may
have happened that left it as it was, and what its keys are or hold. -/
inductive Filled (c : Containers) (n : Nat) (t : InstanceId) : World → Prop where
  | empty {w : World} {x : Instance} : w.Ready c n → w.heap.pool.get? t = some x →
      x.descriptor = c.table → x.payload = .table [] → Filled c n t w
  | set {w w' : World} (key item : Value) : Filled c n t w →
      (setItem (.ofDepth n) (.ref t) key item).run.exec w = (.ok (.ok true), w') → Filled c n t w'
  | meanwhile {w w' : World} {x y : Instance} {es : List (Value × Value)} : Filled c n t w →
      w'.Ready c n → w.heap.pool.get? t = some x → w'.heap.pool.get? t = some y →
      y.descriptor = x.descriptor → x.payload = .table es → y.payload = .table es →
      (∀ e ∈ es, w.heap.Keeps c w'.heap e.1) → Filled c n t w'

section
variable {c : Containers} {n : Nat} {w : World} {t : InstanceId}

/-- The keys of a table that is filled are not bisimilar.  A key that is set is compared with all
others; a key that is there already stays as it is. -/
theorem Filled.distinct (filled : Filled c n t w) :
    w.Ready c n ∧ ∃ x es, w.heap.pool.get? t = some x ∧ x.descriptor = c.table ∧
      x.payload = .table es ∧
      (es.map Prod.fst).Pairwise fun k k' => ¬ w.heap.Bisimilar c k k' := by
  induction filled with
  | empty ready hx hd hp => exact ⟨ready, _, [], hx, hd, hp, .nil⟩
  | @set w w' key item _ hexec ih =>
    obtain ⟨ready, x, es, hx, hd, hp, distinct⟩ := ih
    rw [exec_setItem ready hx hd hp] at hexec
    cases hexec
    refine ⟨ready.putEntries hx hd _, _, _, Heap.get?_putEntries_self hx _, hd, rfl, ?_⟩
    show List.Pairwise (fun k k' => ¬ (w.heap.putEntries t _).Bisimilar c k k') _
    rw [Heap.bisimilar_putEntries hx hp, keys_insertKey]
    split
    · exact distinct
    · next fresh =>
      refine List.pairwise_append.mpr ⟨distinct, List.pairwise_singleton _ _, ?_⟩
      intro k hk k' hk' bisimilar
      cases List.mem_singleton.mp hk'
      exact fresh ⟨k, hk, Heap.same_iff.mpr bisimilar⟩
  | @meanwhile w w' x y es _ ready hx hy hyd hp hyp keeps ih =>
    obtain ⟨_, x', es', hx', hd, hp', distinct⟩ := ih
    rw [hx] at hx'
    cases hx'
    rw [hp] at hp'
    cases hp'
    refine ⟨ready, y, es, hy, hyd.trans hd, hyp, distinct.imp_of_mem fun {k k'} hk hk' hne => ?_⟩
    obtain ⟨e, he, rfl⟩ := List.mem_map.mp hk
    obtain ⟨e', he', rfl⟩ := List.mem_map.mp hk'
    exact fun bisimilar => hne (bisimilar.of_keeps (keeps e he) (keeps e' he'))

end

/-- Tables are finite maps, with keys told apart by `equal`.

On a heap of containers none of which is in use, `set` on a table succeeds, for any key and any
value.  After that, `get` gives the value under every key that is equal to the one that was set, and
under every other key what it gave before; comparisons give the same as before.  The old keys stay
in their order, and the key that was set comes to the end if no old key was equal to it, and not
otherwise.  All other instances are as before.

Therefore no two keys are equal in a table that was filled by `set` from the empty one, if its keys,
and what they hold at any depth, are no references to nothing and their strings, arrays and lists
are not written meanwhile. -/
theorem tables_are_maps (c : Containers) (n : Nat) :
    (∀ (w : World) (t : InstanceId) (x : Instance) (es : List (Value × Value)), w.Ready c n →
        w.heap.pool.get? t = some x → x.descriptor = c.table → x.payload = .table es →
        ∀ key item : Value, ∃ (w' : World) (y : Instance) (es' : List (Value × Value)),
          (setItem (.ofDepth n) (.ref t) key item).run.exec w = (.ok (.ok true), w') ∧
          (∀ other, ∃ (b : Bool) (old : Value),
            (equal (.ofDepth n) key other).exec w = (.ok b, w) ∧
            (equal (.ofDepth n) key other).exec w' = (.ok b, w') ∧
            (getItem (.ofDepth n) (.ref t) other).run.exec w = (.ok (.ok old), w) ∧
            (getItem (.ofDepth n) (.ref t) other).run.exec w' =
              (.ok (.ok (if b then item else old)), w')) ∧
          w'.heap.pool.get? t = some y ∧ y.descriptor = c.table ∧ y.payload = .table es' ∧
          ((∃ k ∈ es.map Prod.fst, (equal (.ofDepth n) k key).exec w = (.ok true, w)) ∧
              es'.map Prod.fst = es.map Prod.fst ∨
            (∀ k ∈ es.map Prod.fst, (equal (.ofDepth n) k key).exec w = (.ok false, w)) ∧
              es'.map Prod.fst = es.map Prod.fst ++ [key]) ∧
          ∀ id, id ≠ t → w'.heap.pool.get? id = w.heap.pool.get? id) ∧
      ∀ (w : World) (t : InstanceId), Filled c n t w →
        ∃ x es, w.heap.pool.get? t = some x ∧ x.payload = .table es ∧
          (es.map Prod.fst).Pairwise fun k k' =>
            (equal (.ofDepth n) k k').exec w = (.ok false, w) ∧
              (equal (.ofDepth n) k' k).exec w = (.ok false, w) := by
  constructor
  · intro w t x es ready hx hd hp key item
    have ready' := ready.putEntries hx hd (insertKey (w.heap.same c) key item es)
    have hx' := Heap.get?_putEntries_self hx (insertKey (w.heap.same c) key item es)
    have hequal := ready.exec_equal (m := n) (Nat.le_succ n)
    have hsame : ∀ es', (w.heap.putEntries t es').same c = w.heap.same c := by
      intro es'
      funext v u
      rw [Heap.same, Heap.bisimilar_putEntries hx hp]
      rfl
    refine ⟨_, _, _, exec_setItem ready hx hd hp key item, fun other => ?_, hx', hd, rfl, ?_,
      fun id hne => Heap.get?_putEntries_of_ne _ hne⟩
    · refine ⟨w.heap.same c key other, lookupKey (w.heap.same c) other es, hequal key other, ?_,
        exec_getItem ready hx hd hp other, ?_⟩
      · rw [ready'.exec_equal (Nat.le_succ n), hsame]
      · rw [exec_getItem ready' hx' hd rfl, hsame,
          lookupKey_insertKey (w.heap.equivalence_same c)]
    · rw [keys_insertKey]
      by_cases found : ∃ k ∈ es.map Prod.fst, w.heap.same c k key = true
      · rw [if_pos found]
        obtain ⟨k, hk, hsame⟩ := found
        exact Or.inl ⟨⟨k, hk, by rw [hequal, hsame]⟩, rfl⟩
      · rw [if_neg found]
        refine Or.inr ⟨fun k hk => ?_, rfl⟩
        rw [hequal, Bool.eq_false_iff.mpr fun hsame => found ⟨k, hk, hsame⟩]
  · intro w t filled
    obtain ⟨ready, x, es, hx, _, hp, distinct⟩ := filled.distinct
    have hequal := ready.exec_equal (m := n) (Nat.le_succ n)
    refine ⟨x, es, hx, hp, distinct.imp fun {k k'} hne => ?_⟩
    rw [hequal, hequal, Heap.same_eq_false_iff.mpr hne,
      Heap.same_eq_false_iff.mpr fun bisimilar => hne bisimilar.symm]
    exact ⟨rfl, rfl⟩

def keyedTable : Session where
  steps := [.op .table, .op (.string "a"), .op (.string "a"), .op (.string "b")]

theorem ready_keyedTable : (keyedTable.closing (.ofDepth 4)).Ready .standard 18 := by
  have truthful :=
    (keyedTable.visits_closing (.ofDepth 4) rfl rfl (by decide +kernel)).truthful.heap
  refine ⟨truthful.contained, truthful.stocked.callback?_of_table (i := 3) rfl .get,
    truthful.stocked.callback?_of_table (i := 3) rfl .set, fun id x hx => ?_, by decide +kernel,
    by decide +kernel⟩
  have hall : ∀ e ∈ (keyedTable.closing (.ofDepth 4)).heap.pool.instances,
      e.2.borrow = .shared 0 := by decide +kernel
  exact hall (id, x) (Pool.mem_instances.mpr hx)

theorem tables_are_maps_keyedTable :
    ∃ w' w'', (setItem (.ofDepth 18) (.ref ⟨0, 0⟩) (.ref ⟨1, 0⟩) (.int 1)).run.exec
        (keyedTable.closing (.ofDepth 4)) = (.ok (.ok true), w') ∧
      (getItem (.ofDepth 18) (.ref ⟨0, 0⟩) (.ref ⟨2, 0⟩)).run.exec w' =
        (.ok (.ok (.int 1)), w') ∧
      (setItem (.ofDepth 18) (.ref ⟨0, 0⟩) (.ref ⟨3, 0⟩) (.int 2)).run.exec w' =
        (.ok (.ok true), w'') ∧
      ∃ x es, w''.heap.pool.get? ⟨0, 0⟩ = some x ∧ x.payload = .table es ∧
        es.map Prod.fst = [.ref ⟨1, 0⟩, .ref ⟨3, 0⟩] ∧
        (es.map Prod.fst).Pairwise fun k k' =>
          (equal (.ofDepth 18) k k').exec w'' = (.ok false, w'') ∧
            (equal (.ofDepth 18) k' k).exec w'' = (.ok false, w'') := by
  obtain ⟨laws, keys⟩ := tables_are_maps .standard 18
  have htable : ((keyedTable.closing (.ofDepth 4)).heap.pool.get? ⟨0, 0⟩).map
      (fun x => (x.descriptor, x.payload)) = some (Containers.standard.table, .table []) := by
    decide +kernel
  obtain ⟨x, hx, heq⟩ := Option.map_eq_some_iff.mp htable
  obtain ⟨hd, hp⟩ := Prod.mk.inj heq
  obtain ⟨w', y, es, hset, hget, hy, hyd, hyp, hkeys, _⟩ :=
    laws _ ⟨0, 0⟩ x [] ready_keyedTable hx hd hp (.ref ⟨1, 0⟩) (.int 1)
  obtain ⟨_, _, hsame, _, _, hitem⟩ := hget (.ref ⟨2, 0⟩)
  have hyes : ((equal (.ofDepth 18) (.ref ⟨1, 0⟩) (.ref ⟨2, 0⟩)).exec
      (keyedTable.closing (.ofDepth 4))).1.toOption = some true := by decide +kernel
  rw [hsame] at hyes
  cases Option.some.inj hyes
  obtain ⟨_, _, hother, hother', _⟩ := hget (.ref ⟨3, 0⟩)
  have hno : ((equal (.ofDepth 18) (.ref ⟨1, 0⟩) (.ref ⟨3, 0⟩)).exec
      (keyedTable.closing (.ofDepth 4))).1.toOption = some false := by decide +kernel
  rw [hother] at hno
  cases Option.some.inj hno
  have one : es.map Prod.fst = [.ref ⟨1, 0⟩] := by
    rcases hkeys with ⟨⟨k, hk, _⟩, _⟩ | ⟨_, hkeys⟩
    · cases hk
    · exact hkeys
  have filled : Filled .standard 18 ⟨0, 0⟩ w' :=
    .set (.ref ⟨1, 0⟩) (.int 1) (.empty ready_keyedTable hx hd hp) hset
  obtain ⟨ready, _⟩ := filled.distinct
  obtain ⟨w'', z, es', hset', _, hz, _, hzp, hkeys', _⟩ :=
    laws w' ⟨0, 0⟩ y es ready hy hyd hyp (.ref ⟨3, 0⟩) (.int 2)
  have two : es'.map Prod.fst = [.ref ⟨1, 0⟩, .ref ⟨3, 0⟩] := by
    rw [one] at hkeys'
    rcases hkeys' with ⟨⟨k, hk, htrue⟩, _⟩ | ⟨_, hkeys'⟩
    · rw [List.mem_singleton.mp hk, hother'] at htrue
      cases htrue
    · exact hkeys'
  obtain ⟨z', es'', hz', hzp', apart⟩ := keys w'' ⟨0, 0⟩ (.set (.ref ⟨3, 0⟩) (.int 2) filled hset')
  cases hz.symm.trans hz'
  cases hzp.symm.trans hzp'
  exact ⟨w', w'', hset, hitem, hset', z, es', hz, hzp, two, apart⟩

/-- A session in which a key of a table is a string that is written after it was set. -/
def rewrittenKey : Session where
  steps := [.bind "t" (.op .table), .bind "p" (.op (.string "a")), .bind "q" (.op (.string "ab")),
    .op (.set (.var "t") (.var "p") (.const (.int 1))),
    .op (.set (.var "t") (.var "q") (.const (.int 2))),
    .payloadWrite (.var "p") .text [] { append := some "b" }]

/-- Two keys of a table that was filled by `set` are equal, though there is no array and no list: one
of the two strings was written meanwhile. -/
theorem equal_keys_of_rewritten_string :
    let w := rewrittenKey.closing (.ofDepth 4)
    (w.heap.pool.instances.all fun e => e.2.descriptor != Containers.standard.array &&
        e.2.descriptor != Containers.standard.list) = true ∧
      (w.heap.pool.get? ⟨0, 0⟩).map (fun x => x.payload) =
        some (.table [(.ref ⟨1, 0⟩, .int 1), (.ref ⟨2, 0⟩, .int 2)]) ∧
      w.heap.contains (.ref ⟨1, 0⟩) = true ∧ w.heap.contains (.ref ⟨2, 0⟩) = true ∧
      ((equal (.ofDepth 4) (.ref ⟨1, 0⟩) (.ref ⟨2, 0⟩)).exec w).1.toOption = some true := by
  decide +kernel

end TracedHeap
