import TracedHeap.Proofs.Honesty

/-!
# The sequences of strings and tables

A session that makes containers only, installs no callbacks and writes no payload directly comes to
truthful worlds only.  There the sequence of a string is an array of its code points, and that of a
table an array of its keys, unless somebody has written into that array.

* `Visits`                  the worlds that such sessions come to, between any two operations;
* `Visits.truthful`         they are truthful;
* `Session.visits_closing`  a session whose steps are so is at such a world when its steps end;
* `sequence_lists`          what the sequences of strings and tables list;
* `sequence_overwritten`    a sequence that is written lists something else from then on.
-/

namespace TracedHeap

open Run

/-! ## Worlds with containers only -/

/-- `Visits r past w`: a session with containers can come to `w` by the transitions `past`.  From
its opening on it runs any operations that make no instances but containers, inside or outside of
frames and of payloads that are being read.  Whether an operation ends, is refused or is cut short,
the session goes on from there. -/
inductive Visits (r : Runner) : List Transition → World → Prop where
  | opened (s : Session) : s.config.fault? = none → s.containers = true →
      Visits r (s.opening.trace (s.start (Heap.new s.config))) s.opened
  | op {past : List Transition} {w : World} (o : Op) : o.contained = true → Visits r past w →
      Visits r (past ++ (o.run r).run.trace w) ((o.run r).run.exec w).2
  /-- A frame, or the reading of a payload, begins or ends. -/
  | bracket {past : List Transition} {w : World} {α : Type} (a : Action α) : a.brackets = true →
      Visits r past w → Visits r (past ++ [⟨a, w.heap⟩]) { w with heap := (a.apply w.heap).2 }
  /-- Something changes beside the heap, such as a variable or the log. -/
  | note {past : List Transition} {w : World} (f : Context → Context) :
      (∀ c, (f c).containers = c.containers) → Visits r past w →
      Visits r past { w with toContext := f w.toContext }

theorem Session.truthful_opened {s : Session} (valid : s.config.fault? = none)
    (hs : s.containers = true) :
    s.opened.Truthful (s.opening.trace (s.start (Heap.new s.config))) := by
  obtain ⟨containers, stocked, hpool⟩ := Session.stocked_opened hs
  have sound : s.opened.heap.SoundPool :=
    (s.opening.path_trace (s.start (Heap.new s.config))).soundPool (Heap.soundPool_new valid)
  have none : ∀ {id x}, s.opened.heap.pool.get? id ≠ some x := by
    intro id x hx
    rw [hpool] at hx
    cases hx
  exact ⟨⟨sound, stocked, fun _ _ hx => absurd hx none, fun _ _ hx => absurd hx none,
    fun _ _ _ hx => absurd hx none, fun _ _ _ _ hx => absurd hx none⟩, containers⟩

section
variable {n : Nat} {past : List Transition} {w : World}

theorem Visits.truthful (v : Visits (.ofDepth n) past w) : w.Truthful past := by
  induction v with
  | opened s valid hs => exact Session.truthful_opened valid hs
  | op o ho _ truth => exact honest_op n o ho _ _ truth
  | bracket a ha _ truth => exact honest_settled (Action.settled_of_brackets ha) _ _ truth
  | note f hf _ truth => exact ⟨truth.heap, (hf _).trans truth.containers⟩

def Idiom.visiting (r : Runner) : Idiom := by
  refine .ofParts (fun x => ∀ past w, Visits r past w → Visits r (past ++ x.trace w) (x.exec w).2)
    (fun _ past _ v => ?_) (fun _ past _ v => ?_) (fun _ past _ v => ?_) (fun hf past _ v => ?_)
    (fun {_ _ x next} hx hnext past w v => ?_) (fun {_ x last} hx hlast past w v => ?_)
    (fun ha _ _ v => .bracket _ ha v)
  · exact (List.append_nil past).symm ▸ v
  · exact (List.append_nil past).symm ▸ v
  · exact (List.append_nil past).symm ▸ v
  · exact (List.append_nil past).symm ▸ .note _ hf v
  · have first := hx past w v
    rcases h : x.exec w with ⟨_ | a, w'⟩
    · rw [h] at first
      rw [(bind_of_error h next).1, (bind_of_error h next).2]
      exact first
    · rw [h] at first
      rw [(bind_of_ok h next).1, (bind_of_ok h next).2, ← List.append_assoc]
      exact hnext a _ w' first
  · rw [exec_ensuring_snd]
    show Visits r (past ++ (x.trace w ++ last.trace (x.exec w).2)) _
    rw [← List.append_assoc]
    exact hlast _ _ (hx past w v)

/-- The step makes no instances but containers, installs nothing and writes no payload directly,
whatever the steps inside it do. -/
def Step.containedHere : Step → Bool
  | op o => o.contained
  | install .. | payloadWrite .. => false
  | _ => true

def Step.allContained (steps : List Step) : Bool := Step.everyStep Step.containedHere steps

theorem visiting_step {r : Runner} (s : Step) (hs : s.everywhere Step.containedHere = true) :
    (Idiom.visiting r).has (s.run r).run := by
  refine Idiom.step (fun o ho past w v => .op o ho v) (fun _ _ _ _ _ h => ?_)
    (fun _ _ _ _ h => ?_) s hs
  · cases h
  · cases h

theorem Session.visits_runSteps (s : Session) {r : Runner} {steps : List Step}
    (hsteps : Step.allContained steps = true) (v : Visits r past w) :
    Visits r (past ++ s.stepsTrace r steps w) (s.runSteps r steps w).2 := by
  induction steps generalizing past w with
  | nil => exact (List.append_nil past).symm ▸ v
  | cons step rest ih =>
    obtain ⟨hstep, hrest⟩ := Bool.and_eq_true_iff.mp hsteps
    have logged := Visits.note (fun c => { c with log := #[] }) (fun _ => rfl)
      (visiting_step step hstep past w v)
    have later := ih hrest logged
    rw [List.append_assoc] at later
    exact later

/-- A session whose steps make containers only, install nothing and write no payload directly is at
such a world when they end. -/
theorem Session.visits_closing (s : Session) (r : Runner) (valid : s.config.fault? = none)
    (hs : s.containers = true) (hsteps : Step.allContained s.steps = true) :
    Visits r (s.opening.trace (s.start (Heap.new s.config)) ++ s.stepsTrace r s.steps s.opened)
      (s.closing r) :=
  s.visits_runSteps hsteps (.opened s valid hs)

/-! ## Elements -/

/-- What `length` and `get` say of a value with the elements `vs`. -/
def World.HasElements (w : World) (r : Runner) (v : Value) (vs : List Value) : Prop :=
  ((length r v).exec w).1 = .ok vs.length ∧
    ∀ i, ((getItem r v i).run.exec w).1 = .ok (elementAt vs i)

theorem hasElements {id : InstanceId} {x : Instance} {k : Kind} {content : k.Content}
    {vs : List Value} {size : Callback .length} {get : Callback .get}
    (hx : w.heap.pool.get? id = some x) (readable : x.borrow.readable = true)
    (hpayload : x.payload = .of k content)
    (hsize : w.heap.registry.callback? x.descriptor .length = some size)
    (hget : w.heap.registry.callback? x.descriptor .get = some get)
    (size_run : w.heap.read (.ref id) k = .ok content →
      ((size.run (.ofDepth n) (.ref id)).exec w).1 = .ok vs.length)
    (get_run : w.heap.read (.ref id) k = .ok content → ∀ i,
      ((get.run (.ofDepth n) (.ref id, i)).exec w).1 = .ok (elementAt vs i)) :
    w.HasElements (.ofDepth (n + 1)) (.ref id) vs := by
  have hread : w.heap.read (.ref id) k = .ok content := by
    rw [Heap.read_of_get? hx readable, hpayload, Payload.as?_of]
  constructor
  · unfold length
    rw [(bind_of_ok (show heap.exec w = (.ok w.heap, w) from rfl) _).1,
      Heap.callback_of_get? hx, hsize]
    simp only
    rw [(run_ofDepth_succ n size _ w).1]
    exact size_run hread
  · intro i
    have hcallback := Heap.callback_of_get? hx .get
    rw [hget] at hcallback
    unfold getItem
    rw [(ask_bind_of_ok hcallback _).1]
    simp only
    rw [Attempt.exec_ofRun, (run_ofDepth_succ n get _ w).1]
    exact get_run hread i

theorem hasElements_items {id : InstanceId} {x : Instance} {vs : List Value}
    (truth : w.heap.Truthful past) (hx : w.heap.pool.get? id = some x)
    (hd : x.descriptor = Containers.standard.array) (hpayload : x.payload = .items vs) :
    w.HasElements (.ofDepth (n + 1)) (.ref id) vs := by
  have hsize : w.heap.registry.callback? x.descriptor .length = some (.routine .arrayLength) := by
    rw [hd]
    exact truth.stocked.callback?_of_table (i := 0) rfl .length
  have hget : w.heap.registry.callback? x.descriptor .get = some (.routine .arrayGet) := by
    rw [hd]
    exact truth.stocked.callback?_of_table (i := 0) rfl .get
  refine hasElements (k := .items) hx (truth.readable id x hx) hpayload hsize hget
    (fun hread => ?_) (fun hread i => ?_)
  · show ((arrayLength (.ref id)).exec w).1 = _
    unfold arrayLength
    rw [(bind_of_ok (show heap.exec w = (.ok w.heap, w) from rfl) _).1, hread]
    rfl
  · show Except.ok ((w.heap.read (.ref id) .items).bind fun vs => elementAt vs i) = _
    rw [hread]
    rfl

theorem hasElements_text {id : InstanceId} {x : Instance} {s : String}
    (truth : w.heap.Truthful past) (hx : w.heap.pool.get? id = some x)
    (hd : x.descriptor = Containers.standard.string) (hpayload : x.payload = .text s) :
    w.HasElements (.ofDepth (n + 1)) (.ref id) (codePoints s) := by
  have hsize : w.heap.registry.callback? x.descriptor .length = some (.routine .stringLength) := by
    rw [hd]
    exact truth.stocked.callback?_of_table (i := 2) rfl .length
  have hget : w.heap.registry.callback? x.descriptor .get = some (.routine .stringGet) := by
    rw [hd]
    exact truth.stocked.callback?_of_table (i := 2) rfl .get
  refine hasElements (k := .text) hx (truth.readable id x hx) hpayload hsize hget
    (fun hread => ?_) (fun hread i => ?_)
  · show ((stringLength (.ref id)).exec w).1 = _
    unfold stringLength
    rw [(bind_of_ok (show heap.exec w = (.ok w.heap, w) from rfl) _).1, hread]
    show Except.ok s.length = _
    unfold codePoints
    rw [List.length_map, String.length_toList]
  · show Except.ok ((w.heap.read (.ref id) .text).bind fun s => elementAt (codePoints s) i) = _
    rw [hread]
    rfl

/-! ## Sequences -/

theorem exists_conversion {id : InstanceId} {x : Instance} {items : List Value}
    (truth : w.heap.Truthful past) (hx : w.heap.pool.get? id = some x)
    (hitems : x.payload.listing? = some items) :
    ∃ c, w.heap.callback .toSequence (.ref id) = .ok (some c) := by
  have fits := truth.fits id x hx
  have entry : ∀ {i t c}, x.descriptor = ⟨i⟩ → standardTables[i]? = some t →
      t.entry .toSequence = some c → ∃ c, w.heap.callback .toSequence (.ref id) = .ok (some c) := by
    intro i t c hd ht hc
    refine ⟨c, ?_⟩
    rw [Heap.callback_of_get? hx, hd, truth.stocked.callback?_of_table ht, hc]
  match hd : x.descriptor with
  | ⟨0⟩ | ⟨1⟩ | ⟨2⟩ | ⟨3⟩ => exact entry hd rfl rfl
  | ⟨4⟩ =>
    rw [hd] at fits
    cases hpayload : x.payload with
    | words ws =>
      rw [hpayload] at hitems
      cases hitems
    | _ =>
      rw [hpayload] at fits
      cases fits
  | ⟨i + 5⟩ =>
    rw [hd] at fits
    cases fits

/-- What a conversion of a string or a table gives lists what it is to list, and the world is
truthful afterwards.  If the conversion has run, the array is new. -/
theorem toSequence_lists {id : InstanceId} {x : Instance} {items : List Value} {q : Value}
    {w' : World} (truth : w.Truthful past) (hx : w.heap.pool.get? id = some x)
    (hitems : x.payload.listing? = some items)
    (hok : (toSequence (.ofDepth n) (.ref id)).run.exec w = (.ok (.ok q), w')) :
    let past' := past ++ (toSequence (.ofDepth n) (.ref id)).run.trace w
    w'.Truthful past' ∧ w'.heap.Lists past' q items ∧
      (∃ x', w'.heap.pool.get? id = some x' ∧ x'.descriptor = x.descriptor ∧
        x'.payload = x.payload) ∧
      (x.sequence.current? = none → ∃ a, q = .ref a ∧ writtenAfter a past' = false) := by
  intro past'
  obtain ⟨c, hc⟩ := exists_conversion truth.heap hx hitems
  cases hcurrent : x.sequence.current? with
  | some q' =>
    obtain ⟨hexec, htrace⟩ := toSequence_of_current (r := .ofDepth n) hc hx hcurrent
    cases hexec.symm.trans hok
    have same : past' = past := by
      show past ++ _ = past
      rw [htrace, List.append_nil]
    rw [same]
    exact ⟨truth, truth.heap.listed id x q items hx hcurrent hitems, ⟨x, hx, rfl, rfl⟩, nofun⟩
  | none =>
    obtain ⟨honest, answers⟩ := toSequence_run (n := n) truth hc hx hcurrent
    obtain ⟨⟨x', hx', hq, hd, hpayload⟩, fresh⟩ := answers q w' hok
    unfold Run.HonestAt at honest
    rw [hok] at honest
    refine ⟨honest, ?_, ⟨x', hx', hd, hpayload⟩, fun _ => fresh items hitems⟩
    exact honest.heap.listed id x' q items hx' hq (hpayload ▸ hitems)

end

/-- Sequences tell the truth, unless they are written.  In a session with containers that makes
containers only, installs no callbacks and writes no payload directly, and comes to `w` by the
transitions `past`, let the conversion of a live string or table `id` give `q`.

Then `q` is a live array, and `id` is there with the same payload.  If nobody has written `q` since
it was made, its elements are the code points of the text, in order, so that `length` and `get` say
of it just what they say of the string, refusals included; and the keys of the table as it is now,
in the order in which they were added.  It has just been made if nothing was remembered. -/
theorem sequence_lists {n : Nat} {past : List Transition} {w w' : World}
    (visits : Visits (.ofDepth (n + 1)) past w) {id : InstanceId} {x : Instance} {q : Value}
    (live : w.heap.pool.get? id = some x)
    (hok : (toSequence (.ofDepth (n + 1)) (.ref id)).run.exec w = (.ok (.ok q), w')) :
    let r := Runner.ofDepth (n + 1)
    let past' := past ++ (toSequence r (.ref id)).run.trace w
    (x.descriptor = Containers.standard.string →
      ∃ s a y x', x.payload = .text s ∧ q = .ref a ∧ w'.heap.pool.get? a = some y ∧
        y.descriptor = Containers.standard.array ∧
        w'.heap.pool.get? id = some x' ∧ x'.payload = .text s ∧
        w'.HasElements r (.ref id) (codePoints s) ∧
        (x.sequence.current? = none → writtenAfter a past' = false) ∧
        (writtenAfter a past' = false →
          y.payload = .items (codePoints s) ∧ w'.HasElements r q (codePoints s))) ∧
      (x.descriptor = Containers.standard.table →
        ∃ es a y x', x.payload = .table es ∧ q = .ref a ∧ w'.heap.pool.get? a = some y ∧
          y.descriptor = Containers.standard.array ∧
          w'.heap.pool.get? id = some x' ∧ x'.payload = .table es ∧
          es.map Prod.fst = insertedAfter id past' ∧
          (x.sequence.current? = none → writtenAfter a past' = false) ∧
          (writtenAfter a past' = false →
            y.payload = .items (es.map Prod.fst) ∧ w'.HasElements r q (es.map Prod.fst))) := by
  intro r past'
  have truth := visits.truthful
  have fits := truth.heap.fits id x live
  -- the array of what is to be listed
  have array : ∀ items, x.payload.listing? = some items →
      w'.Truthful past' ∧ ∃ a y x', q = .ref a ∧ w'.heap.pool.get? a = some y ∧
        y.descriptor = Containers.standard.array ∧ w'.heap.pool.get? id = some x' ∧
        x'.descriptor = x.descriptor ∧ x'.payload = x.payload ∧
        (x.sequence.current? = none → writtenAfter a past' = false) ∧
        (writtenAfter a past' = false → y.payload = .items items ∧ w'.HasElements r q items) := by
    intro items hitems
    obtain ⟨truth', ⟨a, y, rfl, hy, hd, hpayload⟩, ⟨x', hx', hd', hpayload'⟩, new⟩ :=
      toSequence_lists truth live hitems hok
    refine ⟨truth', a, y, x', rfl, hy, hd, hx', hd', hpayload', fun hcurrent => ?_,
      fun unwritten => ?_⟩
    · obtain ⟨_, ha, unwritten⟩ := new hcurrent
      cases ha
      exact unwritten
    · exact ⟨hpayload unwritten, hasElements_items truth'.heap hy hd (hpayload unwritten)⟩
  refine ⟨fun hstring => ?_, fun htable => ?_⟩
  · rw [hstring] at fits
    cases hs : x.payload with
    | text s =>
      obtain ⟨truth', a, y, x', hq, hy, hd, hx', hd', hpayload', new, exact⟩ :=
        array (codePoints s) (by rw [hs]; rfl)
      have htext := hpayload'.trans hs
      exact ⟨s, a, y, x', rfl, hq, hy, hd, hx', htext,
        hasElements_text truth'.heap hx' (hd'.trans hstring) htext, new, exact⟩
    | _ =>
      rw [hs] at fits
      cases fits
  · rw [htable] at fits
    cases hs : x.payload with
    | table es =>
      obtain ⟨truth', a, y, x', hq, hy, hd, hx', _, hpayload', new, exact⟩ :=
        array (es.map Prod.fst) (by rw [hs]; rfl)
      have hentries := hpayload'.trans hs
      exact ⟨es, a, y, x', rfl, hq, hy, hd, hx', hentries,
        truth'.heap.ordered id x' es hx' hentries, new, exact⟩
    | _ =>
      rw [hs] at fits
      cases fits

def indexed : Session where
  steps := [.bind "s" (.op (.string "né")), .bind "t" (.op .table), .op (.push (.var "s")),
    .op (.push (.var "t")), .op (.set (.var "t") (.const (.int 5)) (.var "s")),
    .op (.toSequence (.var "s")), .op (.toSequence (.var "t")),
    .op (.set (.var "t") (.const (.int 3)) (.var "s")),
    .op (.set (.var "t") (.const (.int 5)) (.var "t")), .op .collect]

theorem sequence_lists_indexed :
    let r := Runner.ofDepth 4
    let w := indexed.closing r
    let x := (toSequence r (.ref ⟨1, 0⟩)).run
    (x.exec w).1 = .ok (.ok (.ref ⟨4, 0⟩)) ∧
      ∃ y, (x.exec w).2.heap.pool.get? ⟨4, 0⟩ = some y ∧ y.payload = .items [.int 5, .int 3] := by
  intro r w x
  have visits := indexed.visits_closing r rfl rfl (by decide +kernel)
  have hreply : (x.exec w).1 = .ok (.ok (.ref ⟨4, 0⟩)) := by decide +kernel
  have hok : x.exec w = (.ok (.ok (.ref ⟨4, 0⟩)), (x.exec w).2) := by rw [← hreply]
  have hlive : (w.heap.pool.get? ⟨1, 0⟩).any
      (fun x => x.descriptor = Containers.standard.table ∧ x.sequence.current? = none) = true := by
    decide +kernel
  have hinserted : insertedAfter ⟨1, 0⟩
      (indexed.opening.trace (indexed.start (Heap.new indexed.config)) ++
        indexed.stepsTrace r indexed.steps indexed.opened ++ x.trace w) = [.int 5, .int 3] := by
    decide +kernel
  obtain ⟨y₀, hy₀, htable⟩ := (Option.any_eq_true _ _).mp hlive
  obtain ⟨hd, hcurrent⟩ := of_decide_eq_true htable
  obtain ⟨es, a, y, _, _, hq, hy, _, _, _, hkeys, new, exactly⟩ :=
    (sequence_lists visits hy₀ hok).2 hd
  cases hq
  refine ⟨hreply, y, hy, ?_⟩
  rw [(exactly (new hcurrent)).1, hkeys, hinserted]

/-- What is written into the sequence of a string shows in the next conversion, which gives the same
array again: the string starts with 97 still, and its sequence with 120. -/
def overwritten : Session where
  steps := [.bind "s" (.op (.string "ab")), .bind "q" (.op (.toSequence (.var "s"))),
    .op (.set (.var "q") (.const (.int 0)) (.const (.int 120)))]

theorem sequence_overwritten :
    let r := Runner.ofDepth 4
    let w := overwritten.closing r
    let x := (toSequence r (.ref ⟨0, 0⟩)).run
    Step.allContained overwritten.steps = true ∧
      (w.heap.pool.get? ⟨0, 0⟩).map Instance.payload = some (.text "ab") ∧
      (x.exec w).1 = .ok (.ok (.ref ⟨1, 0⟩)) ∧
      ((getItem r (.ref ⟨1, 0⟩) (.int 0)).run.exec (x.exec w).2).1 = .ok (.ok (.int 120)) ∧
      ((getItem r (.ref ⟨0, 0⟩) (.int 0)).run.exec (x.exec w).2).1 = .ok (.ok (.int 97)) := by
  intro r w x
  exact ⟨by decide +kernel, by decide +kernel, by decide +kernel, by decide +kernel,
    by decide +kernel⟩

end TracedHeap
