import TracedHeap.Proofs.Sequences
import TracedHeap.Proofs.Recycling
import TracedHeap.Proofs.Rendering

/-!
# Inspection cuts off at cycles

Inspection goes from containers to their parts.  One guard, shared by all types of containers, holds
the containers whose texts are being made, and these are the ones around the value that is looked at.

* `Heap.Inspectable`       types show their instances by the routines of the containers, if at all,
                           and every payload can be read;
* `exec_inspect_of_bare`, `exec_inspect_of_mem`, `exec_inspect_of_whole`
                           what inspection does with a text, with a container inside itself and with
                           a container that is met for the first time;
* `draws_inspect`          what it finds is the text that `Heap.Draws` speaks of;
* `inspect_cuts_cycles`    where it is cut off, and where not.
-/

namespace TracedHeap

open Run

/-! ## Texts of parts -/

section
variable {r : Runner} {w : World} {v : Value} {placeholder : String} {text : Run String}

def World.inspectingOf (w : World) (v : Value) : World :=
  { w with inspecting := v :: w.inspecting }

theorem exec_guardInspect_of_mem (known : v ∈ w.inspecting) (placeholder : String)
    (text : Run String) : (guardInspect v placeholder text).exec w = (.ok placeholder, w) := by
  unfold guardInspect
  rw [exec_bind, world, exec_look]
  simp only [id_eq]
  rw [if_pos known]
  rfl

theorem exec_guardInspect {s : String} (fresh : v ∉ w.inspecting)
    (inside : text.exec (w.inspectingOf v) = (.ok s, w.inspectingOf v)) :
    (guardInspect v placeholder text).exec w = (.ok s, w) := by
  unfold guardInspect
  rw [exec_bind, world, exec_look]
  simp only [id_eq]
  rw [if_neg fresh, exec_bind, exec_note]
  -- the container is taken off the guard again
  have hfst := exec_ensuring_fst text (note fun c => { c with inspecting := c.inspecting.tail })
    (w.inspectingOf v)
  have hsnd := exec_ensuring_snd text (note fun c => { c with inspecting := c.inspecting.tail })
    (w.inspectingOf v)
  rw [inside] at hfst hsnd
  exact Prod.ext hfst hsnd

/-- In the world `w`, which they leave as it is, the values have these texts. -/
abbrev Inspects (r : Runner) (w : World) : List Value → List String → Prop :=
  List.Forall₂ fun x s => (inspect r x).exec w = (.ok s, w)

theorem exec_inspectEach {vs : List Value} {ts : List String} (texts : Inspects r w vs ts) :
    (inspectEach r vs).exec w = (.ok ts, w) := by
  induction texts with
  | nil => rfl
  | @cons x s vs ts first _ ih =>
    unfold inspectEach
    rw [(bind_of_ok first _).1, (bind_of_ok ih _).1]
    rfl

theorem exec_inspectAll {vs : List Value} {ts : List String} (texts : Inspects r w vs ts) :
    (inspectAll r vs).exec w = (.ok (String.intercalate " " ts), w) := by
  unfold inspectAll
  rw [(bind_of_ok (exec_inspectEach texts) _).1]
  rfl

theorem exec_inspectEntries {es : List (Value × Value)} {ts : List String}
    (texts : Inspects r w (es.flatMap fun e => [e.1, e.2]) ts) :
    (inspectEntries r es).exec w = (.ok (entryTexts ts), w) := by
  induction es generalizing ts with
  | nil =>
    cases texts
    rfl
  | cons e es ih =>
    obtain ⟨k, x⟩ := e
    rw [List.flatMap_cons] at texts
    cases texts with
    | cons first texts =>
      cases texts with
      | cons second rest =>
        have entry := exec_inspectAll (.cons first (.cons second .nil))
        unfold inspectEntries
        rw [(bind_of_ok entry _).1, (bind_of_ok (ih rest) _).1]
        rfl

end

/-! ## Routines -/

section
variable {r : Runner} {w : World} {id : InstanceId} {x : Instance} {k : Routine .inspect}
  {layout : Layout} {parts : List Value} {text : String}

theorem exec_routine_of_mem (hk : k.sight x.payload = .whole layout parts)
    (known : .ref id ∈ w.inspecting) :
    (k.run r (.ref id)).exec w = (.ok layout.placeholder, w) := by
  cases k with
  | arrayInspect | listInspect =>
    cases hp : x.payload.as? .items <;> simp only [Routine.sight, hp, Option.elim] at hk <;> cases hk
    exact exec_guardInspect_of_mem known _ _
  | stringInspect => cases hk
  | tableInspect =>
    cases hp : x.payload.as? .table <;> simp only [Routine.sight, hp, Option.elim] at hk <;> cases hk
    exact exec_guardInspect_of_mem known _ _
  | quotationInspect =>
    cases hp : x.payload.as? .words <;> simp only [Routine.sight, hp, Option.elim] at hk <;> cases hk
    exact exec_guardInspect_of_mem known _ _

theorem exec_routine_of_bare (hx : w.heap.pool.get? id = some x) (hb : x.borrow.readable = true)
    (hk : k.sight x.payload = .bare text) (fresh : .ref id ∉ w.inspecting) :
    (k.run r (.ref id)).exec w = (.ok text, w) := by
  have hread := fun kind => w.heap.read_of_get? hx hb kind
  have hread' : ∀ kind, (w.inspectingOf (.ref id)).heap.read (.ref id) kind = _ := hread
  cases k with
  | arrayInspect | listInspect =>
    cases hp : x.payload.as? .items <;> simp only [Routine.sight, hp, Option.elim] at hk <;> cases hk
    refine exec_guardInspect fresh ?_
    rw [exec_bind, heap, exec_look]
    simp only [hread', hp]
    rfl
  | stringInspect =>
    cases hk
    show (stringInspect (.ref id)).exec w = _
    unfold stringInspect
    rw [exec_bind, heap, exec_look]
    simp only [hread]
    cases x.payload.as? .text <;> rfl
  | tableInspect =>
    cases hp : x.payload.as? .table <;> simp only [Routine.sight, hp, Option.elim] at hk <;> cases hk
    refine exec_guardInspect fresh ?_
    rw [exec_bind, heap, exec_look]
    simp only [hread', hp]
    rfl
  | quotationInspect =>
    cases hp : x.payload.as? .words <;> simp only [Routine.sight, hp, Option.elim] at hk <;> cases hk
    refine exec_guardInspect fresh ?_
    rw [exec_bind, heap, exec_look]
    simp only [hread', hp]
    rfl

theorem exec_routine_of_whole (hx : w.heap.pool.get? id = some x) (hb : x.borrow.readable = true)
    (hk : k.sight x.payload = .whole layout parts) (fresh : .ref id ∉ w.inspecting)
    {ts : List String} (texts : Inspects r (w.inspectingOf (.ref id)) parts ts) :
    (k.run r (.ref id)).exec w = (.ok (layout.compose ts), w) := by
  have hread : ∀ kind, (w.inspectingOf (.ref id)).heap.read (.ref id) kind = _ := fun kind =>
    w.heap.read_of_get? hx hb kind
  cases k with
  | arrayInspect | listInspect =>
    cases hp : x.payload.as? .items <;> simp only [Routine.sight, hp, Option.elim] at hk <;> cases hk
    refine exec_guardInspect fresh ?_
    rw [exec_bind, heap, exec_look]
    simp only [hread, hp]
    rw [(bind_of_ok (exec_inspectAll texts) _).1]
    rfl
  | stringInspect => cases hk
  | tableInspect =>
    cases hp : x.payload.as? .table <;> simp only [Routine.sight, hp, Option.elim] at hk <;> cases hk
    refine exec_guardInspect fresh ?_
    rw [exec_bind, heap, exec_look]
    simp only [hread, hp]
    rw [(bind_of_ok (exec_inspectEntries texts) _).1]
    rfl
  | quotationInspect =>
    cases hp : x.payload.as? .words <;> simp only [Routine.sight, hp, Option.elim] at hk <;> cases hk
    refine exec_guardInspect fresh ?_
    rw [exec_bind, heap, exec_look]
    simp only [hread, hp]
    cases texts with
    | nil => rfl
    | cons first rest =>
      rw [(bind_of_ok (exec_inspectAll (.cons first rest)) _).1]
      rfl

end

/-! ## Inspection -/

/-- Types show their instances by the routines of the containers, if they show them at all, and
every payload can be read. -/
structure Heap.Inspectable (h : Heap) : Prop where
  routines : ∀ d c, h.registry.callback? d .inspect = some c → ∃ k, c = .routine k
  readable : ∀ id x, h.pool.get? id = some x → x.borrow.readable = true

section
variable {n : Nat} {w : World} {v : Value} {text : String} {layout : Layout} {parts : List Value}

theorem exec_inspect_routine {id : InstanceId} {x : Instance} {k : Routine .inspect}
    (hx : w.heap.pool.get? id = some x)
    (hk : w.heap.registry.callback? x.descriptor .inspect = some (.routine k)) (n : Nat) :
    (inspect (.ofDepth (n + 1)) (.ref id)).exec w = (k.run (.ofDepth n) (.ref id)).exec w := by
  unfold inspect
  rw [exec_bind, heap, exec_look]
  dsimp only
  rw [Heap.callback_of_get? hx, hk]
  exact (run_ofDepth_succ n _ _ w).1

theorem exec_inspect_of_bare (ok : w.heap.Inspectable) (hv : w.heap.sight v = .bare text)
    (fresh : v ∉ w.inspecting) (n : Nat) :
    (inspect (.ofDepth (n + 1)) v).exec w = (.ok text, w) := by
  cases v with
  | ref id =>
    cases hx : w.heap.pool.get? id with
    | none =>
      have hfind : w.heap.find? (.ref id) = none := hx
      simp only [Heap.sight, hfind, Sight.bare.injEq] at hv
      subst hv
      unfold inspect
      rw [exec_bind, heap, exec_look]
      dsimp only
      rw [Heap.callback_of_none hx]
      rfl
    | some x =>
      have hfind : w.heap.find? (.ref id) = some x := hx
      cases hc : w.heap.registry.callback? x.descriptor .inspect with
      | none =>
        simp only [Heap.sight, hfind, hc, Sight.bare.injEq] at hv
        subst hv
        unfold inspect
        rw [exec_bind, heap, exec_look]
        dsimp only
        rw [Heap.callback_of_get? hx, hc]
        rfl
      | some c =>
        obtain ⟨k, rfl⟩ := ok.routines _ c hc
        simp only [Heap.sight, hfind, hc] at hv
        rw [exec_inspect_routine hx hc]
        exact exec_routine_of_bare hx (ok.readable id x hx) hv fresh
  | _ =>
    cases hv
    rfl

theorem exec_inspect_of_mem (hv : w.heap.sight v = .whole layout parts) (known : v ∈ w.inspecting)
    (n : Nat) : (inspect (.ofDepth (n + 1)) v).exec w = (.ok layout.placeholder, w) := by
  obtain ⟨id, x, k, rfl, hx, hc, hk⟩ := Heap.sight_eq_whole hv
  rw [exec_inspect_routine hx hc]
  exact exec_routine_of_mem hk known

theorem exec_inspect_of_whole (ok : w.heap.Inspectable) (hv : w.heap.sight v = .whole layout parts)
    (fresh : v ∉ w.inspecting) {ts : List String}
    (texts : Inspects (.ofDepth n) (w.inspectingOf v) parts ts) :
    (inspect (.ofDepth (n + 1)) v).exec w = (.ok (layout.compose ts), w) := by
  obtain ⟨id, x, k, rfl, hx, hc, hk⟩ := Heap.sight_eq_whole hv
  rw [exec_inspect_routine hx hc]
  exact exec_routine_of_whole hx (ok.readable id x hx) hk fresh texts

/-- A value inside of the containers that are being inspected has the text that it is to have there,
and inspection finds it and changes nothing. -/
theorem draws_inspect (ok : w.heap.Inspectable) (trail : Trail w.heap.Shows (v :: w.inspecting))
    (enough : w.heap.unseen w.inspecting < n) :
    ∃ text cuts, (inspect (.ofDepth n) v).exec w = (.ok text, w) ∧
      w.heap.Draws w.inspecting v text cuts := by
  -- the depth that is left exceeds the number of instances that are not on the way yet
  induction n generalizing w v with
  | zero => exact absurd enough (Nat.not_lt_zero _)
  | succ n ih =>
    cases hv : w.heap.sight v with
    | bare text =>
      -- only containers are on the way
      have fresh : v ∉ w.inspecting := fun known => by
        obtain ⟨x, ⟨_, _, hv', _⟩, _⟩ := Relation.TransGen.head'_iff.mp (trail.transGen known)
        cases hv.symm.trans hv'
      exact ⟨text, [], exec_inspect_of_bare ok hv fresh n, .bare hv⟩
    | whole layout parts =>
      by_cases known : v ∈ w.inspecting
      · exact ⟨_, _, exec_inspect_of_mem hv known n, .cut hv known⟩
      · have fewer : w.heap.unseen (v :: w.inspecting) < n := by
          have := Heap.unseen_cons_lt (Heap.mem_liveValues_of_sight hv) known
          omega
        have inside : ∀ x ∈ parts, ∃ d : String × List (List Value),
            (inspect (.ofDepth n) x).exec (w.inspectingOf v) = (.ok d.1, w.inspectingOf v) ∧
              w.heap.Draws (v :: w.inspecting) x d.1 d.2 := fun x hx => by
          obtain ⟨text, cuts, hexec, draws⟩ := ih (w := w.inspectingOf v) ok
            (trail.step ⟨layout, parts, hv, hx⟩) fewer
          exact ⟨(text, cuts), hexec, draws⟩
        obtain ⟨drawn, hdrawn⟩ := exists_forall₂ inside
        have texts : Inspects (.ofDepth n) (w.inspectingOf v) parts (drawn.map Prod.fst) :=
          List.forall₂_map_right_iff.mpr (hdrawn.imp fun _ _ h => h.1)
        obtain ⟨hlength, hzip⟩ := List.forall₂_iff_zip.mp hdrawn
        exact ⟨_, _, exec_inspect_of_whole ok hv known texts,
          .whole drawn hv known hlength.symm fun p hp => (hzip hp).2⟩

/-- Inspection comes to an end and cuts off at cycles, and nowhere else.

Where types show their instances by the routines of the containers, no payload is being written and
nothing is being inspected, every value has a text, if callbacks may run as deep as there are
instances, and to find it changes nothing.  If no container that holds itself can be reached from the
value, the text is made of the texts of the parts all through, however often a part occurs.  If one
can be reached, placeholders stand in the text; and each stands for a container at a place that is
inside of this very container, on a way from the value through parts of parts. -/
theorem inspect_cuts_cycles (ok : w.heap.Inspectable) (idle : w.inspecting = [])
    (enough : w.heap.pool.instances.length < n) (v : Value) :
    ∃ text cuts, (inspect (.ofDepth n) v).exec w = (.ok text, w) ∧
      w.heap.Draws [] v text cuts ∧
      (¬ ReachesCycle w.heap.Shows v → cuts = [] ∧ w.heap.Renders v text) ∧
      (ReachesCycle w.heap.Shows v → cuts ≠ []) ∧
      ∀ place ∈ cuts, ∃ u around, place = u :: around ∧ u ∈ around ∧
        Trail w.heap.Shows place ∧ place.getLast? = some v := by
  have trail : Trail w.heap.Shows [v] := trail_singleton v
  obtain ⟨text, cuts, hexec, draws⟩ := draws_inspect (n := n) (v := v) ok (by rwa [idle])
    (Nat.lt_of_le_of_lt (w.heap.unseen_le _) enough)
  rw [idle] at draws
  refine ⟨text, cuts, hexec, draws, fun acyclic => ?_, fun cycle whole => ?_, fun place hplace => ?_⟩
  · have whole := (draws.cuts_eq_nil_iff trail).mpr acyclic
    exact ⟨whole, draws.renders whole⟩
  · exact (draws.cuts_eq_nil_iff trail).mp whole cycle
  · obtain ⟨trail', suffix, u, around, rfl, again⟩ := draws.trail trail place hplace
    obtain ⟨front, hfront⟩ := suffix
    exact ⟨u, around, rfl, again, trail', by rw [← hfront, List.getLast?_concat]⟩

end

theorem Heap.Truthful.inspectable {past : List Transition} {h : Heap} (truthful : h.Truthful past) :
    h.Inspectable where
  routines _ _ hc := by
    obtain ⟨k, rfl, _⟩ := Callback.exists_routine (truthful.stocked.callback hc)
    exact ⟨k, rfl⟩
  readable := truthful.readable

/-- A session that leaves an array in a table in a quotation in the array, with a string that is in
two of them, and a list with this string twice. -/
def knot : Session where
  steps := [.bind "s" (.op (.string "a")), .bind "t" (.op .table),
    .bind "q" (.op (.quotation [.var "t"])), .bind "a" (.op (.array [.var "q", .var "s"])),
    .op (.set (.var "t") (.var "s") (.var "a")), .op (.list [.var "s", .var "s"])]

theorem inspect_cuts_cycles_knot :
    let h := (knot.closing (.ofDepth 6)).heap
    (∃ cuts, h.Draws [] (.ref ⟨3, 0⟩) "[[: \x7b\"a\" [...]\x7d ;] \"a\"]" cuts ∧ cuts ≠ []) ∧
      h.Renders (.ref ⟨4, 0⟩) "(\"a\" \"a\")" := by
  intro h
  have ok : h.Inspectable :=
    (knot.visits_closing (.ofDepth 6) rfl rfl (by decide +kernel)).truthful.heap.inspectable
  have answers := inspect_cuts_cycles (n := 6) ok (by decide +kernel) (by decide +kernel)
  constructor
  · have quotation : h.sight (.ref ⟨3, 0⟩) = .whole (.sequence .array) [.ref ⟨2, 0⟩, .ref ⟨0, 0⟩] := by
      decide +kernel
    have table : h.sight (.ref ⟨2, 0⟩) = .whole .quotation [.ref ⟨1, 0⟩] := by decide +kernel
    have array : h.sight (.ref ⟨1, 0⟩) = .whole .table [.ref ⟨0, 0⟩, .ref ⟨3, 0⟩] := by
      decide +kernel
    have cycle : ReachesCycle h.Shows (.ref ⟨3, 0⟩) :=
      ⟨_, .refl, .head ⟨_, _, quotation, by decide⟩ <|
        .head ⟨_, _, table, by decide⟩ <| .single ⟨_, _, array, by decide⟩⟩
    obtain ⟨text, cuts, hexec, draws, _, cut, _⟩ := answers (.ref ⟨3, 0⟩)
    have htext : ((inspect (.ofDepth 6) (.ref ⟨3, 0⟩)).exec (knot.closing (.ofDepth 6))).1.toOption =
        some "[[: \x7b\"a\" [...]\x7d ;] \"a\"]" := by decide +kernel
    rw [hexec] at htext
    cases htext
    exact ⟨cuts, draws, cut cycle⟩
  · have list : h.sight (.ref ⟨4, 0⟩) = .whole (.sequence .list) [.ref ⟨0, 0⟩, .ref ⟨0, 0⟩] := by
      decide +kernel
    have string : h.sight (.ref ⟨0, 0⟩) = .bare "\"a\"" := by decide +kernel
    have acyclic : ¬ ReachesCycle h.Shows (.ref ⟨4, 0⟩) := fun cycle => by
      obtain ⟨x, ⟨_, _, hx, hmem⟩, cycle⟩ := cycle.exists_step
      cases list.symm.trans hx
      rw [show x = .ref ⟨0, 0⟩ by simpa using hmem] at cycle
      obtain ⟨_, ⟨_, _, hx, _⟩, _⟩ := cycle.exists_step
      cases string.symm.trans hx
    obtain ⟨text, cuts, hexec, _, whole, _, _⟩ := answers (.ref ⟨4, 0⟩)
    have htext : ((inspect (.ofDepth 6) (.ref ⟨4, 0⟩)).exec (knot.closing (.ofDepth 6))).1.toOption =
        some "(\"a\" \"a\")" := by decide +kernel
    rw [hexec] at htext
    cases htext
    exact (whole acyclic).2

end TracedHeap
