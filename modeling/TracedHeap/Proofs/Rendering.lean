import TracedHeap.Proofs.Containers
import TracedHeap.Proofs.Cycles

/-!
# Texts of containers

What the text of a value is, said without a computation that runs.  A container lays out the texts of
its parts.  Where containers hold themselves this has no end, and the text is cut off at a container
that is one of those around it.

* `Layout`           what stands around and between the texts of the parts of a container;
* `Heap.sight`       what there is to see of a value: a text, or parts and how they are laid out;
* `Heap.Renders`     the text of a value, with nothing cut off;
* `Heap.Draws`       the text of a value inside of others, and where it is cut off;
* `Heap.Draws.cuts_eq_nil_iff`
                     it is cut off if and only if a cycle can be reached.
-/

namespace TracedHeap

/-! ## Layouts -/

/-- How a container lays out the texts of its parts. -/
inductive Layout where
  | sequence (b : Brackets)
  | table
  | quotation
deriving DecidableEq

def entryTexts : List String → List String
  | key :: value :: rest => String.intercalate " " [key, value] :: entryTexts rest
  | _ => []

namespace Layout

def placeholder : Layout → String
  | sequence b => b.around "..."
  | table => "\x7b...\x7d"
  | quotation => "[: ... ;]"

def compose : Layout → List String → String
  | sequence b, texts => b.around (String.intercalate " " texts)
  | table, texts => "\x7b" ++ String.intercalate ", " (entryTexts texts) ++ "\x7d"
  | quotation, [] => "[: ;]"
  | quotation, texts => "[: " ++ String.intercalate " " texts ++ " ;]"

end Layout

/-- What there is to see of a value. -/
inductive Sight where
  | bare (text : String)
  | whole (layout : Layout) (parts : List Value)
deriving DecidableEq

/-- What an inspect routine sees of a payload; one that is not of its kind is only hinted at. -/
def Routine.sight : Routine .inspect → Payload → Sight
  | .arrayInspect, p => (p.as? .items).elim (.bare (Brackets.array.around "?"))
      (.whole (.sequence .array))
  | .listInspect, p => (p.as? .items).elim (.bare (Brackets.list.around "?"))
      (.whole (.sequence .list))
  | .stringInspect, p => .bare (Text.quote ((p.as? .text).getD "?"))
  | .tableInspect, p => (p.as? .table).elim (.bare "\x7b?\x7d")
      fun es => .whole .table (es.flatMap fun e => [e.1, e.2])
  | .quotationInspect, p => (p.as? .words).elim (.bare "[: ? ;]") (.whole .quotation)

namespace Heap

def sight (h : Heap) (v : Value) : Sight :=
  match h.find? v with
  | none => .bare (staleText v)
  | some x =>
    match h.registry.callback? x.descriptor .inspect with
    | some (.routine k) => k.sight x.payload
    | _ => .bare (h.plainText v)

/-- The second value is a part of the first. -/
def Shows (h : Heap) (v x : Value) : Prop :=
  ∃ layout parts, h.sight v = .whole layout parts ∧ x ∈ parts

theorem sight_eq_whole {h : Heap} {v : Value} {layout : Layout} {parts : List Value}
    (hv : h.sight v = .whole layout parts) :
    ∃ id x k, v = .ref id ∧ h.pool.get? id = some x ∧
      h.registry.callback? x.descriptor .inspect = some (.routine k) ∧
      k.sight x.payload = .whole layout parts := by
  unfold sight at hv
  split at hv
  · cases hv
  next x hx =>
    split at hv
    next k hk =>
      cases v with
      | ref id => exact ⟨id, x, k, rfl, hx, hk, hv⟩
      | _ => cases hx
    · cases hv

theorem mem_liveValues_of_sight {h : Heap} {v : Value} {layout : Layout} {parts : List Value}
    (hv : h.sight v = .whole layout parts) : v ∈ h.liveValues := by
  obtain ⟨id, x, _, rfl, hx, _⟩ := sight_eq_whole hv
  exact mem_liveValues hx

/-! ## Texts -/

/-- The text of a value, made of the texts of its parts. -/
inductive Renders (h : Heap) : Value → String → Prop where
  | bare {v : Value} {text : String} : h.sight v = .bare text → Renders h v text
  | whole {v : Value} {layout : Layout} {parts : List Value} (texts : List String) :
      h.sight v = .whole layout parts → texts.length = parts.length →
      (∀ p ∈ parts.zip texts, Renders h p.1 p.2) → Renders h v (layout.compose texts)

/-- The text of a value inside of the containers on a way.  The placeholder of a container stands in
its place if it is one of these, and only then.  The last argument tells for every placeholder how
one gets there: the container it stands for, then those around it. -/
inductive Draws (h : Heap) : List Value → Value → String → List (List Value) → Prop where
  | bare {way : List Value} {v : Value} {text : String} :
      h.sight v = .bare text → Draws h way v text []
  | cut {way : List Value} {v : Value} {layout : Layout} {parts : List Value} :
      h.sight v = .whole layout parts → v ∈ way → Draws h way v layout.placeholder [v :: way]
  | whole {way : List Value} {v : Value} {layout : Layout} {parts : List Value}
      (drawn : List (String × List (List Value))) :
      h.sight v = .whole layout parts → v ∉ way → drawn.length = parts.length →
      (∀ p ∈ parts.zip drawn, Draws h (v :: way) p.1 p.2.1 p.2.2) →
      Draws h way v (layout.compose (drawn.map Prod.fst)) (drawn.flatMap Prod.snd)

variable {h : Heap} {v : Value} {text : String} {way : List Value} {cuts : List (List Value)}

/-- What has a text made of the texts of its parts is in no cycle and reaches none. -/
theorem Renders.not_reachesCycle (renders : h.Renders v text) : ¬ ReachesCycle h.Shows v := by
  intro cycle
  induction renders with
  | bare hv =>
    obtain ⟨x, ⟨_, _, hv', _⟩, _⟩ := cycle.exists_step
    cases hv.symm.trans hv'
  | @whole v layout parts texts hv hlength _ ih =>
    obtain ⟨x, ⟨_, _, hv', hx⟩, cycle⟩ := cycle.exists_step
    cases hv.symm.trans hv'
    obtain ⟨text, hmem⟩ := exists_mem_zip_of_mem_left hlength hx
    exact ih (x, text) hmem cycle

theorem Draws.renders (draws : h.Draws way v text cuts) (whole : cuts = []) : h.Renders v text := by
  induction draws with
  | bare hv => exact .bare hv
  | cut => cases whole
  | @whole way v layout parts drawn hv _ hlength _ ih =>
    refine .whole _ hv ((List.length_map _).trans hlength) fun p hp => ?_
    rw [List.zip_map_right] at hp
    obtain ⟨⟨x, d⟩, hd, rfl⟩ := List.mem_map.mp hp
    exact ih (x, d) hd (List.flatMap_eq_nil_iff.mp whole d (List.of_mem_zip hd).2)

/-- Each placeholder stands for a container that is among those around it, on a way from part to
part. -/
theorem Draws.trail (draws : h.Draws way v text cuts) (trail : Trail h.Shows (v :: way)) :
    ∀ place ∈ cuts, Trail h.Shows place ∧ v :: way <:+ place ∧
      ∃ u around, place = u :: around ∧ u ∈ around := by
  induction draws with
  | bare => exact List.forall_mem_nil _
  | cut _ again =>
    exact List.forall_mem_singleton.mpr ⟨trail, List.suffix_rfl, _, _, rfl, again⟩
  | @whole way v layout parts drawn hv _ hlength _ ih =>
    intro place hplace
    obtain ⟨d, hd, hplace⟩ := List.mem_flatMap.mp hplace
    obtain ⟨x, hmem⟩ := exists_mem_zip_of_mem_right hlength hd
    have step : h.Shows v x := ⟨layout, parts, hv, (List.of_mem_zip hmem).1⟩
    obtain ⟨trail', suffix, again⟩ := ih (x, d) hmem (trail.step step) place hplace
    exact ⟨trail', (List.suffix_cons _ _).trans suffix, again⟩

/-- A text is cut off if and only if a cycle can be reached. -/
theorem Draws.cuts_eq_nil_iff (draws : h.Draws way v text cuts) (trail : Trail h.Shows (v :: way)) :
    cuts = [] ↔ ¬ ReachesCycle h.Shows v := by
  refine ⟨fun whole => (draws.renders whole).not_reachesCycle, fun acyclic => ?_⟩
  refine List.eq_nil_iff_forall_not_mem.mpr fun place hplace => acyclic ?_
  obtain ⟨trail', suffix, u, around, rfl, again⟩ := draws.trail trail place hplace
  exact trail'.reachesCycle again (suffix.subset List.mem_cons_self)

end Heap

end TracedHeap
