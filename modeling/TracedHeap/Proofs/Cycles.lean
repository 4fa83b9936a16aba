import Mathlib.Data.Finset.Card
import Mathlib.Data.List.Chain
import Mathlib.Data.List.Forall2
import Mathlib.Logic.Relation
import TracedHeap.Proofs.Slots

/-!
# Cycles

Instances can hold themselves, directly or through others.  A walk from values to what they hold ends
if it does not go on from a value that it comes back to, since there are only so many instances.

* `ReachesCycle`                     from a value one gets into a cycle;
* `Trail`                            a way on which each value holds the next one;
* `Heap.liveValues`, `Heap.unseen`   the values that stand for instances, and how many of them are
                                     not on a way.
-/

namespace TracedHeap

/-! ## Ways and cycles -/

/-- From the value one gets to one from which one gets back to it. -/
def ReachesCycle (holds : Value → Value → Prop) (v : Value) : Prop :=
  ∃ u, Relation.ReflTransGen holds v u ∧ Relation.TransGen holds u u

/-- A way, its end first: each value is held by the one that follows in the list. -/
def Trail (holds : Value → Value → Prop) (way : List Value) : Prop :=
  way.IsChain fun x y => holds y x

section
variable {holds : Value → Value → Prop} {u v x : Value} {way : List Value}

theorem ReachesCycle.exists_step (cycle : ReachesCycle holds v) :
    ∃ x, holds v x ∧ ReachesCycle holds x := by
  obtain ⟨u, reach, round⟩ := cycle
  rcases reach.cases_head with rfl | ⟨x, step, rest⟩
  · obtain ⟨x, step, rest⟩ := Relation.TransGen.head'_iff.mp round
    exact ⟨x, step, v, rest, round⟩
  · exact ⟨x, step, u, rest, round⟩

theorem trail_singleton (v : Value) : Trail holds [v] := List.isChain_singleton v

theorem Trail.step (trail : Trail holds (v :: way)) (step : holds v x) :
    Trail holds (x :: v :: way) := List.isChain_cons_cons.mpr ⟨step, trail⟩

theorem Trail.transGen (trail : Trail holds (v :: way)) (hu : u ∈ way) :
    Relation.TransGen holds u v := by
  induction way generalizing v with
  | nil => cases hu
  | cons y way ih =>
    obtain ⟨step, trail⟩ := List.isChain_cons_cons.mp trail
    rcases List.mem_cons.mp hu with rfl | hu
    · exact .single step
    · exact (ih trail hu).tail step

theorem Trail.reflTransGen (trail : Trail holds (v :: way)) (hu : u ∈ v :: way) :
    Relation.ReflTransGen holds u v := by
  rcases List.mem_cons.mp hu with rfl | hu
  · exact .refl
  · exact (trail.transGen hu).to_reflTransGen

/-- Who comes back to a value of the way is in a cycle, and so it is reached from the whole way. -/
theorem Trail.reachesCycle (trail : Trail holds (v :: way)) (again : v ∈ way) (hu : u ∈ v :: way) :
    ReachesCycle holds u :=
  ⟨v, trail.reflTransGen hu, trail.transGen again⟩

end

/-! ## Values side by side -/

section
variable {α β : Type} {xs : List α} {ys : List β}

theorem exists_forall₂ {R : α → β → Prop} (each : ∀ x ∈ xs, ∃ y, R x y) :
    ∃ ys, List.Forall₂ R xs ys := by
  induction xs with
  | nil => exact ⟨[], .nil⟩
  | cons x xs ih =>
    obtain ⟨y, hy⟩ := each x List.mem_cons_self
    obtain ⟨ys, hys⟩ := ih fun x hx => each x (List.mem_cons_of_mem _ hx)
    exact ⟨y :: ys, .cons hy hys⟩

theorem exists_between {γ : Type} {R : α → γ → Prop} {f : γ → β}
    (each : List.Forall₂ (fun x y => ∃ z, R x z ∧ f z = y) xs ys) :
    ∃ zs, List.Forall₂ R xs zs ∧ zs.map f = ys := by
  induction each with
  | nil => exact ⟨[], .nil, rfl⟩
  | cons first _ ih =>
    obtain ⟨z, hz, rfl⟩ := first
    obtain ⟨zs, hzs, rfl⟩ := ih
    exact ⟨z :: zs, .cons hz hzs, rfl⟩

theorem forall₂_unique {R S : α → β → Prop} {zs : List β}
    (unique : ∀ x y z, R x y → S x z → y = z) (hys : List.Forall₂ R xs ys)
    (hzs : List.Forall₂ S xs zs) : ys = zs := by
  induction hys generalizing zs with
  | nil =>
    cases hzs
    rfl
  | cons hy _ ih =>
    cases hzs with
    | cons hz hzs => rw [unique _ _ _ hy hz, ih hzs]

theorem exists_mem_zip_of_mem_left (hlength : ys.length = xs.length) {x : α} (hx : x ∈ xs) :
    ∃ y, (x, y) ∈ xs.zip ys := by
  rw [← List.map_fst_zip hlength.ge] at hx
  obtain ⟨⟨_, y⟩, hmem, rfl⟩ := List.mem_map.mp hx
  exact ⟨y, hmem⟩

theorem exists_mem_zip_of_mem_right (hlength : ys.length = xs.length) {y : β} (hy : y ∈ ys) :
    ∃ x, (x, y) ∈ xs.zip ys := by
  rw [← List.map_snd_zip hlength.le] at hy
  obtain ⟨⟨x, _⟩, hmem, rfl⟩ := List.mem_map.mp hy
  exact ⟨x, hmem⟩

end

/-! ## Instances that are not on a way -/

namespace Heap

variable {h : Heap} {v : Value} {way : List Value}

def liveValues (h : Heap) : Finset Value :=
  (h.pool.instances.map fun e => Value.ref e.1).toFinset

theorem mem_liveValues {id : InstanceId} {x : Instance} (hx : h.pool.get? id = some x) :
    .ref id ∈ h.liveValues :=
  List.mem_toFinset.mpr (List.mem_map.mpr ⟨(id, x), Pool.mem_instances.mpr hx, rfl⟩)

theorem card_liveValues_le (h : Heap) : h.liveValues.card ≤ h.pool.instances.length := by
  have hle := List.toFinset_card_le (h.pool.instances.map fun e => Value.ref e.1)
  rwa [List.length_map] at hle

/-- How many instances are not on a way. -/
def unseen (h : Heap) (way : List Value) : Nat := (h.liveValues \ way.toFinset).card

theorem unseen_cons_lt (hv : v ∈ h.liveValues) (fresh : v ∉ way) :
    h.unseen (v :: way) < h.unseen way := by
  unfold unseen
  rw [List.toFinset_cons, Finset.sdiff_insert]
  refine Finset.card_erase_lt_of_mem (Finset.mem_sdiff.mpr ⟨hv, ?_⟩)
  rwa [List.mem_toFinset]

theorem unseen_le (h : Heap) (way : List Value) : h.unseen way ≤ h.pool.instances.length :=
  (Finset.card_le_card Finset.sdiff_subset).trans h.card_liveValues_le

end Heap

end TracedHeap
