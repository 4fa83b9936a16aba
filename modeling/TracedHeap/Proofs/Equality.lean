import Mathlib.Data.Finset.Prod
import TracedHeap.Proofs.Bisimilarity
import TracedHeap.Proofs.Cycles
import TracedHeap.Proofs.Recycling
import TracedHeap.Proofs.Sequences

/-!
# Equality of containers is bisimilarity

A comparison goes through arrays and lists element by element.  A pair that is being compared already
counts as equal, so a comparison that comes back to itself ends; and nothing is remembered of
pairs that were compared before.  On a heap of containers this finds out whether two values are
bisimilar.

* `Heap.Contained`       every instance is a container with a payload of its type, and can be read;
* `Run.Decides`          a computation changes nothing and answers a question, where the pairs that
                         count as equal leave some room;
* `Heap.unmet`           how many pairs are not being compared.  It goes down with every comparison
                         inside another one, so comparisons end;
* `equal_iff_bisimilar`  what `equal` finds out.
-/

namespace TracedHeap

open Run

/-! ## Heaps of containers -/

def Containers.fits (c : Containers) (d : Descriptor) : Payload → Bool
  | .items _ => d = c.array ∨ d = c.list
  | .text _ => d = c.string
  | .table _ => d = c.table
  | .words _ => d = c.quotation
  | .int _ | .unit => false

/-- The container types compare as they do when they are registered, every instance is of one of
them and has a payload of its type, and none is being written. -/
structure Heap.Contained (c : Containers) (h : Heap) : Prop where
  array : h.registry.callback? c.array .equal = some (.routine .arrayEqual)
  list : h.registry.callback? c.list .equal = some (.routine .arrayEqual)
  string : h.registry.callback? c.string .equal = some (.routine .stringEqual)
  table : h.registry.callback? c.table .equal = none
  quotation : h.registry.callback? c.quotation .equal = none
  fits : ∀ id x, h.pool.get? id = some x → c.fits x.descriptor x.payload = true
  readable : ∀ id x, h.pool.get? id = some x → x.borrow.readable = true

/-- How an instance is compared, and what is in it. -/
inductive Instance.ComparedBy (c : Containers) (x : Instance) : Option (Callback .equal) → Prop where
  | elements (xs : List Value) : x.descriptor = c.array ∨ x.descriptor = c.list →
      x.payload = .items xs → ComparedBy c x (some (.routine .arrayEqual))
  | text (s : String) : x.descriptor = c.string → x.payload = .text s →
      ComparedBy c x (some (.routine .stringEqual))
  | identity : (∀ xs, x.payload ≠ .items xs) → (∀ s, x.payload ≠ .text s) → ComparedBy c x none

namespace Heap.Contained

variable {c : Containers} {h : Heap} {id : InstanceId} {x : Instance}

theorem comparedBy (contained : h.Contained c) (hx : h.pool.get? id = some x) :
    x.ComparedBy c (h.registry.callback? x.descriptor .equal) := by
  have fits := contained.fits id x hx
  cases hp : x.payload with
  | items xs =>
    rw [hp] at fits
    have hd : x.descriptor = c.array ∨ x.descriptor = c.list := of_decide_eq_true fits
    have hc : h.registry.callback? x.descriptor .equal = some (.routine .arrayEqual) := by
      rcases hd with heq | heq
      · rw [heq, contained.array]
      · rw [heq, contained.list]
    rw [hc]
    exact .elements xs hd hp
  | text s =>
    rw [hp] at fits
    have hd : x.descriptor = c.string := of_decide_eq_true fits
    rw [hd, contained.string]
    exact .text s hd hp
  | table es =>
    rw [hp] at fits
    have hd : x.descriptor = c.table := of_decide_eq_true fits
    rw [hd, contained.table]
    exact .identity (by simp [hp]) (by simp [hp])
  | words ws =>
    rw [hp] at fits
    have hd : x.descriptor = c.quotation := of_decide_eq_true fits
    rw [hd, contained.quotation]
    exact .identity (by simp [hp]) (by simp [hp])
  | int | unit =>
    rw [hp] at fits
    cases fits

theorem read_eq_ok (contained : h.Contained c) (hx : h.pool.get? id = some x) {k : Kind}
    {content : k.Content} (hp : x.payload = .of k content) : h.read (.ref id) k = .ok content := by
  rw [h.read_of_get? hx (contained.readable id x hx), hp, Payload.as?_of]

theorem is_string (contained : h.Contained c) (hx : h.pool.get? id = some x) {s : String}
    (hp : x.payload = .text s) : h.Is (.ref id) c.string (.text s) := by
  have fits := contained.fits id x hx
  rw [hp] at fits
  exact ⟨x, hx, of_decide_eq_true fits, hp⟩

theorem items_of_descriptor (contained : h.Contained c) {other : InstanceId} {y : Instance}
    (hx : h.pool.get? id = some x) {xs : List Value} (hp : x.payload = .items xs)
    (hy : h.pool.get? other = some y) (hyd : y.descriptor = x.descriptor) :
    ∃ ys, y.payload = .items ys := by
  have compared := contained.comparedBy hx
  have compared' := contained.comparedBy hy
  rw [hyd] at compared'
  cases hc : h.registry.callback? x.descriptor .equal with
  | none =>
    rw [hc] at compared
    cases compared with
    | identity hitems _ => exact absurd hp (hitems xs)
  | some k =>
    rw [hc] at compared compared'
    cases compared with
    | text s _ hp' =>
      rw [hp] at hp'
      cases hp'
    | elements _ _ _ =>
      cases compared' with
      | elements ys _ hyp => exact ⟨ys, hyp⟩

end Heap.Contained

namespace Heap

variable {h : Heap} {id : InstanceId} {x : Instance}

theorem is_of_get? (hx : h.pool.get? id = some x) : h.Is (.ref id) x.descriptor x.payload :=
  ⟨x, hx, rfl, rfl⟩

theorem Is.exists_get? {v : Value} {d : Descriptor} {p : Payload} (hv : h.Is v d p) :
    ∃ id x, v = .ref id ∧ h.pool.get? id = some x ∧ x.descriptor = d ∧ x.payload = p := by
  obtain ⟨x, hx, hd, hp⟩ := hv
  cases v with
  | ref id => exact ⟨id, x, rfl, hx, hd, hp⟩
  | _ => cases hx

theorem exists_get?_of_descriptorOf {u : Value} (hx : h.pool.get? id = some x)
    (same : h.descriptorOf (.ref id) = h.descriptorOf u) :
    ∃ other y, u = .ref other ∧ h.pool.get? other = some y ∧ y.descriptor = x.descriptor := by
  have hself : h.descriptorOf (.ref id) = some x.descriptor := by
    show (h.pool.get? id).map _ = _
    rw [hx]
    rfl
  rw [hself] at same
  obtain ⟨y, hy, hyd⟩ := Option.map_eq_some_iff.mp same.symm
  obtain ⟨other, z, rfl, hz, hzd, _⟩ := Is.exists_get? ⟨y, hy, rfl, rfl⟩
  exact ⟨other, z, rfl, hz, hzd.trans hyd⟩

end Heap

/-! ## Answers -/

/-- The computation changes nothing.  It answers yes only if `P`, and it does if `Q`. -/
def Run.Decides (x : Run Bool) (w : World) (P Q : Prop) : Prop :=
  ∃ b, x.exec w = (.ok b, w) ∧ (b = true → P) ∧ (Q → b = true)

section
variable {w : World} {P Q : Prop} {x y : Run Bool}

theorem decides_of_exec {b : Bool} (hexec : x.exec w = (.ok b, w)) (yes : b = true → P)
    (no : Q → b = true) : x.Decides w P Q := ⟨b, hexec, yes, no⟩

theorem Run.Decides.of_exec_eq (hy : y.Decides w P Q) (heq : x.exec w = y.exec w) :
    x.Decides w P Q := by
  obtain ⟨b, hexec, yes, no⟩ := hy
  exact ⟨b, heq.trans hexec, yes, no⟩

/-- Whether all pairs are equal is decided if it is decided for each of them. -/
theorem decides_allEqual {r : Runner} {P Q : Value × Value → Prop} (ps : List (Value × Value))
    (each : ∀ p ∈ ps, (equal r p.1 p.2).Decides w (P p) (Q p)) :
    (allEqual r ps).Decides w (∀ p ∈ ps, P p) (∀ p ∈ ps, Q p) := by
  induction ps with
  | nil => exact ⟨true, rfl, fun _ => List.forall_mem_nil _, fun _ => rfl⟩
  | cons p ps ih =>
    obtain ⟨first, rest⟩ := List.forall_mem_cons.mp each
    obtain ⟨b, hexec, yes, no⟩ := first
    have hbind := (bind_of_ok hexec fun b => if b = true then allEqual r ps else pure false).1
    cases b with
    | false =>
      refine ⟨false, hbind, Bool.noConfusion, fun all => ?_⟩
      exact no (all p List.mem_cons_self)
    | true =>
      obtain ⟨b', hexec', yes', no'⟩ := ih rest
      refine ⟨b', hbind.trans hexec', fun hb' => ?_, fun all => ?_⟩
      · exact List.forall_mem_cons.mpr ⟨yes rfl, yes' hb'⟩
      · exact no' (List.forall_mem_cons.mp all).2

def World.comparingPair (w : World) (v u : Value) : World :=
  { w with comparing := (v, u) :: w.comparing }

theorem decides_guardCompare {v u : Value} (fresh : (v, u) ∉ w.comparing)
    (inside : x.Decides (w.comparingPair v u) P Q) : (guardCompare v u x).Decides w P Q := by
  obtain ⟨b, hexec, yes, no⟩ := inside
  refine ⟨b, ?_, yes, no⟩
  unfold guardCompare
  rw [exec_bind, world, exec_look]
  simp only [id_eq]
  rw [if_neg fresh, exec_bind, exec_note]
  -- the pair is taken from the list again, whatever happened
  have hfst := exec_ensuring_fst x (note fun c => { c with comparing := c.comparing.tail })
    (w.comparingPair v u)
  have hsnd := exec_ensuring_snd x (note fun c => { c with comparing := c.comparing.tail })
    (w.comparingPair v u)
  rw [hexec] at hfst hsnd
  exact Prod.ext hfst hsnd

theorem exec_guardCompare_of_mem {v u : Value} (known : (v, u) ∈ w.comparing) (x : Run Bool) :
    (guardCompare v u x).exec w = (.ok true, w) := by
  unfold guardCompare
  rw [exec_bind, world, exec_look]
  simp only [id_eq]
  rw [if_pos known]
  rfl

end

/-! ## Pairs -/

/-- How many pairs of instances are not in a list. -/
def Heap.unmet (h : Heap) (S : List (Value × Value)) : Nat :=
  ((h.liveValues ×ˢ h.liveValues) \ S.toFinset).card

theorem Heap.unmet_cons_lt {h : Heap} {S : List (Value × Value)} {v u : Value}
    (hv : v ∈ h.liveValues) (hu : u ∈ h.liveValues) (fresh : (v, u) ∉ S) :
    h.unmet ((v, u) :: S) < h.unmet S := by
  unfold unmet
  rw [List.toFinset_cons, Finset.sdiff_insert]
  refine Finset.card_erase_lt_of_mem (Finset.mem_sdiff.mpr ⟨Finset.mk_mem_product hv hu, ?_⟩)
  rwa [List.mem_toFinset]

theorem Heap.unmet_le (h : Heap) (S : List (Value × Value)) :
    h.unmet S ≤ h.pool.instances.length * h.pool.instances.length := by
  calc h.unmet S ≤ (h.liveValues ×ˢ h.liveValues).card := Finset.card_le_card Finset.sdiff_subset
    _ = h.liveValues.card * h.liveValues.card := Finset.card_product _ _
    _ ≤ h.pool.instances.length * h.pool.instances.length :=
      Nat.mul_le_mul h.card_liveValues_le h.card_liveValues_le

/-! ## Comparisons -/

section
variable {c : Containers} {w : World} {n : Nat} {id : InstanceId} {x : Instance} {u v : Value}

theorem exec_equal_of_no_callback (r : Runner)
    (hc : ∀ k, w.heap.callback .equal v ≠ .ok (some k)) :
    (equal r v u).exec w = (.ok (v == u), w) := by
  unfold equal
  rw [exec_bind, heap, exec_look]
  rcases hv : w.heap.callback .equal v with e | k | k
  · simp only [hv]
    rfl
  · simp only [hv]
    rfl
  · exact absurd hv (hc k)

theorem exec_equal_of_callback {k : Routine .equal} (hx : w.heap.pool.get? id = some x)
    (hc : w.heap.registry.callback? x.descriptor .equal = some (.routine k)) :
    (equal (.ofDepth (n + 1)) (.ref id) u).exec w = (k.run (.ofDepth n) (.ref id, u)).exec w := by
  unfold equal
  rw [exec_bind, heap, exec_look]
  simp only [Heap.callback_of_get? hx, hc]
  exact (run_ofDepth_succ n (.routine k) (.ref id, u) w).1

/-- A value that is no string, array or list is bisimilar to itself only. -/
theorem decides_identity (r : Runner) (hc : ∀ k, w.heap.callback .equal v ≠ .ok (some k))
    (plain : ∀ d p, w.heap.Is v d p → (∀ xs, p ≠ .items xs) ∧ ∀ s, p ≠ .text s) :
    (equal r v u).Decides w (w.heap.BisimilarUpTo c w.comparing v u) (w.heap.Bisimilar c v u) := by
  refine decides_of_exec (exec_equal_of_no_callback r hc) (fun same => ?_) fun bisimilar => ?_
  · cases eq_of_beq same
    exact .of_matches (.same _)
  · cases bisimilar.matches_self with
    | same => exact beq_self_eq_true _
    | texts hv _ => exact absurd rfl ((plain _ _ hv).2 _)
    | items _ hv _ _ => exact absurd rfl ((plain _ _ hv).1 _)

theorem decides_stringEqual (contained : w.heap.Contained c) (hx : w.heap.pool.get? id = some x)
    (hd : x.descriptor = c.string) {s : String} (hp : x.payload = .text s) :
    (stringEqual (.ref id) u).Decides w (w.heap.BisimilarUpTo c w.comparing (.ref id) u)
      (w.heap.Bisimilar c (.ref id) u) := by
  have hv : w.heap.Is (.ref id) c.string (.text s) := ⟨x, hx, hd, hp⟩
  have hread : w.heap.read (.ref id) .text = .ok s := contained.read_eq_ok hx hp
  have refuse : ∀ {e}, w.heap.read u .text = .error e →
      ¬ w.heap.Bisimilar c (.ref id) u := by
    intro e hu bisimilar
    cases bisimilar.matches_self with
    | same =>
      rw [hread] at hu
      cases hu
    | texts _ hu' =>
      obtain ⟨other, y, rfl, hy, _, hyp⟩ := hu'.exists_get?
      rw [contained.read_eq_ok (k := .text) hy hyp] at hu
      cases hu
    | items _ hv' _ _ => cases (hv.unique hv').2
  unfold stringEqual
  cases hu : w.heap.read u .text with
  | error e =>
    refine decides_of_exec (b := false) ?_ Bool.noConfusion fun bisimilar =>
      absurd bisimilar (refuse hu)
    rw [exec_bind, heap, exec_look]
    simp only [hread, hu]
    rfl
  | ok t =>
    obtain ⟨other, y, rfl, hy, hyp⟩ := Heap.read_eq_ok hu
    have hut := contained.is_string hy hyp
    refine decides_of_exec (b := s == t) ?_ (fun yes => ?_) fun bisimilar => ?_
    · rw [exec_bind, heap, exec_look]
      simp only [hread, hu]
      rfl
    · cases eq_of_beq yes
      exact .of_matches (.texts hv hut)
    · cases bisimilar.matches_self with
      | same =>
        cases (hv.unique hut).2
        exact beq_self_eq_true s
      | texts hv' hu' =>
        cases (hv.unique hv').2
        cases (hut.unique hu').2
        exact beq_self_eq_true s
      | items _ hv' _ _ => cases (hv.unique hv').2

def compareElements (r : Runner) (v u : Value) : Run Bool := do
  let h ← heap
  match h.read v .items, h.read u .items with
  | .ok xs, .ok ys => if xs.length = ys.length then allEqual r (xs.zip ys) else return false
  | _, _ => return false

theorem arrayEqual_eq (r : Runner) (v u : Value) : arrayEqual r v u =
    if v = u then pure true
    else heap >>= fun h =>
      if h.descriptorOf v ≠ h.descriptorOf u then pure false
      else guardCompare v u (compareElements r v u) := rfl

theorem decides_compareElements {r : Runner} {R S : Value → Value → Prop} {xs ys : List Value}
    (hxs : w.heap.read v .items = .ok xs) (hys : w.heap.read u .items = .ok ys)
    (each : ∀ a ∈ xs, ∀ b ∈ ys, (equal r a b).Decides w (R a b) (S a b)) :
    (compareElements r v u).Decides w (List.Forall₂ R xs ys) (List.Forall₂ S xs ys) := by
  have hexec : (compareElements r v u).exec w =
      (if xs.length = ys.length then allEqual r (xs.zip ys) else pure false : Run Bool).exec w := by
    unfold compareElements
    rw [exec_bind, heap, exec_look]
    simp only [hxs, hys]
  refine Decides.of_exec_eq ?_ hexec
  by_cases hlength : xs.length = ys.length
  · rw [if_pos hlength]
    obtain ⟨b, hall, yes, no⟩ := decides_allEqual (P := fun p => R p.1 p.2)
      (Q := fun p => S p.1 p.2) (xs.zip ys) fun p hp =>
        each p.1 (List.of_mem_zip hp).1 p.2 (List.of_mem_zip hp).2
    refine ⟨b, hall, fun hb => ?_, fun all => ?_⟩
    · exact List.forall₂_iff_zip.mpr ⟨hlength, fun {a b} hab => yes hb (a, b) hab⟩
    · exact no fun p hp => (List.forall₂_iff_zip.mp all).2 hp
  · rw [if_neg hlength]
    exact ⟨false, rfl, Bool.noConfusion, fun all => absurd all.length_eq hlength⟩

/-- An array or a list is bisimilar to those of the same type with bisimilar elements, if it is
decided which elements are bisimilar where the two count as equal. -/
theorem decides_arrayEqual (contained : w.heap.Contained c) {r : Runner}
    (hx : w.heap.pool.get? id = some x) (hd : x.descriptor = c.array ∨ x.descriptor = c.list)
    {xs : List Value} (hp : x.payload = .items xs)
    (each : (.ref id, u) ∉ w.comparing → u ∈ w.heap.liveValues → ∀ a b,
      (equal r a b).Decides (w.comparingPair (.ref id) u)
        (w.heap.BisimilarUpTo c ((.ref id, u) :: w.comparing) a b) (w.heap.Bisimilar c a b)) :
    (arrayEqual r (.ref id) u).Decides w (w.heap.BisimilarUpTo c w.comparing (.ref id) u)
      (w.heap.Bisimilar c (.ref id) u) := by
  have hv : w.heap.Is (.ref id) x.descriptor (.items xs) := ⟨x, hx, rfl, hp⟩
  rw [arrayEqual_eq]
  by_cases hne : .ref id = u
  · rw [if_pos hne]
    subst hne
    exact decides_of_exec rfl (fun _ => .of_matches (.same _)) fun _ => rfl
  rw [if_neg hne]
  have hbind := (bind_of_ok (exec_look (fun w => w.heap) w) fun h =>
    if h.descriptorOf (.ref id) ≠ h.descriptorOf u then pure false
    else guardCompare (.ref id) u (compareElements r (.ref id) u)).1
  refine Decides.of_exec_eq ?_ hbind
  by_cases same : w.heap.descriptorOf (.ref id) = w.heap.descriptorOf u
  · rw [if_neg (not_not_intro same)]
    obtain ⟨other, y, rfl, hy, hyd⟩ := Heap.exists_get?_of_descriptorOf hx same
    obtain ⟨ys, hyp⟩ := contained.items_of_descriptor hx hp hy hyd
    have hu : w.heap.Is (.ref other) x.descriptor (.items ys) := ⟨y, hy, hyd, hyp⟩
    by_cases known : (.ref id, .ref other) ∈ w.comparing
    · exact decides_of_exec (exec_guardCompare_of_mem known _) (fun _ => .of_mem known) fun _ => rfl
    · refine decides_guardCompare known ?_
      have elements := decides_compareElements (w := w.comparingPair (.ref id) (.ref other))
        (contained.read_eq_ok (k := .items) hx hp) (contained.read_eq_ok (k := .items) hy hyp)
        fun a _ b _ => each known (Heap.mem_liveValues hy) a b
      obtain ⟨b, hexec, yes, no⟩ := elements
      refine ⟨b, hexec, fun hb => .of_cons (.items hd hv hu (yes hb)), fun bisimilar => ?_⟩
      cases bisimilar.matches_self with
      | same => exact absurd rfl hne
      | texts hv' _ => cases (hv.unique hv').2
      | items _ hv' hu' all =>
        cases (hv.unique hv').2
        cases (hu.unique hu').2
        exact no all
  · rw [if_pos same]
    refine decides_of_exec rfl Bool.noConfusion fun bisimilar => ?_
    cases bisimilar.matches_self with
    | same => exact absurd rfl hne
    | texts hv' _ => cases (hv.unique hv').2
    | items _ hv' hu' _ =>
      obtain ⟨y, hy, hyd, _⟩ := hu'
      refine absurd ?_ same
      rw [Heap.descriptorOf, Heap.descriptorOf, hy]
      obtain ⟨z, hz, hzd, _⟩ := hv'
      rw [hz, Option.map_some, Option.map_some, hzd, hyd]

/-- A comparison that may go deep enough finds out whether two values are bisimilar.  The induction
is on the depth; the elements of two arrays are compared where one more pair is in progress, so
there are fewer pairs to come. -/
theorem decides_equal {h : Heap} (contained : h.Contained c) (n : Nat) :
    ∀ w : World, w.heap = h → h.unmet w.comparing < n → ∀ v u,
      (equal (.ofDepth n) v u).Decides w (h.BisimilarUpTo c w.comparing v u)
        (h.Bisimilar c v u) := by
  induction n with
  | zero => exact fun _ _ enough => absurd enough (Nat.not_lt_zero _)
  | succ n ih =>
    rintro w rfl enough v u
    cases v with
    | ref id =>
      cases hx : w.heap.pool.get? id with
      | none =>
        refine decides_identity _ ?_ ?_
        · intro k hk
          rw [Heap.callback_of_none hx] at hk
          cases hk
        · rintro d p ⟨x, hx', _⟩
          cases hx'.symm.trans hx
      | some x =>
        have compared := contained.comparedBy hx
        cases hc : w.heap.registry.callback? x.descriptor .equal with
        | none =>
          rw [hc] at compared
          refine decides_identity _ ?_ ?_
          · intro k hk
            rw [Heap.callback_of_get? hx, hc] at hk
            cases hk
          · intro d p hv
            cases compared with
            | identity hitems htext =>
              cases (hv.unique (Heap.is_of_get? hx)).2
              exact ⟨hitems, htext⟩
        | some k =>
          rw [hc] at compared
          cases compared with
          | text s hd hp =>
            exact (decides_stringEqual contained hx hd hp).of_exec_eq (exec_equal_of_callback hx hc)
          | elements xs hd hp =>
            refine Decides.of_exec_eq ?_ (exec_equal_of_callback hx hc)
            refine decides_arrayEqual contained hx hd hp fun fresh hu => ?_
            have fewer := Heap.unmet_cons_lt (Heap.mem_liveValues hx) hu fresh
            exact ih (w.comparingPair (.ref id) u) rfl (by
              show w.heap.unmet ((.ref id, u) :: w.comparing) < n
              omega)
    | _ =>
      refine decides_identity _ nofun ?_
      rintro d p ⟨x, hx, _⟩
      cases hx

theorem exec_equal (contained : w.heap.Contained c) (idle : w.comparing = [])
    (enough : w.heap.pool.instances.length * w.heap.pool.instances.length < n) (v u : Value) :
    ∃ b, (equal (.ofDepth n) v u).exec w = (.ok b, w) ∧
      (b = true ↔ w.heap.Bisimilar c v u) := by
  have deep : w.heap.unmet w.comparing < n := Nat.lt_of_le_of_lt (w.heap.unmet_le _) enough
  obtain ⟨b, hexec, yes, no⟩ := decides_equal contained n w rfl deep v u
  refine ⟨b, hexec, fun hb => ?_, no⟩
  have upTo := yes hb
  rw [idle] at upTo
  exact upTo.bisimilar

/-- Equality of containers is bisimilarity.

On a heap of containers none of which is being written, where no comparison goes on, any two values
can be compared, those that stand for no instance included.  The comparison comes to its end, if
callbacks may run as deep as there are pairs of instances; it changes nothing; and it answers whether
the values are related by the largest relation in which related values are the same, or strings with
the same text, or arrays or else lists with as many elements, related in order.  So to be equal is
reflexive, symmetric and transitive. -/
theorem equal_iff_bisimilar (contained : w.heap.Contained c) (idle : w.comparing = [])
    (enough : w.heap.pool.instances.length * w.heap.pool.instances.length < n) :
    (∀ v u, ∃ b, (equal (.ofDepth n) v u).exec w = (.ok b, w) ∧
        (b = true ↔ w.heap.Bisimilar c v u)) ∧
      IsGreatest {R | ∀ v u, R v u → w.heap.Matches c R v u} (w.heap.Bisimilar c) ∧
      Equivalence fun v u => ((equal (.ofDepth n) v u).exec w).1 = .ok true := by
  have answers := exec_equal contained idle enough
  have hequal : (fun v u => ((equal (.ofDepth n) v u).exec w).1 = .ok true) =
      w.heap.Bisimilar c := by
    funext v u
    obtain ⟨b, hexec, hb⟩ := answers v u
    rw [hexec, ← hb]
    exact propext ⟨Except.ok.inj, congrArg Except.ok⟩
  refine ⟨answers, Heap.Bisimilar.isGreatest c w.heap, ?_⟩
  rw [hequal]
  exact Heap.Bisimilar.equivalence c w.heap

end

/-! ## Sessions -/

theorem Descriptor.fits_of_content? {d : Descriptor} {p : Payload}
    (h : d.content? = some p.kind) : Containers.standard.fits d p = true := by
  rcases d with ⟨_ | _ | _ | _ | _ | i⟩ <;> cases p <;> first | rfl | cases h

theorem Heap.Truthful.contained {past : List Transition} {h : Heap} (truthful : h.Truthful past) :
    h.Contained .standard where
  array := truthful.stocked.callback?_of_table (i := 0) rfl .equal
  list := truthful.stocked.callback?_of_table (i := 1) rfl .equal
  string := truthful.stocked.callback?_of_table (i := 2) rfl .equal
  table := truthful.stocked.callback?_of_table (i := 3) rfl .equal
  quotation := truthful.stocked.callback?_of_table (i := 4) rfl .equal
  fits id x hx := Descriptor.fits_of_content? (truthful.fits id x hx)
  readable := truthful.readable

theorem equal_iff_bisimilar_mutualArrays :
    let h := (mutualArrays.closing (.ofDepth 4)).heap
    h.Bisimilar .standard (.ref ⟨0, 0⟩) (.ref ⟨1, 0⟩) ∧
      ¬ h.Bisimilar .standard (.ref ⟨0, 0⟩) (.ref ⟨2, 0⟩) := by
  intro h
  have contained : h.Contained .standard :=
    (mutualArrays.visits_closing (.ofDepth 4) rfl rfl (by decide +kernel)).truthful.heap.contained
  obtain ⟨answers, _, _⟩ := equal_iff_bisimilar (n := 10) contained (by decide +kernel)
    (by decide +kernel)
  have hyes : ((equal (.ofDepth 10) (.ref ⟨0, 0⟩) (.ref ⟨1, 0⟩)).exec
      (mutualArrays.closing (.ofDepth 4))).1.toOption = some true := by decide +kernel
  have hno : ((equal (.ofDepth 10) (.ref ⟨0, 0⟩) (.ref ⟨2, 0⟩)).exec
      (mutualArrays.closing (.ofDepth 4))).1.toOption = some false := by decide +kernel
  constructor
  · obtain ⟨b, hexec, hb⟩ := answers (.ref ⟨0, 0⟩) (.ref ⟨1, 0⟩)
    rw [hexec] at hyes
    exact hb.mp (Option.some.inj hyes)
  · obtain ⟨b, hexec, hb⟩ := answers (.ref ⟨0, 0⟩) (.ref ⟨2, 0⟩)
    rw [hexec] at hno
    rw [← hb, Option.some.inj hno]
    exact Bool.noConfusion

end TracedHeap
