import TracedHeap.Proofs.Data
import TracedHeap.Proofs.Equality
import TracedHeap.Proofs.Inspection

/-!
# Printed data are unambiguous

What a value stands for, if it is made of immediates, strings, arrays and lists and holds itself
nowhere, is a datum.  Inspection writes the datum, and comparison compares the data; so two such
values have the same text if and only if they are equal.

* `Heap.Literate`         the container types show and compare their instances as they do when they
                          are registered;
* `Heap.IsDatum`          the values in question;
* `Heap.Denotes`          the datum of a value; there is one, and no other (`Denotes.unique`);
* `Renders.denotes`       the text of such a value is the text of its datum;
* `decides_equal_data`    such values are equal if they have the same datum;
* `inspect_eq_iff_equal`  they are equal if and only if they have the same text.
-/

namespace TracedHeap

open Run

/-! ## Types -/

def Shape.type (c : Containers) : Shape → Descriptor
  | array => c.array
  | list => c.list

def Shape.routine : Shape → Routine .inspect
  | array => .arrayInspect
  | list => .listInspect

/-- Strings, arrays and lists are shown and compared as they are when their types are registered. -/
structure Heap.Literate (c : Containers) (h : Heap) : Prop extends h.Inspectable where
  shows : ∀ shape : Shape,
    h.registry.callback? (shape.type c) .inspect = some (.routine shape.routine)
  compares : ∀ shape : Shape, h.registry.callback? (shape.type c) .equal = some (.routine .arrayEqual)
  showsText : h.registry.callback? c.string .inspect = some (.routine .stringInspect)
  comparesText : h.registry.callback? c.string .equal = some (.routine .stringEqual)

namespace Heap.Literate

variable {c : Containers} {h : Heap} {v : Value}

theorem shape_inj (ok : h.Literate c) {shape shape' : Shape} (heq : shape.type c = shape'.type c) :
    shape = shape' := by
  have hroutine := ok.shows shape
  rw [heq, ok.shows shape'] at hroutine
  cases shape <;> cases shape' <;> first | rfl | cases hroutine

theorem string_ne (ok : h.Literate c) (shape : Shape) : c.string ≠ shape.type c := by
  intro heq
  have hroutine := ok.shows shape
  rw [← heq, ok.showsText] at hroutine
  cases shape <;> cases hroutine

theorem sight_of_text (ok : h.Literate c) {s : String} (hv : h.Is v c.string (.text s)) :
    h.sight v = .bare (Text.quote s) := by
  obtain ⟨x, hx, hd, hp⟩ := hv
  simp only [Heap.sight, hx, hd, ok.showsText, Routine.sight, hp]
  rfl

theorem sight_of_items (ok : h.Literate c) {shape : Shape} {xs : List Value}
    (hv : h.Is v (shape.type c) (.items xs)) :
    h.sight v = .whole (.sequence shape.brackets) xs := by
  obtain ⟨x, hx, hd, hp⟩ := hv
  simp only [Heap.sight, hx, hd, ok.shows]
  cases shape <;> simp only [Shape.routine, Routine.sight, hp] <;> rfl

end Heap.Literate

theorem Heap.sight_of_atom (h : Heap) (a : Atom) : h.sight a.value = .bare a.value.render := by
  cases a <;> rfl

/-! ## Denotations -/

namespace Heap

inductive Element (c : Containers) (h : Heap) : Value → Prop where
  | atom (a : Atom) : Element c h a.value
  | text {v : Value} {s : String} : h.Is v c.string (.text s) → Element c h v
  | items {v : Value} {shape : Shape} {xs : List Value} :
      h.Is v (shape.type c) (.items xs) → Element c h v

/-- Immediates, strings, arrays and lists are all that is in the value, and no part of it holds
itself. -/
structure IsDatum (c : Containers) (h : Heap) (v : Value) : Prop where
  elements : ∀ u, Relation.ReflTransGen h.Shows v u → h.Element c u
  acyclic : ¬ ReachesCycle h.Shows v

/-- The datum of a value. -/
inductive Denotes (c : Containers) (h : Heap) : Value → Datum → Prop where
  | atom (a : Atom) : Denotes c h a.value (.atom a)
  | text {v : Value} {s : String} : h.Is v c.string (.text s) → Denotes c h v (.text s)
  | items {v : Value} {shape : Shape} {xs : List Value} (ts : List Datum) :
      h.Is v (shape.type c) (.items xs) → ts.length = xs.length →
      (∀ p ∈ xs.zip ts, Denotes c h p.1 p.2) → Denotes c h v (.items shape ts)

end Heap

section
variable {c : Containers} {h : Heap} {v u : Value} {t t' : Datum}

theorem Heap.Denotes.items_of_forall₂ {shape : Shape} {xs : List Value} {ts : List Datum}
    (hv : h.Is v (shape.type c) (.items xs)) (each : List.Forall₂ (h.Denotes c) xs ts) :
    h.Denotes c v (.items shape ts) := by
  obtain ⟨hlength, hzip⟩ := List.forall₂_iff_zip.mp each
  exact .items ts hv hlength.symm fun p hp => hzip hp

theorem Atom.not_is (a : Atom) (d : Descriptor) (p : Payload) : ¬ h.Is a.value d p := by
  rintro ⟨x, hx, _⟩
  cases a <;> cases hx

namespace Heap.Denotes

theorem eq_atom {a : Atom} (ht : h.Denotes c a.value t) : t = .atom a := by
  generalize hv : a.value = v at ht
  cases ht with
  | atom b => rw [Atom.value_injective hv]
  | text hs => exact absurd (hv ▸ hs) (a.not_is _ _)
  | items _ hs => exact absurd (hv ▸ hs) (a.not_is _ _)

theorem eq_text (ok : h.Literate c) {s : String} (hv : h.Is v c.string (.text s))
    (ht : h.Denotes c v t) : t = .text s := by
  cases ht with
  | atom b => exact absurd hv (b.not_is _ _)
  | text hs =>
    cases (hv.unique hs).2
    rfl
  | items _ hs => exact absurd (hv.unique hs).1.symm (ok.string_ne _)

theorem eq_items (ok : h.Literate c) {shape : Shape} {xs : List Value}
    (hv : h.Is v (shape.type c) (.items xs)) (ht : h.Denotes c v t) :
    ∃ ts, t = .items shape ts ∧ List.Forall₂ (h.Denotes c) xs ts := by
  cases ht with
  | atom b => exact absurd hv (b.not_is _ _)
  | text hs => exact absurd (hv.unique hs).1 (ok.string_ne _)
  | items ts hs hlength each =>
    obtain ⟨hd, hp⟩ := hv.unique hs
    cases hp
    cases ok.shape_inj hd
    exact ⟨ts, rfl, List.forall₂_iff_zip.mpr ⟨hlength.symm, fun hp => each _ hp⟩⟩

theorem unique (ok : h.Literate c) (ht : h.Denotes c v t) (ht' : h.Denotes c v t') : t = t' := by
  induction ht generalizing t' with
  | atom a => exact ht'.eq_atom.symm
  | text hv => exact (eq_text ok hv ht').symm
  | @items v shape xs ts hv hlength _ ih =>
    obtain ⟨ts', rfl, each'⟩ := eq_items ok hv ht'
    have each : List.Forall₂ (fun x t => ∀ t', h.Denotes c x t' → t = t') xs ts :=
      List.forall₂_iff_zip.mpr ⟨hlength.symm, fun hp _ ht' => ih _ hp ht'⟩
    rw [forall₂_unique (fun x t t' same ht' => same t' ht') each each']

end Heap.Denotes

theorem Heap.Denotes.isDatum (ok : h.Literate c) (ht : h.Denotes c v t) : h.IsDatum c v := by
  have bare : ∀ {v text}, h.sight v = .bare text → h.Element c v → h.IsDatum c v := by
    intro v text hv element
    have last : ∀ x, ¬ h.Shows v x := by
      rintro x ⟨_, _, hv', _⟩
      cases hv.symm.trans hv'
    refine ⟨fun u reach => ?_, fun cycle => ?_⟩
    · rcases reach.cases_head with rfl | ⟨x, step, _⟩
      · exact element
      · exact absurd step (last x)
    · obtain ⟨x, step, _⟩ := cycle.exists_step
      exact last x step
  induction ht with
  | atom a => exact bare (h.sight_of_atom a) (.atom a)
  | text hv => exact bare (ok.sight_of_text hv) (.text hv)
  | @items v shape xs ts hv hlength _ ih =>
    have part : ∀ x, h.Shows v x → h.IsDatum c x := by
      rintro x ⟨_, _, hv', hx⟩
      cases (ok.sight_of_items hv).symm.trans hv'
      obtain ⟨t, ht⟩ := exists_mem_zip_of_mem_left hlength hx
      exact ih _ ht
    refine ⟨fun u reach => ?_, fun cycle => ?_⟩
    · rcases reach.cases_head with rfl | ⟨x, step, rest⟩
      · exact .items hv
      · exact (part x step).elements u rest
    · obtain ⟨x, step, cycle⟩ := cycle.exists_step
      exact (part x step).acyclic cycle

theorem Heap.Renders.denotes (ok : h.Literate c) {text : String} (renders : h.Renders v text)
    (elements : ∀ u, Relation.ReflTransGen h.Shows v u → h.Element c u) :
    ∃ t : Datum, h.Denotes c v t ∧ t.render = text := by
  induction renders with
  | @bare v text hv =>
    cases elements v .refl with
    | atom a =>
      rw [h.sight_of_atom a] at hv
      cases hv
      exact ⟨.atom a, .atom a, by rw [Datum.render]⟩
    | @text _ s hs =>
      rw [ok.sight_of_text hs] at hv
      cases hv
      exact ⟨.text s, .text hs, by rw [Datum.render]⟩
    | items hs =>
      rw [ok.sight_of_items hs] at hv
      cases hv
  | @whole v layout parts texts hv hlength _ ih =>
    cases elements v .refl with
    | atom a =>
      rw [h.sight_of_atom a] at hv
      cases hv
    | text hs =>
      rw [ok.sight_of_text hs] at hv
      cases hv
    | @items _ shape xs hs =>
      have hsight := ok.sight_of_items hs
      rw [hsight] at hv
      cases hv
      have each : ∀ p ∈ parts.zip texts, ∃ t : Datum, h.Denotes c p.1 t ∧ t.render = p.2 :=
        fun p hp => ih p hp fun u reach =>
          elements u (.head ⟨_, _, hsight, (List.of_mem_zip hp).1⟩ reach)
      obtain ⟨ts, hts, rfl⟩ := exists_between
        (List.forall₂_iff_zip.mpr ⟨hlength.symm, fun hp => each _ hp⟩)
      exact ⟨.items shape ts, .items_of_forall₂ hs hts, by rw [Datum.render]; rfl⟩

end

/-! ## Comparisons -/

/-- The values have the same datum. -/
def Heap.Agree (c : Containers) (h : Heap) (v u : Value) : Prop :=
  ∃ t, h.Denotes c v t ∧ h.Denotes c u t

section
variable {c : Containers} {h : Heap} {v u : Value} {t t' : Datum} {xs ys : List Value}

theorem Heap.Denotes.agree_iff (ok : h.Literate c) (ht : h.Denotes c v t) (ht' : h.Denotes c u t') :
    h.Agree c v u ↔ t = t' := by
  constructor
  · rintro ⟨s, hv, hu⟩
    rw [ht.unique ok hv, ht'.unique ok hu]
  · rintro rfl
    exact ⟨t, ht, ht'⟩

theorem Heap.agree_items_iff (ok : h.Literate c) {shape : Shape}
    (hv : h.Is v (shape.type c) (.items xs)) (hu : h.Is u (shape.type c) (.items ys))
    (ht' : h.Denotes c u t') : h.Agree c v u ↔ List.Forall₂ (h.Agree c) xs ys := by
  constructor
  · rintro ⟨t, ht, ht'⟩
    obtain ⟨ts, rfl, hxs⟩ := ht.eq_items ok hv
    obtain ⟨us, heq, hys⟩ := ht'.eq_items ok hu
    cases heq
    exact forall₂_comp hxs (List.Forall₂.flip hys)
  · intro all
    obtain ⟨us, rfl, hys⟩ := ht'.eq_items ok hu
    have hxs : List.Forall₂ (h.Denotes c) xs us := by
      refine (forall₂_comp all hys).imp ?_
      rintro x t ⟨y, ⟨s, hx, hy⟩, hy'⟩
      rwa [← hy.unique ok hy']
    exact ⟨_, .items_of_forall₂ hv hxs, ht'⟩

end

section
variable {c : Containers} {w : World} {v u : Value} {t t' : Datum} {n : Nat}

theorem Heap.Literate.read {h : Heap} (ok : h.Literate c) {d : Descriptor} {p : Payload}
    (hv : h.Is v d p) {k : Kind} {content : k.Content} (hp : p.as? k = some content) :
    h.read v k = .ok content := by
  obtain ⟨id, x, rfl, hx, _, rfl⟩ := hv.exists_get?
  rw [h.read_of_get? hx (ok.readable id x hx), hp]

theorem Heap.Is.descriptorOf {h : Heap} {d : Descriptor} {p : Payload} (hv : h.Is v d p) :
    h.descriptorOf v = some d := by
  obtain ⟨x, hx, hd, _⟩ := hv
  rw [Heap.descriptorOf, hx, Option.map_some, hd]

theorem Heap.Denotes.is_items {h : Heap} (ok : h.Literate c) (ht : h.Denotes c u t) {shape : Shape}
    (hd : h.descriptorOf u = some (shape.type c)) : ∃ ys, h.Is u (shape.type c) (.items ys) := by
  cases ht with
  | atom a => cases a <;> cases hd
  | text hu =>
    rw [hu.descriptorOf] at hd
    exact absurd (Option.some.inj hd) (ok.string_ne shape)
  | items _ hu =>
    rw [hu.descriptorOf] at hd
    exact ⟨_, Option.some.inj hd ▸ hu⟩

theorem Heap.Denotes.read_text (ok : w.heap.Literate c) (ht' : w.heap.Denotes c u t') :
    (∃ s, t' = .text s ∧ w.heap.read u .text = .ok s) ∨
      (∀ s, t' ≠ .text s) ∧ ∃ e, w.heap.read u .text = .error e := by
  cases ht' with
  | atom b => exact .inr ⟨fun _ => Datum.noConfusion, by cases b <;> exact ⟨_, rfl⟩⟩
  | text hu => exact .inl ⟨_, rfl, ok.read hu rfl⟩
  | items _ hu =>
    obtain ⟨id, y, rfl, hy, _, hp⟩ := hu.exists_get?
    refine .inr ⟨fun _ => Datum.noConfusion, .payloadType id .text, ?_⟩
    rw [w.heap.read_of_get? hy (ok.readable id y hy), hp]
    rfl

theorem decides_equal_atom (r : Runner) (a : Atom) (ht' : w.heap.Denotes c u t') :
    (equal r a.value u).Decides w (.atom a = t') (.atom a = t') := by
  have nocallback : ∀ k, w.heap.callback .equal a.value ≠ .ok (some k) := by cases a <;> exact nofun
  refine decides_of_exec (exec_equal_of_no_callback r nocallback) (fun same => ?_) fun same => ?_
  · cases eq_of_beq same
    exact ht'.eq_atom.symm
  · subst same
    cases ht'
    exact beq_self_eq_true _

theorem decides_equal_text (ok : w.heap.Literate c) (n : Nat) {s : String}
    (hv : w.heap.Is v c.string (.text s)) (ht' : w.heap.Denotes c u t') :
    (equal (.ofDepth (n + 1)) v u).Decides w (.text s = t') (.text s = t') := by
  have hread : w.heap.read v .text = .ok s := ok.read hv rfl
  obtain ⟨id, x, rfl, hx, hd, _⟩ := hv.exists_get?
  have hcallback := exec_equal_of_callback (n := n) (u := u) hx (hd ▸ ok.comparesText)
  refine Decides.of_exec_eq ?_ hcallback
  show (stringEqual (.ref id) u).Decides w _ _
  unfold stringEqual
  rcases ht'.read_text ok with ⟨s', rfl, hread'⟩ | ⟨other, e, hread'⟩
  · refine decides_of_exec (b := s == s') ?_ (fun same => ?_) fun same => ?_
    · rw [exec_bind, heap, exec_look]
      simp only [hread, hread']
      rfl
    · rw [eq_of_beq same]
    · cases same
      exact beq_self_eq_true s
  · refine decides_of_exec (b := false) ?_ Bool.noConfusion fun same => absurd same.symm (other s)
    rw [exec_bind, heap, exec_look]
    simp only [hread, hread']
    rfl

/-- A sequence is equal to those of its type with equal elements, if it is decided which elements are
equal where the two are being compared. -/
theorem decides_equal_items (ok : w.heap.Literate c) {shape : Shape} {xs : List Value}
    (hv : w.heap.Is v (shape.type c) (.items xs)) (ht : w.heap.Denotes c v t)
    (ht' : w.heap.Denotes c u t') (fresh : (v, u) ∉ w.comparing)
    (each : ∀ ys, w.heap.Is u (shape.type c) (.items ys) → ∀ a ∈ xs, ∀ b ∈ ys,
      (equal (.ofDepth n) a b).Decides (w.comparingPair v u) (w.heap.Agree c a b)
        (w.heap.Agree c a b)) :
    (equal (.ofDepth (n + 1)) v u).Decides w (t = t') (t = t') := by
  have hread : w.heap.read v .items = .ok xs := ok.read hv rfl
  obtain ⟨ts, rfl, _⟩ := ht.eq_items ok hv
  have hrun : (equal (.ofDepth (n + 1)) v u).exec w = (arrayEqual (.ofDepth n) v u).exec w := by
    obtain ⟨id, x, rfl, hx, hd, _⟩ := hv.exists_get?
    exact exec_equal_of_callback hx (hd ▸ ok.compares shape)
  refine Decides.of_exec_eq ?_ hrun
  rw [arrayEqual_eq]
  by_cases same : v = u
  · rw [if_pos same]
    subst same
    exact decides_of_exec rfl (fun _ => ht.unique ok ht') fun _ => rfl
  rw [if_neg same]
  have hbind := (bind_of_ok (exec_look (fun w => w.heap) w) fun h =>
    if h.descriptorOf v ≠ h.descriptorOf u then pure false
    else guardCompare v u (compareElements (.ofDepth n) v u)).1
  refine Decides.of_exec_eq ?_ hbind
  rw [hv.descriptorOf]
  by_cases type : some (shape.type c) = w.heap.descriptorOf u
  · rw [if_neg (not_not_intro type)]
    obtain ⟨ys, hu⟩ := ht'.is_items ok type.symm
    rw [← ht.agree_iff ok ht', Heap.agree_items_iff ok hv hu ht']
    exact decides_guardCompare fresh (decides_compareElements (w := w.comparingPair v u) hread
      (ok.read hu rfl) (each ys hu))
  · rw [if_pos type]
    refine decides_of_exec rfl Bool.noConfusion ?_
    rintro rfl
    cases ht' with
    | items _ hu => exact absurd hu.descriptorOf.symm type

theorem Datum.sizeOf_lt {shape : Shape} {ts : List Datum} (ht : t ∈ ts) :
    sizeOf t < sizeOf (items shape ts) := by
  have := List.sizeOf_lt_of_mem ht
  rw [items.sizeOf_spec]
  omega

/-- A comparison that may go deep enough finds out whether two values have the same datum.  The
induction is on the depth.  The pairs in progress are larger, so none of them comes again. -/
theorem decides_equal_data {h : Heap} (ok : h.Literate c) (n : Nat) :
    ∀ w : World, w.heap = h → h.unmet w.comparing < n → ∀ v u t t', h.Denotes c v t →
      h.Denotes c u t' → (∀ p ∈ w.comparing, ∃ s, h.Denotes c p.1 s ∧ sizeOf t < sizeOf s) →
      (equal (.ofDepth n) v u).Decides w (t = t') (t = t') := by
  induction n with
  | zero => exact fun _ _ enough => absurd enough (Nat.not_lt_zero _)
  | succ n ih =>
    rintro w rfl enough v u t t' ht ht' larger
    cases ht with
    | atom a => exact decides_equal_atom _ a ht'
    | text hv => exact decides_equal_text ok n hv ht'
    | @items _ shape xs ts hv hlength elements =>
      have ht : w.heap.Denotes c v (.items shape ts) := .items ts hv hlength elements
      have fresh : (v, u) ∉ w.comparing := fun known => by
        obtain ⟨s, hs, hlt⟩ := larger _ known
        rw [ht.unique ok hs] at hlt
        exact Nat.lt_irrefl _ hlt
      refine decides_equal_items ok hv ht ht' fresh fun ys hu a ha b hb => ?_
      have hvalue : ∀ {v d p}, w.heap.Is v d p → v ∈ w.heap.liveValues := fun hv => by
        obtain ⟨id, x, rfl, hx, _⟩ := hv.exists_get?
        exact Heap.mem_liveValues hx
      have fewer : w.heap.unmet ((v, u) :: w.comparing) < n := by
        have := Heap.unmet_cons_lt (hvalue hv) (hvalue hu) fresh
        omega
      obtain ⟨s, hs⟩ := exists_mem_zip_of_mem_left hlength ha
      obtain ⟨us, rfl, hys⟩ := ht'.eq_items ok hu
      obtain ⟨s', hs'⟩ := exists_mem_zip_of_mem_left hys.length_eq.symm hb
      have ha' := elements _ hs
      have hb' := List.forall₂_zip hys hs'
      rw [ha'.agree_iff ok hb']
      have smaller : sizeOf s < sizeOf (Datum.items shape ts) :=
        Datum.sizeOf_lt (List.of_mem_zip hs).2
      refine ih (w.comparingPair v u) rfl fewer a b s s' ha' hb' fun p hp => ?_
      rcases List.mem_cons.mp hp with rfl | hp
      · exact ⟨_, ht, smaller⟩
      · obtain ⟨s'', hs'', hlt⟩ := larger p hp
        exact ⟨s'', hs'', smaller.trans hlt⟩

theorem exec_inspect_datum (ok : w.heap.Literate c) (idle : w.inspecting = [])
    (enough : w.heap.pool.instances.length < n) (hv : w.heap.IsDatum c v) :
    ∃ t : Datum, w.heap.Denotes c v t ∧ (inspect (.ofDepth n) v).exec w = (.ok t.render, w) := by
  obtain ⟨text, cuts, hexec, draws⟩ := draws_inspect (n := n) (v := v) ok.toInspectable
    (idle ▸ trail_singleton v) (Nat.lt_of_le_of_lt (w.heap.unseen_le _) enough)
  have whole : cuts = [] := (draws.cuts_eq_nil_iff (idle ▸ trail_singleton v)).mpr hv.acyclic
  obtain ⟨t, ht, rfl⟩ := (draws.renders whole).denotes ok hv.elements
  exact ⟨t, ht, hexec⟩

/-- Printed data are unambiguous.

Let two values be made of immediates, strings, arrays and lists and hold themselves nowhere; parts
can occur in many places.  Where no payload is being written and nothing is being inspected or
compared, both have a text and can be compared, if callbacks may run as deep as there are pairs of
instances, and this changes nothing.  The texts are the same if and only if the values are equal; and
they are if and only if they have the same content. -/
theorem inspect_eq_iff_equal (ok : w.heap.Literate c) (inspecting : w.inspecting = [])
    (comparing : w.comparing = [])
    (enough : w.heap.pool.instances.length * w.heap.pool.instances.length < n)
    (hv : w.heap.IsDatum c v) (hu : w.heap.IsDatum c u) :
    ∃ s s' b, (inspect (.ofDepth n) v).exec w = (.ok s, w) ∧
      (inspect (.ofDepth n) u).exec w = (.ok s', w) ∧
      (equal (.ofDepth n) v u).exec w = (.ok b, w) ∧
      (s = s' ↔ b = true) ∧ (b = true ↔ w.heap.Agree c v u) := by
  have deep : w.heap.pool.instances.length < n :=
    Nat.lt_of_le_of_lt (Nat.le_mul_self _) enough
  obtain ⟨t, ht, hexec⟩ := exec_inspect_datum ok inspecting deep hv
  obtain ⟨t', ht', hexec'⟩ := exec_inspect_datum ok inspecting deep hu
  obtain ⟨b, hequal, yes, no⟩ := decides_equal_data ok n w rfl
    (Nat.lt_of_le_of_lt (w.heap.unmet_le _) enough) v u t t' ht ht' (by simp [comparing])
  have hb : b = true ↔ t = t' := ⟨yes, no⟩
  refine ⟨_, _, b, hexec, hexec', hequal, ?_, ?_⟩
  · rw [hb, Datum.render_injective.eq_iff]
  · rw [hb, ht.agree_iff ok ht']

end

/-! ## Sessions -/

theorem Heap.Truthful.literate {past : List Transition} {h : Heap} (truthful : h.Truthful past) :
    h.Literate .standard where
  toInspectable := truthful.inspectable
  shows shape := by
    cases shape with
    | array => exact truthful.stocked.callback?_of_table (i := 0) rfl .inspect
    | list => exact truthful.stocked.callback?_of_table (i := 1) rfl .inspect
  compares shape := by
    cases shape with
    | array => exact truthful.stocked.callback?_of_table (i := 0) rfl .equal
    | list => exact truthful.stocked.callback?_of_table (i := 1) rfl .equal
  showsText := truthful.stocked.callback?_of_table (i := 2) rfl .inspect
  comparesText := truthful.stocked.callback?_of_table (i := 2) rfl .equal

/-- A session that leaves an array of two strings, an array of one that looks like the two when it is
printed, and the latter once more. -/
def lookalikes : Session where
  steps := [.bind "a" (.op (.string "a")), .bind "b" (.op (.string "b")),
    .bind "c" (.op (.string "a\" \"b")), .op (.array [.var "a", .var "b"]),
    .op (.array [.var "c"]), .op (.array [.var "c"])]

theorem inspect_eq_iff_equal_lookalikes :
    let w := lookalikes.closing (.ofDepth 4)
    ∃ two one again, (inspect (.ofDepth 40) (.ref ⟨3, 0⟩)).exec w = (.ok two, w) ∧
      (inspect (.ofDepth 40) (.ref ⟨4, 0⟩)).exec w = (.ok one, w) ∧
      (inspect (.ofDepth 40) (.ref ⟨5, 0⟩)).exec w = (.ok again, w) ∧ two ≠ one ∧ one = again := by
  intro w
  have ok : w.heap.Literate .standard :=
    (lookalikes.visits_closing (.ofDepth 4) rfl rfl (by decide +kernel)).truthful.heap.literate
  have text : ∀ i s, w.heap.Is (.ref ⟨i, 0⟩) Containers.standard.string (.text s) →
      w.heap.Denotes .standard (.ref ⟨i, 0⟩) (.text s) := fun _ _ => .text
  have two : w.heap.IsDatum .standard (.ref ⟨3, 0⟩) := by
    have hv : w.heap.Is (.ref ⟨3, 0⟩) (Shape.array.type .standard)
      (.items [.ref ⟨0, 0⟩, .ref ⟨1, 0⟩]) := by decide +kernel
    exact (Heap.Denotes.items_of_forall₂ hv (.cons (text 0 "a" (by decide +kernel))
      (.cons (text 1 "b" (by decide +kernel)) .nil))).isDatum ok
  have one : ∀ i, w.heap.Is (.ref ⟨i, 0⟩) (Shape.array.type .standard) (.items [.ref ⟨2, 0⟩]) →
      w.heap.IsDatum .standard (.ref ⟨i, 0⟩) := fun i hv =>
    (Heap.Denotes.items_of_forall₂ hv
      (.cons (text 2 "a\" \"b" (by decide +kernel)) .nil)).isDatum ok
  have answers := fun {v u} => inspect_eq_iff_equal (n := 40) (v := v) (u := u) ok (by decide +kernel)
    (by decide +kernel) (by decide +kernel)
  obtain ⟨s, s', b, hs, hs', hb, hiff, _⟩ := answers two (one 4 (by decide +kernel))
  obtain ⟨s₁, s₂, b', hs₁, hs₂, hb', hiff', _⟩ :=
    answers (one 4 (by decide +kernel)) (one 5 (by decide +kernel))
  have hno : ((equal (.ofDepth 40) (.ref ⟨3, 0⟩) (.ref ⟨4, 0⟩)).exec w).1.toOption = some false := by
    decide +kernel
  have hyes : ((equal (.ofDepth 40) (.ref ⟨4, 0⟩) (.ref ⟨5, 0⟩)).exec w).1.toOption = some true := by
    decide +kernel
  rw [hb] at hno
  rw [hb'] at hyes
  cases hno
  cases hyes
  cases hs'.symm.trans hs₁
  exact ⟨s, s', s₂, hs, hs₁, hs₂, fun same => Bool.noConfusion (hiff.mp same), hiff'.mpr rfl⟩

end TracedHeap
