import TracedHeap.Types.Callback

/-!
# The registry of types

Types are registered one after the other and never removed.  A type has a name, a tag that no
other type has, perhaps a base, and a dispatch table.  A derived type starts with a copy of the
table its base has at that moment.

* `TypeRecord`, `Registry`          a type, and all of them in the order of registration;
* `TypeIndex`                       the types by a key, here by their tags and by their names;
* `Registry.named?`, `withTag?`     look-up by name (the latest wins) and by tag;
* `Registry.unusedTag`              the tag given to a type that brings none;
* `Registry.register`, `install`    adding a type, and setting one of its callbacks;
* `Registry.register_cases`         how a registration ends.
-/

namespace TracedHeap

structure TypeRecord where
  name : String
  tag : Tag
  base : Option Descriptor
  table : DispatchTable

/-- Types by a key; of the entries of one key the first counts. -/
structure TypeIndex (κ : Type) where
  entries : List (κ × Descriptor) := []

namespace TypeIndex

variable {κ : Type} [BEq κ]

def get? (x : TypeIndex κ) (k : κ) : Option Descriptor := x.entries.lookup k

def insert (x : TypeIndex κ) (k : κ) (d : Descriptor) : TypeIndex κ := ⟨(k, d) :: x.entries⟩

@[simp]
theorem get?_empty (k : κ) : ({} : TypeIndex κ).get? k = none := rfl

@[simp]
theorem get?_insert_self [ReflBEq κ] (x : TypeIndex κ) (k : κ) (d : Descriptor) :
    (x.insert k d).get? k = some d := by
  simp [get?, insert]

theorem get?_insert_of_ne [LawfulBEq κ] {k other : κ} (x : TypeIndex κ) (d : Descriptor)
    (h : other ≠ k) : (x.insert k d).get? other = x.get? other := by
  have hk : (other == k) = false := beq_eq_false_iff_ne.mpr h
  simp [get?, insert, List.lookup_cons, hk]

end TypeIndex

structure Registry where
  /-- The types, in the order of registration. -/
  records : Array TypeRecord := #[]
  byTag : TypeIndex Tag := {}
  byName : TypeIndex String := {}
  /-- No automatic tag below this one is given out any more. -/
  nextTag : Tag := 0
  /-- For how many types there is room. -/
  capacity : Nat := 0

namespace Registry

def size (g : Registry) : Nat := g.records.size

def get? (g : Registry) (d : Descriptor) : Option TypeRecord := g.records[d.index]?

def callback? (g : Registry) (d : Descriptor) (b : Behavior) : Option (Callback b) :=
  (g.get? d).bind fun r => r.table.entry b

def withTag? (g : Registry) (t : Tag) : Option Descriptor := g.byTag.get? t

def usesTag (g : Registry) (t : Tag) : Bool := (g.withTag? t).isSome

def named? (g : Registry) (name : String) : Option Descriptor := g.byName.get? name

/-- The first tag that no type has among `t`, `t + 1`, ..., `steps` of them. -/
def searchTag (g : Registry) : (steps : Nat) → (t : Tag) → Option Tag
  | 0, _ => none
  | n + 1, t => if g.usesTag t then g.searchTag n (t + 1) else some t

/-- The first tag, from `nextTag` on, that no type has.  Among one more candidate than there are
types, one is free. -/
def unusedTag (g : Registry) : Tag := (g.searchTag (g.size + 1) g.nextTag).getD g.nextTag

/-- The tag of a new type: the one asked for, unless it is taken, else an unused one.  An
unused tag counts as given out from then on, whether or not the registration succeeds. -/
def chooseTag (g : Registry) : Option Tag → Except Error (Tag × Registry)
  | some t => if g.usesTag t then .error (.duplicateTag t) else .ok (t, g)
  | none => .ok (g.unusedTag, { g with nextTag := g.unusedTag + 1 })

def startTable (g : Registry) : Option Descriptor → Except Error DispatchTable
  | none => .ok .empty
  | some base =>
    match g.get? base with
    | some r => .ok r.table
    | none => .error (.unknownDescriptor base)

/-- Adds a type; when there is no room left, room for `increment` more types is made. -/
def add (g : Registry) (increment : Nat) (r : TypeRecord) : Registry :=
  { g with
    records := g.records.push r
    byTag := g.byTag.insert r.tag ⟨g.size⟩
    byName := g.byName.insert r.name ⟨g.size⟩
    capacity := if g.size = g.capacity then g.capacity + increment else g.capacity }

/-- Registers a type under a name, with a tag and a base if these are given.  The tag is checked
before the base. -/
def register (g : Registry) (increment : Nat) (name : String) (tag : Option Tag)
    (base : Option Descriptor) : Except Error Descriptor × Registry :=
  match g.chooseTag tag with
  | .error e => (.error e, g)
  | .ok (t, g) =>
    match g.startTable base with
    | .error e => (.error e, g)
    | .ok table => (.ok ⟨g.size⟩, g.add increment { name, tag := t, base, table })

/-- The registry once the tag of a new type has been chosen: an unused tag is given out. -/
def drawn (g : Registry) : Option Tag → Registry
  | some _ => g
  | none => { g with nextTag := g.unusedTag + 1 }

@[simp]
theorem size_drawn (g : Registry) (tag : Option Tag) : (g.drawn tag).size = g.size := by
  cases tag <;> rfl

@[simp]
theorem get?_drawn (g : Registry) (tag : Option Tag) (d : Descriptor) :
    (g.drawn tag).get? d = g.get? d := by
  cases tag <;> rfl

theorem chooseTag_cases (g : Registry) (tag : Option Tag) :
    (∃ t, tag = some t ∧ g.usesTag t = true ∧ g.chooseTag tag = .error (.duplicateTag t)) ∨
      (∀ t, tag = some t → g.usesTag t = false) ∧
        g.chooseTag tag = .ok (tag.getD g.unusedTag, g.drawn tag) := by
  cases tag with
  | none => exact .inr ⟨fun _ h => (by cases h), rfl⟩
  | some t =>
    cases hused : g.usesTag t with
    | true => exact .inl ⟨t, rfl, hused, by rw [chooseTag, if_pos hused]⟩
    | false =>
      refine .inr ⟨fun _ h => Option.some.inj h ▸ hused, ?_⟩
      rw [chooseTag, if_neg (Bool.eq_false_iff.mp hused)]
      rfl

theorem startTable_cases (g : Registry) (base : Option Descriptor) :
    (∃ table, g.startTable base = .ok table) ∨
      ∃ e, base = some e ∧ g.get? e = none ∧
        g.startTable base = .error (.unknownDescriptor e) := by
  cases base with
  | none => exact .inl ⟨.empty, rfl⟩
  | some e =>
    cases he : g.get? e with
    | none => exact .inr ⟨e, rfl, he, by simp only [startTable, he]⟩
    | some r => exact .inl ⟨r.table, by simp only [startTable, he]⟩

/-- How a registration ends: the type is added, its tag is taken already, or its base is unknown.
In the last case an unused tag has been given out for nothing. -/
theorem register_cases (g : Registry) (increment : Nat) (name : String) (tag : Option Tag)
    (base : Option Descriptor) :
    (∃ table, (∀ t, tag = some t → g.usesTag t = false) ∧ g.startTable base = .ok table ∧
      g.register increment name tag base =
        (.ok ⟨g.size⟩, (g.drawn tag).add increment
          { name, tag := tag.getD g.unusedTag, base, table })) ∨
    (∃ t, tag = some t ∧ g.usesTag t = true ∧
      g.register increment name tag base = (.error (.duplicateTag t), g)) ∨
    ∃ e, base = some e ∧ g.get? e = none ∧ (∀ t, tag = some t → g.usesTag t = false) ∧
      g.register increment name tag base = (.error (.unknownDescriptor e), g.drawn tag) := by
  have hstart : (g.drawn tag).startTable base = g.startTable base := by cases tag <;> rfl
  unfold register
  rcases g.chooseTag_cases tag with ⟨t, ht, hused, hchoose⟩ | ⟨unused, hchoose⟩
  · exact .inr (.inl ⟨t, ht, hused, by rw [hchoose]⟩)
  · rcases g.startTable_cases base with ⟨table, htable⟩ | ⟨e, he, hunknown, htable⟩
    · refine .inl ⟨table, unused, htable, ?_⟩
      simp only [hchoose, hstart, htable, size_drawn]
    · refine .inr (.inr ⟨e, he, hunknown, unused, ?_⟩)
      simp only [hchoose, hstart, htable]

def install (g : Registry) (d : Descriptor) (b : Behavior) (c : Callback b) : Registry :=
  { g with records := g.records.modify d.index fun r => { r with table := r.table.install b c } }

end Registry

end TracedHeap
