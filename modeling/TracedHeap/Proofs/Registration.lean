import Mathlib.Order.Bounds.Basic
import TracedHeap.Proofs.Marking

/-!
# The registry of types at every moment of a session

Automatic tags and chosen ones come from one space of 32 bits.  An automatic tag is found by going
up from a counter, past the tags that types have, and a registration that fails after that has used
the tag up.

* `Registry.Search`      the search for an automatic tag, step by step, while the sums fit in
                         32 bits;
* `Registry.Indexed`     the look-ups by tag and by name agree with the records;
* `Registry.Accounted`   every tag below the counter is that of a type, or is lost;
* `Registry.Sound.register`, `Path.soundRegistry`
                         a registration keeps both, and so does every path with fewer than 2³²
                         registrations;
* `Registry.Extends`     types stay, with their names, tags and bases;
* `Session.registry_consistent`
                         what follows for the types of a session.
-/

namespace TracedHeap

structure TypeRecord.Same (r r' : TypeRecord) : Prop where
  name : r'.name = r.name
  tag : r'.tag = r.tag
  base : r'.base = r.base

namespace Registry

/-! ## One record more, one callback more -/

section
variable {g : Registry} {d : Descriptor} {r : TypeRecord}

theorem lt_size_of_get? (hr : g.get? d = some r) : d.index < g.size :=
  (Array.getElem?_eq_some_iff.mp hr).1

theorem get?_of_lt (hd : d.index < g.size) : ∃ r, g.get? d = some r :=
  ⟨_, Array.getElem?_eq_getElem hd⟩

theorem get?_add (g : Registry) (increment : Nat) (r : TypeRecord) (d : Descriptor) :
    (g.add increment r).get? d = if d.index = g.size then some r else g.get? d :=
  Array.getElem?_push

theorem withTag?_add (g : Registry) (increment : Nat) (r : TypeRecord) (t : Tag) :
    (g.add increment r).withTag? t = if t = r.tag then some ⟨g.size⟩ else g.withTag? t := by
  split
  · next h => exact h ▸ TypeIndex.get?_insert_self g.byTag t ⟨g.size⟩
  · next h => exact TypeIndex.get?_insert_of_ne g.byTag ⟨g.size⟩ h

theorem named?_add (g : Registry) (increment : Nat) (r : TypeRecord) (n : String) :
    (g.add increment r).named? n = if n = r.name then some ⟨g.size⟩ else g.named? n := by
  split
  · next h => exact h ▸ TypeIndex.get?_insert_self g.byName n ⟨g.size⟩
  · next h => exact TypeIndex.get?_insert_of_ne g.byName ⟨g.size⟩ h

theorem get?_install (g : Registry) (d : Descriptor) (b : Behavior) (c : Callback b)
    (other : Descriptor) :
    (g.install d b c).get? other = (g.get? other).map fun r =>
      if d = other then { r with table := r.table.install b c } else r := by
  show (g.records.modify d.index _)[other.index]? = _
  rw [Array.getElem?_modify]
  by_cases h : d = other
  · subst h
    simp only [if_true]
    rfl
  · have hne : d.index ≠ other.index := fun heq => h (congrArg Descriptor.mk heq)
    simp only [h, hne, if_false, Option.map_id']
    rfl

end

def Extends (g g' : Registry) : Prop :=
  ∀ d r, g.get? d = some r → ∃ r', g'.get? d = some r' ∧ r.Same r'

theorem Extends.refl (g : Registry) : g.Extends g := fun _ r hr => ⟨r, hr, rfl, rfl, rfl⟩

theorem Extends.trans {g g' g'' : Registry} (h : g.Extends g') (h' : g'.Extends g'') :
    g.Extends g'' := by
  intro d r hr
  obtain ⟨r', hr', s⟩ := h d r hr
  obtain ⟨r'', hr'', s'⟩ := h' d r' hr'
  exact ⟨r'', hr'', s'.name.trans s.name, s'.tag.trans s.tag, s'.base.trans s.base⟩

theorem extends_add (g : Registry) (increment : Nat) (r : TypeRecord) :
    g.Extends (g.add increment r) := by
  intro d r' hr'
  refine ⟨r', ?_, rfl, rfl, rfl⟩
  rw [get?_add, if_neg (Nat.ne_of_lt (lt_size_of_get? hr')), hr']

theorem extends_drawn (g : Registry) (tag : Option Tag) : g.Extends (g.drawn tag) := by
  cases tag <;> exact fun _ r hr => ⟨r, hr, rfl, rfl, rfl⟩

theorem extends_register (g : Registry) (increment : Nat) (name : String) (tag : Option Tag)
    (base : Option Descriptor) : g.Extends (g.register increment name tag base).2 := by
  rcases g.register_cases increment name tag base with
    ⟨_, _, _, heq⟩ | ⟨_, _, _, heq⟩ | ⟨_, _, _, _, heq⟩
  · rw [heq]
    exact (g.extends_drawn tag).trans (extends_add _ _ _)
  · rw [heq]
    exact .refl g
  · rw [heq]
    exact g.extends_drawn tag

theorem same_ite (b : Behavior) (c : Callback b) (p : Prop) [Decidable p] (r : TypeRecord) :
    r.Same (if p then { r with table := r.table.install b c } else r) := by
  split <;> exact ⟨rfl, rfl, rfl⟩

theorem extends_install (g : Registry) (d : Descriptor) (b : Behavior) (c : Callback b) :
    g.Extends (g.install d b c) := by
  intro other r hr
  exact ⟨_, by rw [get?_install, hr]; rfl, same_ite b c _ r⟩

theorem install_extends (g : Registry) (d : Descriptor) (b : Behavior) (c : Callback b)
    {other : Descriptor} {r' : TypeRecord} (hr' : (g.install d b c).get? other = some r') :
    ∃ r, g.get? other = some r ∧ r.Same r' := by
  rw [get?_install] at hr'
  obtain ⟨r, hr, rfl⟩ := Option.map_eq_some_iff.mp hr'
  exact ⟨r, hr, same_ite b c _ r⟩

/-! ## The look-ups -/

/-- The look-ups agree with the records, and a base comes before what is derived from it. -/
structure Indexed (g : Registry) : Prop where
  tag : ∀ {t d}, g.withTag? t = some d ↔ ∃ r, g.get? d = some r ∧ r.tag = t
  named : ∀ {n d}, g.named? n = some d →
    IsGreatest {i | ∃ r, g.get? ⟨i⟩ = some r ∧ r.name = n} d.index
  unnamed : ∀ {n}, g.named? n = none → ∀ {d r}, g.get? d = some r → r.name ≠ n
  base : ∀ {d r e}, g.get? d = some r → r.base = some e → e.index < d.index

theorem indexed_empty : Indexed {} where
  tag := by
    intro t d
    exact ⟨fun h => (by cases h), fun ⟨_, h, _⟩ => absurd h (by simp [get?])⟩
  named h := by cases h
  unnamed _ := fun {d r} h => absurd h (by simp [get?])
  base h := absurd h (by simp [get?])

namespace Indexed

variable {g : Registry}

theorem usesTag_iff (x : g.Indexed) {t : Tag} :
    g.usesTag t = true ↔ ∃ d r, g.get? d = some r ∧ r.tag = t := by
  unfold usesTag
  rw [Option.isSome_iff_exists]
  exact exists_congr fun d => x.tag

theorem drawn (x : g.Indexed) (tag : Option Tag) : (g.drawn tag).Indexed := by
  cases tag <;> exact ⟨x.tag, x.named, x.unnamed, x.base⟩

theorem install (x : g.Indexed) (d : Descriptor) (b : Behavior) (c : Callback b) :
    (g.install d b c).Indexed := by
  have forward := g.extends_install d b c
  refine ⟨fun {t e} => ?_, fun {n e} hn => ?_, fun {n} hn e r' hr' => ?_, fun hr' he => ?_⟩
  · show g.withTag? t = some e ↔ _
    rw [x.tag]
    constructor
    · rintro ⟨r, hr, rfl⟩
      obtain ⟨r', hr', s⟩ := forward e r hr
      exact ⟨r', hr', s.tag⟩
    · rintro ⟨r', hr', rfl⟩
      obtain ⟨r, hr, s⟩ := g.install_extends d b c hr'
      exact ⟨r, hr, s.tag.symm⟩
  · obtain ⟨⟨r, hr, hname⟩, greatest⟩ := x.named hn
    obtain ⟨r', hr', s⟩ := forward _ r hr
    refine ⟨⟨r', hr', s.name.trans hname⟩, ?_⟩
    rintro i ⟨r', hr', rfl⟩
    obtain ⟨r, hr, s⟩ := g.install_extends d b c hr'
    exact greatest ⟨r, hr, s.name.symm⟩
  · obtain ⟨r, hr, s⟩ := g.install_extends d b c hr'
    rw [s.name]
    exact x.unnamed hn hr
  · obtain ⟨r, hr, s⟩ := g.install_extends d b c hr'
    exact x.base hr (s.base ▸ he)

theorem add {r : TypeRecord} (x : g.Indexed) (increment : Nat) (unused : g.usesTag r.tag = false)
    (hbase : ∀ e, r.base = some e → e.index < g.size) : (g.add increment r).Indexed := by
  have old : ∀ {d : Descriptor} {r' : TypeRecord}, g.get? d = some r' → d.index ≠ g.size :=
    fun hr' => Nat.ne_of_lt (lt_size_of_get? hr')
  have eq_of_index : ∀ {d : Descriptor}, d.index = g.size → d = ⟨g.size⟩ :=
    fun hd => congrArg Descriptor.mk hd
  refine ⟨fun {t d} => ?_, fun {n d} hn => ?_, fun {n} hn d r' hr' => ?_, fun {d r' e} hr' he => ?_⟩
  · rw [withTag?_add, get?_add]
    split
    · next ht =>
      constructor
      · rintro ⟨⟩
        exact ⟨r, if_pos rfl, ht.symm⟩
      · rintro ⟨r', hr', htag⟩
        split at hr'
        · next hd => rw [eq_of_index hd]
        · have hused := x.usesTag_iff.mpr ⟨d, r', hr', htag.trans ht⟩
          rw [unused] at hused
          cases hused
    · next ht =>
      rw [x.tag]
      constructor
      · rintro ⟨r', hr', htag⟩
        exact ⟨r', by rw [if_neg (old hr'), hr'], htag⟩
      · rintro ⟨r', hr', htag⟩
        split at hr'
        · cases hr'
          exact absurd htag.symm ht
        · exact ⟨r', hr', htag⟩
  · rw [named?_add] at hn
    split at hn
    · next hname =>
      cases hn
      refine ⟨⟨r, by rw [get?_add, if_pos rfl], hname.symm⟩, ?_⟩
      rintro i ⟨r', hr', _⟩
      rw [get?_add] at hr'
      split at hr'
      · next hi => exact Nat.le_of_eq hi
      · exact Nat.le_of_lt (lt_size_of_get? hr')
    · next hname =>
      obtain ⟨⟨r', hr', hn'⟩, greatest⟩ := x.named hn
      refine ⟨⟨r', by rw [get?_add, if_neg (old hr'), hr'], hn'⟩, ?_⟩
      rintro i ⟨r', hr', hn'⟩
      rw [get?_add] at hr'
      split at hr'
      · cases hr'
        exact absurd hn'.symm hname
      · exact greatest ⟨r', hr', hn'⟩
  · rw [named?_add] at hn
    split at hn
    · cases hn
    · next hname =>
      rw [get?_add] at hr'
      split at hr'
      · cases hr'
        exact fun heq => hname heq.symm
      · exact x.unnamed hn hr'
  · rw [get?_add] at hr'
    split at hr'
    · next hd =>
      cases hr'
      rw [hd]
      exact hbase e he
    · exact x.base hr' he

end Indexed

/-! ## The search for an automatic tag -/

/-- The search for a tag that no type has, from `t` on: it ends at the first one.  No sum on the
way is too large for 32 bits. -/
inductive Search (g : Registry) : (t found : Tag) → Prop where
  | found {t : Tag} : g.usesTag t = false → Search g t t
  | next {t u : Tag} : g.usesTag t = true → t.toNat + 1 < UInt32.size → Search g (t + 1) u →
      Search g t u

/-- The tags of the types, as numbers. -/
def tags (g : Registry) : List Nat := g.records.toList.map fun r => r.tag.toNat

theorem length_tags (g : Registry) : g.tags.length = g.size := List.length_map _

theorem mem_tags {g : Registry} {n : Nat} :
    n ∈ g.tags ↔ ∃ d r, g.get? d = some r ∧ r.tag.toNat = n := by
  unfold tags
  rw [List.mem_map]
  constructor
  · rintro ⟨r, hr, hn⟩
    obtain ⟨i, hi⟩ := List.mem_iff_getElem?.mp hr
    exact ⟨⟨i⟩, r, by rw [get?, ← Array.getElem?_toList, hi], hn⟩
  · rintro ⟨d, r, hr, hn⟩
    exact ⟨r, Array.mem_toList_iff.mpr (Array.mem_of_getElem? hr), hn⟩

theorem Indexed.usesTag_iff_mem {g : Registry} (x : g.Indexed) {t : Tag} :
    g.usesTag t = true ↔ t.toNat ∈ g.tags := by
  rw [x.usesTag_iff, mem_tags]
  simp only [UInt32.toNat_inj]

theorem toNat_add_one {t : Tag} (fits : t.toNat + 1 < UInt32.size) :
    (t + 1).toNat = t.toNat + 1 := by
  rw [UInt32.toNat_add]
  exact Nat.mod_eq_of_lt fits

namespace Search

variable {g : Registry} {t u : Tag}

theorem unused (s : g.Search t u) : g.usesTag u = false := by
  induction s with
  | found h => exact h
  | next _ _ _ ih => exact ih

theorem le (s : g.Search t u) : t.toNat ≤ u.toNat := by
  induction s with
  | found _ => exact Nat.le_refl _
  | next _ fits _ ih =>
    rw [toNat_add_one fits] at ih
    omega

theorem mem_tags (s : g.Search t u) (x : g.Indexed) :
    ∀ n, t.toNat ≤ n → n < u.toNat → n ∈ g.tags := by
  induction s with
  | found _ => exact fun n hn hn' => absurd hn' (by omega)
  | @next t _ hused fits _ ih =>
    intro n hn hn'
    rw [toNat_add_one fits] at ih
    rcases Nat.eq_or_lt_of_le hn with rfl | hn
    · exact x.usesTag_iff_mem.mp hused
    · exact ih n hn hn'

end Search

/-! ## Tags given out -/

/-- Every tag below the counter is that of a type, or is one of the `lost` ones, which are all below
the counter. -/
structure Accounted (g : Registry) (lost : List Tag) : Prop where
  spent : ∀ n < g.nextTag.toNat, n ∈ g.tags ++ lost.map UInt32.toNat
  lost_lt : ∀ t ∈ lost, t.toNat < g.nextTag.toNat

/-- The tag that a registration draws and does not use. -/
def lost? (g : Registry) (tag : Option Tag) (base : Option Descriptor) : Option Tag :=
  match tag, g.startTable base with
  | none, .error _ => some g.unusedTag
  | _, _ => none

section
variable {g : Registry} {lost : List Tag}

/-- Different tags are those of different types, or are lost: that bounds their number. -/
theorem le_of_spent {m : Nat} (spent : ∀ n < m, n ∈ g.tags ++ lost.map UInt32.toNat) :
    m ≤ g.size + lost.length := by
  have hsub := (List.subperm_of_subset List.nodup_range
    fun n hn => spent n (List.mem_range.mp hn)).length_le
  rwa [List.length_range, List.length_append, length_tags, List.length_map] at hsub

/-- The search comes to its end in time: `n` steps are left at `t`, all tags below `t` are
accounted for, and those from the counter on up to `t` are tags of types. -/
theorem exists_search (x : g.Indexed) (few : g.size + lost.length + 1 < UInt32.size) (n : Nat)
    (t : Tag) (spent : ∀ m < t.toNat, m ∈ g.tags ++ lost.map UInt32.toNat)
    (passed : ∀ m, g.nextTag.toNat ≤ m → m < t.toNat → m ∈ g.tags)
    (left : g.nextTag.toNat + (g.size + 1) ≤ t.toNat + n) :
    ∃ u, g.searchTag n t = some u ∧ g.Search t u := by
  induction n generalizing t with
  | zero =>
    -- more tags of types have been passed than there are types
    have hsub : List.range' g.nextTag.toNat (g.size + 1) ⊆ g.tags := by
      intro m hm
      obtain ⟨hm, hm'⟩ := List.mem_range'_1.mp hm
      exact passed m hm (by omega)
    have hle := (List.subperm_of_subset List.nodup_range' hsub).length_le
    rw [List.length_range', length_tags] at hle
    omega
  | succ n ih =>
    unfold searchTag
    cases hused : g.usesTag t with
    | false => exact ⟨t, by simp, .found hused⟩
    | true =>
      have here := x.usesTag_iff_mem.mp hused
      have upto : ∀ m < t.toNat + 1, m ∈ g.tags ++ lost.map UInt32.toNat := by
        intro m hm
        rcases Nat.eq_or_lt_of_le (Nat.lt_succ_iff.mp hm) with rfl | hm
        · exact List.mem_append_left _ here
        · exact spent m hm
      have fits : t.toNat + 1 < UInt32.size := by
        have := le_of_spent upto
        omega
      have hnext := toNat_add_one fits
      obtain ⟨u, hu, search⟩ := ih (t + 1) (by rwa [hnext])
        (fun m hm hm' => by
          rw [hnext] at hm'
          rcases Nat.eq_or_lt_of_le (Nat.lt_succ_iff.mp hm') with rfl | hm'
          · exact here
          · exact passed m hm hm')
        (by omega)
      exact ⟨u, by simpa using hu, .next hused fits search⟩

/-- All tags below the one that the search finds are accounted for. -/
theorem Accounted.spent_of_search (a : g.Accounted lost) (x : g.Indexed) {u : Tag}
    (search : g.Search g.nextTag u) : ∀ n < u.toNat, n ∈ g.tags ++ lost.map UInt32.toNat := by
  intro n hn
  rcases Nat.lt_or_ge n g.nextTag.toNat with hlt | hge
  · exact a.spent n hlt
  · exact List.mem_append_left _ (search.mem_tags x n hge hn)

/-- The search for an automatic tag ends, at a tag whose successor fits in 32 bits. -/
theorem Accounted.search (a : g.Accounted lost) (x : g.Indexed)
    (few : g.size + lost.length + 1 < UInt32.size) :
    g.Search g.nextTag g.unusedTag ∧ g.unusedTag.toNat + 1 < UInt32.size := by
  obtain ⟨u, hu, search⟩ := exists_search x few (g.size + 1) g.nextTag a.spent
    (fun m hm hm' => absurd hm' (by omega)) (Nat.le_refl _)
  have hunused : g.unusedTag = u := by
    rw [unusedTag, hu]
    rfl
  have := le_of_spent (a.spent_of_search x search)
  rw [hunused]
  exact ⟨search, by omega⟩

theorem Accounted.draw {g' : Registry} {lost' : List Tag} (a : g.Accounted lost) (x : g.Indexed)
    (few : g.size + lost.length + 1 < UInt32.size) (counter : g'.nextTag = g.unusedTag + 1)
    (kept : g.tags ++ lost.map UInt32.toNat ⊆ g'.tags ++ lost'.map UInt32.toNat)
    (given : g.unusedTag.toNat ∈ g'.tags ++ lost'.map UInt32.toNat)
    (only : ∀ t ∈ lost', t ∈ lost ∨ t = g.unusedTag) : g'.Accounted lost' := by
  obtain ⟨search, fits⟩ := a.search x few
  have hnext : g'.nextTag.toNat = g.unusedTag.toNat + 1 := by rw [counter, toNat_add_one fits]
  refine ⟨fun n hn => ?_, fun t ht => ?_⟩
  · rw [hnext] at hn
    rcases Nat.eq_or_lt_of_le (Nat.lt_succ_iff.mp hn) with rfl | hn
    · exact given
    · exact kept (a.spent_of_search x search n hn)
  · rcases only t ht with ht | rfl
    · have hlt := a.lost_lt t ht
      have hle := search.le
      omega
    · omega

end

theorem size_add (g : Registry) (increment : Nat) (r : TypeRecord) :
    (g.add increment r).size = g.size + 1 := Array.size_push r

theorem tags_add (g : Registry) (increment : Nat) (r : TypeRecord) :
    (g.add increment r).tags = g.tags ++ [r.tag.toNat] := by
  simp [tags, add]

/-- The look-ups agree with the records, the tags below the counter are accounted for, and every
type and every lost tag took one of the registrations `made` so far. -/
structure Sound (g : Registry) (lost : List Tag) (made : Nat) : Prop
    extends g.Indexed, g.Accounted lost where
  count : g.size + lost.length ≤ made

theorem sound_empty : Sound {} [] 0 where
  toIndexed := indexed_empty
  spent n hn := absurd hn (Nat.not_lt_zero n)
  lost_lt _ ht := absurd ht List.not_mem_nil
  count := Nat.le_refl 0

theorem base_lt_of_startTable {g : Registry} {base : Option Descriptor} {table : DispatchTable}
    (h : g.startTable base = .ok table) {e : Descriptor} (he : base = some e) :
    e.index < g.size := by
  subst he
  cases hr : g.get? e with
  | none => simp [startTable, hr] at h
  | some r => exact lt_size_of_get? hr

namespace Sound

variable {g : Registry} {lost : List Tag} {made : Nat}

theorem search (sound : g.Sound lost made) (few : made + 1 < UInt32.size) :
    g.Search g.nextTag g.unusedTag ∧ g.unusedTag.toNat + 1 < UInt32.size := by
  have := sound.count
  exact sound.toAccounted.search sound.toIndexed (by omega)

theorem install (sound : g.Sound lost made) (d : Descriptor) (b : Behavior) (c : Callback b) :
    (g.install d b c).Sound lost made := by
  have htags : ∀ {n}, n ∈ g.tags → n ∈ (g.install d b c).tags := by
    intro n hn
    obtain ⟨e, r, hr, hn⟩ := mem_tags.mp hn
    obtain ⟨r', hr', s⟩ := g.extends_install d b c e r hr
    exact mem_tags.mpr ⟨e, r', hr', by rw [s.tag, hn]⟩
  refine ⟨sound.toIndexed.install d b c, ⟨fun n hn => ?_, sound.lost_lt⟩, ?_⟩
  · rcases List.mem_append.mp (sound.spent n hn) with hn | hn
    · exact List.mem_append_left _ (htags hn)
    · exact List.mem_append_right _ hn
  · rw [size_install]
    exact sound.count

theorem add_chosen {r : TypeRecord} (sound : g.Sound lost made) (increment : Nat)
    (unused : g.usesTag r.tag = false) (hbase : ∀ e, r.base = some e → e.index < g.size) :
    (g.add increment r).Sound lost (made + 1) := by
  refine ⟨sound.toIndexed.add increment unused hbase, ⟨fun n hn => ?_, sound.lost_lt⟩, ?_⟩
  · rw [tags_add]
    rcases List.mem_append.mp (sound.spent n hn) with hn | hn
    · exact List.mem_append_left _ (List.mem_append_left _ hn)
    · exact List.mem_append_right _ hn
  · have := sound.count
    rw [size_add]
    omega

theorem add_drawn {r : TypeRecord} (sound : g.Sound lost made) (few : made + 1 < UInt32.size)
    (increment : Nat) (htag : r.tag = g.unusedTag)
    (hbase : ∀ e, r.base = some e → e.index < g.size) :
    ((g.drawn none).add increment r).Sound lost (made + 1) := by
  have hcount := sound.count
  have unused : (g.drawn none).usesTag r.tag = false := by
    rw [htag]
    exact (sound.search few).1.unused
  have htags : ((g.drawn none).add increment r).tags = g.tags ++ [g.unusedTag.toNat] := by
    rw [tags_add, htag]
    rfl
  refine ⟨(sound.toIndexed.drawn none).add increment unused hbase,
    sound.toAccounted.draw sound.toIndexed (by omega) rfl ?_ ?_ fun _ => .inl, ?_⟩
  · rw [htags]
    intro n hn
    rcases List.mem_append.mp hn with hn | hn
    · exact List.mem_append_left _ (List.mem_append_left _ hn)
    · exact List.mem_append_right _ hn
  · rw [htags]
    exact List.mem_append_left _ (List.mem_append_right _ List.mem_cons_self)
  · rw [size_add]
    show g.size + 1 + _ ≤ _
    omega

theorem lose (sound : g.Sound lost made) (few : made + 1 < UInt32.size) :
    (g.drawn none).Sound (lost ++ [g.unusedTag]) (made + 1) := by
  have hcount := sound.count
  refine ⟨sound.toIndexed.drawn none,
    sound.toAccounted.draw sound.toIndexed (by omega) rfl ?_ ?_ fun t ht => ?_, ?_⟩
  · rw [List.map_append, ← List.append_assoc]
    exact List.subset_append_left _ _
  · rw [List.map_append]
    exact List.mem_append_right _ (List.mem_append_right _ List.mem_cons_self)
  · exact (List.mem_append.mp ht).imp_right List.mem_singleton.mp
  · rw [List.length_append]
    show g.size + (lost.length + 1) ≤ _
    omega

theorem register (sound : g.Sound lost made) (few : made + 1 < UInt32.size) (increment : Nat)
    (name : String) (tag : Option Tag) (base : Option Descriptor) :
    (g.register increment name tag base).2.Sound (lost ++ (g.lost? tag base).toList)
      (made + 1) := by
  have later : g.Sound lost (made + 1) :=
    ⟨sound.toIndexed, sound.toAccounted, Nat.le_succ_of_le sound.count⟩
  rcases g.register_cases increment name tag base with
    ⟨table, unused, htable, heq⟩ | ⟨t, rfl, _, heq⟩ | ⟨e, rfl, hunknown, _, heq⟩
  · have hlost : g.lost? tag base = none := by cases tag <;> simp [lost?, htable]
    rw [heq, hlost, Option.toList_none, List.append_nil]
    have hbase : ∀ e, base = some e → e.index < g.size := fun _ => base_lt_of_startTable htable
    cases tag with
    | some t => exact sound.add_chosen increment (unused t rfl) hbase
    | none => exact sound.add_drawn few increment rfl hbase
  · rw [heq]
    exact (List.append_nil lost).symm ▸ later
  · rw [heq]
    cases tag with
    | some t => exact (List.append_nil lost).symm ▸ later
    | none =>
      have hlost : g.lost? none (some e) = some g.unusedTag := by
        simp [lost?, startTable, hunknown]
      rw [hlost]
      exact sound.lose few

end Sound

end Registry

namespace Heap

variable {h : Heap} {name : String} {tag : Option Tag} {base : Option Descriptor} {d : Descriptor}

theorem register_of_ok (ok : (h.register name tag base).1 = .ok d) :
    d = ⟨h.registry.size⟩ ∧ ∃ table, h.registry.startTable base = .ok table ∧
      (h.register name tag base).2.registry = (h.registry.drawn tag).add h.config.registryIncrement
        { name, tag := tag.getD h.registry.unusedTag, base, table } := by
  unfold register at ok ⊢
  rcases h.registry.register_cases h.config.registryIncrement name tag base with
    ⟨table, _, htable, heq⟩ | ⟨_, _, _, heq⟩ | ⟨_, _, _, _, heq⟩ <;> rw [heq] at ok ⊢ <;> cases ok
  exact ⟨rfl, table, htable, rfl⟩

/-- A registration that fails has drawn a tag, if it brought none, and done nothing else. -/
theorem register_of_error {e : Error} (failed : (h.register name tag base).1 = .error e) :
    (h.register name tag base).2.registry = h.registry.drawn tag := by
  unfold register at failed ⊢
  rcases h.registry.register_cases h.config.registryIncrement name tag base with
    ⟨_, _, _, heq⟩ | ⟨t, rfl, _, heq⟩ | ⟨_, _, _, _, heq⟩ <;> rw [heq] at failed ⊢
  · cases failed
  · rfl

theorem get?_of_register (ok : (h.register name tag base).1 = .ok d) :
    ∃ x, (h.register name tag base).2.registry.get? d = some x ∧ x.name = name ∧
      x.tag = tag.getD h.registry.unusedTag ∧ x.base = base := by
  obtain ⟨rfl, table, _, heq⟩ := register_of_ok ok
  rw [heq, Registry.get?_add, Registry.size_drawn, if_pos rfl]
  exact ⟨_, rfl, rfl, rfl, rfl⟩

end Heap

/-! ## The registry along a path -/

def Transition.lostTag? : Transition → Option Tag
  | ⟨.register _ tag base, h⟩ => h.registry.lost? tag base
  | _ => none

def Transition.registration? : Transition → Option (String × Option Tag × Option Descriptor)
  | ⟨.register name tag base, _⟩ => some (name, tag, base)
  | _ => none

def Transition.registers (t : Transition) : Bool := t.registration?.isSome

def lostTags (ts : List Transition) : List Tag := ts.filterMap Transition.lostTag?

def registrations (ts : List Transition) : Nat := ts.countP Transition.registers

theorem lostTags_cons (t : Transition) (ts : List Transition) :
    lostTags (t :: ts) = t.lostTag?.toList ++ lostTags ts := by
  unfold lostTags
  cases ht : t.lostTag? <;> simp [ht]

theorem registrations_cons (t : Transition) (ts : List Transition) :
    registrations (t :: ts) = registrations ts + if t.registers then 1 else 0 :=
  List.countP_cons

theorem registrations_append (ts us : List Transition) :
    registrations (ts ++ us) = registrations ts + registrations us := List.countP_append

namespace Transition

theorem eq_of_registration? {t : Transition} {name : String} {tag : Option Tag}
    {base : Option Descriptor} (ht : t.registration? = some (name, tag, base)) :
    t = ⟨.register name tag base, t.before⟩ := by
  obtain ⟨a, h⟩ := t
  cases a with
  | register => cases ht; rfl
  | _ => cases ht

theorem lostTag?_eq_none {t : Transition} (ht : t.registers = false) : t.lostTag? = none := by
  obtain ⟨a, h⟩ := t
  cases a with
  | register => cases ht
  | _ => rfl

theorem soundRegistry {t : Transition} {lost : List Tag} {made : Nat}
    (sound : t.before.registry.Sound lost made)
    (few : made + (if t.registers then 1 else 0) < UInt32.size) :
    t.after.registry.Sound (lost ++ t.lostTag?.toList) (made + if t.registers then 1 else 0) := by
  cases hreg : t.registers with
  | true =>
    rw [hreg] at few
    obtain ⟨a, h⟩ := t
    cases a with
    | register name tag base => exact sound.register few _ name tag base
    | _ => cases hreg
  | false =>
    rw [lostTag?_eq_none hreg]
    refine (List.append_nil lost).symm ▸ ?_
    cases ht : t.action.typing with
    | false => exact (sameTypes ht).registry ▸ sound
    | true =>
      obtain ⟨a, h⟩ := t
      cases a with
      | install d b c => exact sound.install d b c
      | register => cases hreg
      | _ => cases ht

theorem extendsRegistry (t : Transition) : t.before.registry.Extends t.after.registry := by
  cases ht : t.action.typing with
  | false => exact (sameTypes ht).registry ▸ .refl _
  | true =>
    obtain ⟨a, h⟩ := t
    cases a with
    | register name tag base => exact h.registry.extends_register _ name tag base
    | install d b c => exact h.registry.extends_install d b c
    | _ => cases ht

end Transition

namespace Path

variable {h h' : Heap} {ts : List Transition}

theorem soundRegistry {lost : List Tag} {made : Nat} (p : Path h ts h')
    (sound : h.registry.Sound lost made) (few : made + registrations ts < UInt32.size) :
    h'.registry.Sound (lost ++ lostTags ts) (made + registrations ts) := by
  induction p generalizing lost made with
  | nil => exact (List.append_nil lost).symm ▸ sound
  | @cons t ts _ _ ih =>
    rw [registrations_cons] at few ⊢
    have := ih (t.soundRegistry sound (by omega)) (by omega)
    rw [lostTags_cons, ← List.append_assoc]
    rwa [show made + (registrations ts + if t.registers then 1 else 0) =
      made + (if t.registers then 1 else 0) + registrations ts by omega]

theorem pairwise_extends (p : Path h ts h') :
    (h :: ts.map Transition.after).Pairwise fun k k' => k.registry.Extends k'.registry := by
  induction p with
  | nil => exact List.pairwise_singleton _ _
  | cons t p ih =>
    refine List.pairwise_cons.mpr ⟨fun k hk => ?_, ih⟩
    rcases List.mem_cons.mp hk with rfl | hk
    · exact t.extendsRegistry
    · exact t.extendsRegistry.trans ((List.pairwise_cons.mp ih).1 k hk)

end Path

/-! ## The registry of a session -/

namespace Registry

/-- What one can rely on when one asks for the types.  No two have one tag, and a tag leads to the
type that has it; a name leads to the type of that name registered last; and a base is registered,
before the types that are derived from it. -/
structure Consistent (g : Registry) : Prop where
  distinct : ∀ {d e r r'}, g.get? d = some r → g.get? e = some r' → r.tag = r'.tag → d = e
  tagged : ∀ {t d}, g.withTag? t = some d ↔ ∃ r, g.get? d = some r ∧ r.tag = t
  named : ∀ {n d}, g.named? n = some d ↔
    IsGreatest {i | ∃ r, g.get? ⟨i⟩ = some r ∧ r.name = n} d.index
  unnamed : ∀ {n}, g.named? n = none ↔ ∀ d r, g.get? d = some r → r.name ≠ n
  base : ∀ {d r e}, g.get? d = some r → r.base = some e →
    (∃ r', g.get? e = some r') ∧ e.index < d.index

theorem Indexed.consistent {g : Registry} (x : g.Indexed) : g.Consistent where
  distinct {d e r r'} hr hr' htag := by
    have hd := x.tag.mpr ⟨r, hr, rfl⟩
    have he := x.tag.mpr ⟨r', hr', htag.symm⟩
    exact Option.some.inj (hd.symm.trans he)
  tagged := x.tag
  named {n d} := by
    refine ⟨x.named, fun greatest => ?_⟩
    cases hn : g.named? n with
    | none =>
      obtain ⟨⟨r, hr, hname⟩, _⟩ := greatest
      exact absurd hname (x.unnamed hn hr)
    | some e =>
      have heq : e.index = d.index := (x.named hn).unique greatest
      exact congrArg some (congrArg Descriptor.mk heq)
  unnamed {n} := by
    refine ⟨fun hn d r => x.unnamed hn, fun no => ?_⟩
    cases hn : g.named? n with
    | none => rfl
    | some e =>
      obtain ⟨⟨r, hr, hname⟩, _⟩ := x.named hn
      exact absurd hname (no _ r hr)
  base {d r e} hr he := by
    have hlt := x.base hr he
    exact ⟨get?_of_lt (Nat.lt_trans hlt (lt_size_of_get? hr)), hlt⟩

end Registry

namespace Session

variable {s : Session} {r : Runner}

theorem registrations_before (few : registrations (s.history r) < UInt32.size)
    {past rest : List Transition} {t : Transition} (heq : s.history r = past ++ t :: rest)
    (ht : t.registers = true) : registrations past + 1 < UInt32.size := by
  rw [heq, registrations_append, registrations_cons, if_pos ht] at few
  omega

theorem soundRegistry_before (few : registrations (s.history r) < UInt32.size)
    {past rest : List Transition} {t : Transition} (heq : s.history r = past ++ t :: rest) :
    t.before.registry.Sound (lostTags past) (registrations past) := by
  rw [heq, registrations_append] at few
  have sound := (path_before heq).soundRegistry Registry.sound_empty (by omega)
  rwa [Nat.zero_add] at sound

end Session

/-- The registry of a session with fewer than 2³² registrations, successful or not.  At every moment
the look-ups agree with the types.  What is registered keeps its place, its name, its tag and its
base.  At a registration without a tag the search goes up from the counter to the first tag that no
type has, and no sum on the way is too large for 32 bits; a registration that succeeds has
registered what was asked for. -/
theorem Session.registry_consistent (s : Session) (r : Runner)
    (few : registrations (s.history r) < UInt32.size) :
    (∀ h ∈ s.moments r, h.registry.Consistent) ∧
      ((s.moments r).Pairwise fun h h' => h.registry.Extends h'.registry) ∧
      ∀ name tag base h, (⟨.register name tag base, h⟩ : Transition) ∈ s.history r →
        (tag = none → h.registry.Search h.registry.nextTag h.registry.unusedTag ∧
          h.registry.unusedTag.toNat + 1 < UInt32.size) ∧
        ∀ d, (h.register name tag base).1 = .ok d →
          ∃ x, (h.register name tag base).2.registry.get? d = some x ∧ x.name = name ∧
            x.tag = tag.getD h.registry.unusedTag ∧ x.base = base := by
  refine ⟨fun h hh => ?_, ?_, fun name tag base h ht => ⟨fun _ => ?_, fun d hd => ?_⟩⟩
  · obtain ⟨past, rest, heq, path⟩ := exists_path_of_mem_moments hh
    rw [heq, registrations_append] at few
    have sound := path.soundRegistry Registry.sound_empty (by omega)
    exact sound.toIndexed.consistent
  · obtain ⟨_, path⟩ := s.path_history r
    exact path.pairwise_extends
  · obtain ⟨past, rest, heq⟩ := List.append_of_mem ht
    exact (soundRegistry_before few heq).search (registrations_before few heq rfl)
  · exact Heap.get?_of_register hd

/-- A session with chosen tags, the largest one among them, automatic tags between them, and
registrations that fail in both ways. -/
def mixedTags : Session where
  containers := false
  steps := [.op (.register "cell" (some 0)), .op (.register "word" (some 4294967295)),
    .op (.register "cell" none), .op (.derive "pair" none (.index ⟨7⟩)),
    .op (.register "twin" (some 1)), .op (.derive "twin" none (.index ⟨2⟩))]

theorem Session.registry_consistent_mixedTags :
    registrations (mixedTags.history (.ofDepth 1)) = 6 ∧
      (mixedTags.closing (.ofDepth 1)).heap.registry.Consistent ∧
      (mixedTags.closing (.ofDepth 1)).heap.registry.tags = [0, 4294967295, 1, 3] ∧
      (mixedTags.closing (.ofDepth 1)).heap.registry.named? "cell" = some ⟨2⟩ := by
  have hmade : registrations (mixedTags.history (.ofDepth 1)) = 6 := by decide +kernel
  obtain ⟨consistent, _, _⟩ :=
    mixedTags.registry_consistent (.ofDepth 1) (by rw [hmade]; decide)
  exact ⟨hmade, consistent _ (mixedTags.closing_mem_moments _), by decide +kernel,
    by decide +kernel⟩

end TracedHeap
