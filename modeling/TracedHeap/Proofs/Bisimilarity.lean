import Mathlib.Data.List.Forall2
import Mathlib.Order.FixedPoints
import TracedHeap.Machine

/-!
# Bisimilar values

When two values are equal is said here without a comparison that runs: the same values are, strings
with the same text are, and arrays, or lists, whose elements are equal in order.  Arrays can hold
themselves, so this has many solutions, and the largest one is meant.

* `Heap.Matches`         one step: what makes two values equal, if it is known which elements are;
* `Heap.Bisimilar`       the largest relation that agrees with that; it is an equivalence;
* `Heap.BisimilarUpTo`   the same where some pairs are taken to be equal.  That is what a comparison
                         finds out that has these pairs in progress (`BisimilarUpTo.of_cons`);
* `Bisimilar.transfer`   bisimilarity depends on strings, arrays and lists within the two values.
-/

namespace TracedHeap

theorem forall₂_comp {α β γ : Type} {R : α → β → Prop} {S : β → γ → Prop} {xs : List α}
    {ys : List β} {zs : List γ} (first : List.Forall₂ R xs ys) (second : List.Forall₂ S ys zs) :
    List.Forall₂ (Relation.Comp R S) xs zs := by
  induction first generalizing zs with
  | nil =>
    cases second
    exact .nil
  | cons hxy _ ih =>
    cases second with
    | cons hyz rest => exact .cons ⟨_, hxy, hyz⟩ (ih rest)

namespace Heap

def Is (h : Heap) (v : Value) (d : Descriptor) (p : Payload) : Prop :=
  ∃ x, h.find? v = some x ∧ x.descriptor = d ∧ x.payload = p

instance (h : Heap) (v : Value) (d : Descriptor) (p : Payload) : Decidable (h.Is v d p) :=
  decidable_of_iff ((h.find? v).any fun x => x.descriptor = d ∧ x.payload = p) <| by
    rw [Option.any_eq_true]
    simp only [decide_eq_true_eq]
    rfl

theorem Is.unique {h : Heap} {v : Value} {d d' : Descriptor} {p p' : Payload} (a : h.Is v d p)
    (b : h.Is v d' p') : d' = d ∧ p' = p := by
  obtain ⟨x, hx, rfl, rfl⟩ := a
  obtain ⟨y, hy, rfl, rfl⟩ := b
  rw [hx] at hy
  cases hy
  exact ⟨rfl, rfl⟩

/-- What makes two values equal, if `R` says which elements are: they are the same, or strings with
the same text, or arrays or else lists whose elements are equal in order. -/
inductive Matches (c : Containers) (h : Heap) (R : Value → Value → Prop) :
    Value → Value → Prop where
  | same (v : Value) : Matches c h R v v
  | texts {v w : Value} {s : String} :
      h.Is v c.string (.text s) → h.Is w c.string (.text s) → Matches c h R v w
  | items {v w : Value} {d : Descriptor} {xs ys : List Value} : d = c.array ∨ d = c.list →
      h.Is v d (.items xs) → h.Is w d (.items ys) → List.Forall₂ R xs ys → Matches c h R v w

section
variable {c : Containers} {h : Heap} {R S : Value → Value → Prop} {u v w : Value}

theorem Matches.mono (le : ∀ a b, R a b → S a b) (m : h.Matches c R v w) : h.Matches c S v w := by
  cases m with
  | same => exact .same v
  | texts hv hw => exact .texts hv hw
  | items hd hv hw all => exact .items hd hv hw (all.imp le)

theorem Matches.symm (m : h.Matches c R v w) : h.Matches c (flip R) w v := by
  cases m with
  | same => exact .same v
  | texts hv hw => exact .texts hw hv
  | items hd hv hw all => exact .items hd hw hv (List.Forall₂.flip all)

theorem Matches.trans (le : ∀ a b, R a b → Relation.Comp R R a b) (first : h.Matches c R u v)
    (second : h.Matches c R v w) : h.Matches c (Relation.Comp R R) u w := by
  cases first with
  | same => exact second.mono le
  | texts hu hv =>
    cases second with
    | same => exact .texts hu hv
    | texts hv' hw =>
      cases (hv.unique hv').2
      exact .texts hu hw
    | items _ hv' _ _ => cases (hv.unique hv').2
  | items hd hu hv all =>
    cases second with
    | same => exact .items hd hu hv (all.imp le)
    | texts hv' _ => cases (hv.unique hv').2
    | items _ hv' hw all' =>
      obtain ⟨rfl, heq⟩ := hv.unique hv'
      cases heq
      exact .items hd hu hw (forall₂_comp all all')

end

def matching (c : Containers) (h : Heap) :
    (Value → Value → Prop) →o (Value → Value → Prop) where
  toFun := h.Matches c
  monotone' _ _ le _ _ := Matches.mono le

/-- The values are related by the largest relation in which related values match. -/
def Bisimilar (c : Containers) (h : Heap) : Value → Value → Prop := (h.matching c).gfp

namespace Bisimilar

variable {c : Containers} {h : Heap} {u v w : Value}

theorem matches_self (b : h.Bisimilar c v w) : h.Matches c (h.Bisimilar c) v w :=
  (h.matching c).map_gfp.ge v w b

/-- To show that values are bisimilar, give a relation in which related values match. -/
theorem of_relation {R : Value → Value → Prop} (step : ∀ a b, R a b → h.Matches c R a b)
    (hvw : R v w) : h.Bisimilar c v w :=
  (h.matching c).le_gfp step v w hvw

theorem of_matches (m : h.Matches c (h.Bisimilar c) v w) : h.Bisimilar c v w :=
  (h.matching c).map_gfp.le v w m

theorem isGreatest (c : Containers) (h : Heap) :
    IsGreatest {R | ∀ v w, R v w → h.Matches c R v w} (h.Bisimilar c) :=
  (h.matching c).isGreatest_gfp_le

theorem refl (v : Value) : h.Bisimilar c v v := of_matches (.same v)

theorem symm (b : h.Bisimilar c v w) : h.Bisimilar c w v :=
  of_relation (R := flip (h.Bisimilar c)) (fun _ _ hab => hab.matches_self.symm) b

theorem trans (first : h.Bisimilar c u v) (second : h.Bisimilar c v w) : h.Bisimilar c u w := by
  refine of_relation (R := Relation.Comp (h.Bisimilar c) (h.Bisimilar c)) ?_ ⟨v, first, second⟩
  rintro a b ⟨m, ham, hmb⟩
  exact ham.matches_self.trans (fun _ y hxy => ⟨y, hxy, refl y⟩) hmb.matches_self

theorem equivalence (c : Containers) (h : Heap) : Equivalence (h.Bisimilar c) :=
  ⟨refl, symm, trans⟩

/-- Bisimilar values stay so on a heap that has the same strings, arrays and lists among the values
that `K` says; with an array or a list it must say so of its elements. -/
theorem transfer {h' : Heap} {K : Value → Prop}
    (texts : ∀ a s, K a → h.Is a c.string (.text s) → h'.Is a c.string (.text s))
    (items : ∀ a d xs, K a → d = c.array ∨ d = c.list → h.Is a d (.items xs) →
      h'.Is a d (.items xs) ∧ ∀ x ∈ xs, K x)
    (hv : K v) (hw : K w) (b : h.Bisimilar c v w) : h'.Bisimilar c v w := by
  let R : Value → Value → Prop := fun a b => K a ∧ K b ∧ h.Bisimilar c a b
  refine of_relation (R := R) ?_ ⟨hv, hw, b⟩
  rintro a b ⟨ha, hb, hab⟩
  cases hab.matches_self with
  | same => exact .same a
  | texts hta htb => exact .texts (texts a _ ha hta) (texts b _ hb htb)
  | items hd hia hib all =>
    obtain ⟨hia', hxs⟩ := items a _ _ ha hd hia
    obtain ⟨hib', hys⟩ := items b _ _ hb hd hib
    refine .items hd hia' hib' ?_
    obtain ⟨hlength, hzip⟩ := List.forall₂_iff_zip.mp all
    refine List.forall₂_iff_zip.mpr ⟨hlength, fun {x y} hxy => ?_⟩
    obtain ⟨hx, hy⟩ := List.of_mem_zip hxy
    exact ⟨hxs x hx, hys y hy, hzip hxy⟩

end Bisimilar

def matchingUpTo (c : Containers) (h : Heap) (S : List (Value × Value)) :
    (Value → Value → Prop) →o (Value → Value → Prop) where
  toFun R v w := (v, w) ∈ S ∨ h.Matches c R v w
  monotone' _ _ le _ _ := Or.imp_right (Matches.mono le)

/-- The values are bisimilar if the pairs in `S` are taken to be. -/
def BisimilarUpTo (c : Containers) (h : Heap) (S : List (Value × Value)) :
    Value → Value → Prop :=
  (h.matchingUpTo c S).gfp

namespace BisimilarUpTo

variable {c : Containers} {h : Heap} {S : List (Value × Value)} {v w : Value}

theorem or_matches (b : h.BisimilarUpTo c S v w) :
    (v, w) ∈ S ∨ h.Matches c (h.BisimilarUpTo c S) v w :=
  (h.matchingUpTo c S).map_gfp.ge v w b

theorem of_mem (hvw : (v, w) ∈ S) : h.BisimilarUpTo c S v w :=
  (h.matchingUpTo c S).map_gfp.le v w (Or.inl hvw)

theorem of_matches (m : h.Matches c (h.BisimilarUpTo c S) v w) : h.BisimilarUpTo c S v w :=
  (h.matchingUpTo c S).map_gfp.le v w (Or.inr m)

/-- A pair that matches if it is itself taken to be bisimilar need not be taken so. -/
theorem of_cons (m : h.Matches c (h.BisimilarUpTo c ((v, w) :: S)) v w) :
    h.BisimilarUpTo c S v w := by
  have le : h.BisimilarUpTo c ((v, w) :: S) ≤ h.BisimilarUpTo c S := by
    refine OrderHom.le_gfp _ fun a b hab => ?_
    rcases hab.or_matches with hmem | hmatches
    · rcases List.mem_cons.mp hmem with heq | hmem
      · cases heq
        exact Or.inr m
      · exact Or.inl hmem
    · exact Or.inr hmatches
  exact le v w (of_mem List.mem_cons_self)

theorem bisimilar (b : h.BisimilarUpTo c [] v w) : h.Bisimilar c v w := by
  refine Bisimilar.of_relation (R := h.BisimilarUpTo c []) (fun a b hab => ?_) b
  rcases hab.or_matches with hmem | hmatches
  · cases hmem
  · exact hmatches

end BisimilarUpTo

end Heap

end TracedHeap
