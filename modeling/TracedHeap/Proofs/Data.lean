import Mathlib.Logic.Function.Basic
import TracedHeap.Containers.Sequence
import TracedHeap.Proofs.Reading
import TracedHeap.Value

/-!
# Data and their texts

A datum is what a value stands for if one looks at nothing but content: an immediate, a text, or an
array or a list of data.  Its text tells it from all others.

* `Datum`, `Datum.render`   data and their texts;
* `Breaks`                  what can come after an element: nothing, a blank or a closing bracket;
* `Datum.Tells`             the text ends where it ends if such follows, and tells its datum;
* `Datum.render_injective`  data with one text are one.
-/

namespace TracedHeap

inductive Atom where
  | int (n : Int64)
  | bool (b : Bool)
  | nil
  | undefined
deriving DecidableEq

def Atom.value : Atom → Value
  | int n => .int n
  | bool b => .bool b
  | nil => .nil
  | undefined => .undefined

inductive Shape where
  | array
  | list
deriving DecidableEq

def Shape.brackets : Shape → Brackets
  | array => .array
  | list => .list

/-- The content of a value. -/
inductive Datum where
  | atom (a : Atom)
  | text (s : String)
  | items (shape : Shape) (elements : List Datum)

namespace Datum

def render : Datum → String
  | atom a => a.value.render
  | text s => Text.quote s
  | items shape elements => shape.brackets.around (String.intercalate " " (elements.map render))

/-- What holds of the elements of a sequence and then of the sequence holds of all data. -/
@[elab_as_elim]
theorem induct {P : Datum → Prop} (atom : ∀ a, P (atom a)) (text : ∀ s, P (text s))
    (items : ∀ shape elements, (∀ t ∈ elements, P t) → P (items shape elements)) : ∀ t, P t
  | .atom a => atom a
  | .text s => text s
  | .items shape elements => items shape elements fun t _ => induct atom text items t

end Datum

/-! ## Where an element ends -/

/-- What can come after an element. -/
def Breaks (rest : List Char) : Prop := ∀ c ∈ rest.head?, c ∈ [' ', ']', ')']

theorem breaks_nil : Breaks [] := fun _ hc => by cases hc

theorem breaks_cons {c : Char} {rest : List Char} (hc : c ∈ [' ', ']', ')']) : Breaks (c :: rest) :=
  fun _ hc' => Option.some.inj hc' ▸ hc

theorem append_inj_of_breaks {cs ds rest rest' : List Char} (hcs : ∀ c ∈ cs, c ∉ [' ', ']', ')'])
    (hds : ∀ c ∈ ds, c ∉ [' ', ']', ')']) (hrest : Breaks rest) (hrest' : Breaks rest')
    (h : cs ++ rest = ds ++ rest') : cs = ds ∧ rest = rest' := by
  induction cs generalizing ds with
  | nil =>
    cases ds with
    | nil => exact ⟨rfl, h⟩
    | cons d ds =>
      have hd : d ∈ [' ', ']', ')'] := hrest d (by rw [show rest = _ from h]; rfl)
      exact absurd hd (hds d List.mem_cons_self)
  | cons c cs ih =>
    cases ds with
    | nil =>
      have hc : c ∈ [' ', ']', ')'] := hrest' c (by rw [show rest' = _ from h.symm]; rfl)
      exact absurd hc (hcs c List.mem_cons_self)
    | cons d ds =>
      obtain ⟨rfl, htail⟩ := List.cons.inj h
      obtain ⟨rfl, hrests⟩ := ih (fun c hc => hcs c (List.mem_cons_of_mem _ hc))
        (fun d hd => hds d (List.mem_cons_of_mem _ hd)) htail
      exact ⟨rfl, hrests⟩

/-! ## Immediates -/

namespace Atom

variable {a b : Atom}

theorem render_ne_nil (a : Atom) : a.value.render.toList ≠ [] := by
  cases a with
  | int n => exact Text.toList_toString_int_ne_nil n.toInt
  | bool b => cases b <;> decide
  | nil | undefined => decide

theorem not_mem_of_mem_render {c : Char} (hc : c ∈ a.value.render.toList) :
    c ∉ [' ', ']', ')', '"', '[', '('] := by
  have of_all {s : String} (hs : (s.toList.all fun c => c ∉ [' ', ']', ')', '"', '[', '(']) = true)
      (hc : c ∈ s.toList) : c ∉ [' ', ']', ')', '"', '[', '('] :=
    of_decide_eq_true (List.all_eq_true.mp hs c hc)
  cases a with
  | int n =>
    intro hmem
    have hno : ([' ', ']', ')', '"', '[', '('].all fun c => ¬ (c = '-' ∨ c.isDigit = true)) = true := by
      decide
    exact of_decide_eq_true (List.all_eq_true.mp hno c hmem) (Text.mem_toString_int hc)
  | bool b => cases b <;> exact of_all (by decide) hc
  | nil | undefined => exact of_all (by decide) hc

theorem toString_int_ne {n : Int} {s : String}
    (hs : (s.toList.any fun c => ¬ (c = '-' ∨ c.isDigit = true)) = true) : toString n ≠ s := by
  rintro rfl
  obtain ⟨c, hc, hne⟩ := List.any_eq_true.mp hs
  exact of_decide_eq_true hne (Text.mem_toString_int hc)

theorem render_injective (h : a.value.render = b.value.render) : a = b := by
  cases a with
  | int n =>
    cases b with
    | int m =>
      have hread := congrArg (fun s => Text.readInt s.toList) h
      simp only [value, Value.render, Text.readInt_toString] at hread
      rw [Int64.toInt_inj.mp hread]
    | bool b => cases b <;> exact absurd h (toString_int_ne (by decide))
    | nil | undefined => exact absurd h (toString_int_ne (by decide))
  | bool a =>
    cases b with
    | int m => cases a <;> exact absurd h.symm (toString_int_ne (by decide))
    | bool b => cases a <;> cases b <;> first | rfl | exact absurd h (by decide)
    | nil | undefined => cases a <;> exact absurd h (by decide)
  | nil =>
    cases b with
    | int m => exact absurd h.symm (toString_int_ne (by decide))
    | bool b => cases b <;> exact absurd h (by decide)
    | nil => rfl
    | undefined => exact absurd h (by decide)
  | undefined =>
    cases b with
    | int m => exact absurd h.symm (toString_int_ne (by decide))
    | bool b => cases b <;> exact absurd h (by decide)
    | nil => exact absurd h (by decide)
    | undefined => rfl

theorem value_injective (h : a.value = b.value) : a = b := render_injective (congrArg Value.render h)

end Atom

/-! ## Sequences -/

namespace Shape

def left : Shape → Char
  | array => '['
  | list => '('

def right : Shape → Char
  | array => ']'
  | list => ')'

theorem toList_around (shape : Shape) (s : String) :
    (shape.brackets.around s).toList = shape.left :: (s.toList ++ [shape.right]) := by
  cases shape <;> simp [brackets, Brackets.around, Brackets.array, Brackets.list, left, right]

end Shape

namespace Datum

def following (ts : List Datum) : List Char := ts.flatMap fun t => ' ' :: t.render.toList

def joined : List Datum → List Char
  | [] => []
  | t :: ts => t.render.toList ++ following ts

theorem following_cons_append (t : Datum) (ts : List Datum) (rest : List Char) :
    following (t :: ts) ++ rest = ' ' :: (t.render.toList ++ (following ts ++ rest)) := by
  unfold following
  rw [List.flatMap_cons, List.append_assoc]
  rfl

theorem joined_cons_append (t : Datum) (ts : List Datum) (rest : List Char) :
    joined (t :: ts) ++ rest = t.render.toList ++ (following ts ++ rest) :=
  List.append_assoc _ _ _

theorem toList_intercalate_render (ts : List Datum) :
    (String.intercalate " " (ts.map render)).toList = joined ts := by
  rw [String.toList_intercalate, List.map_map]
  cases ts with
  | nil => rfl
  | cons t ts =>
    unfold joined
    induction ts generalizing t with
    | nil => simp [following]
    | cons u ts ih =>
      have ih := ih u
      simp only [List.map_cons, Function.comp_apply] at ih ⊢
      rw [List.intercalate_cons_cons, ih]
      simp [following]

theorem toList_render_items (shape : Shape) (ts : List Datum) :
    (items shape ts).render.toList = shape.left :: (joined ts ++ [shape.right]) := by
  rw [render, Shape.toList_around, toList_intercalate_render]

/-- The character that tells texts and sequences from immediates, and from each other. -/
def lead : Datum → Option Char
  | atom _ => none
  | text _ => some '"'
  | items shape _ => some shape.left

theorem exists_head_render (t : Datum) :
    ∃ c cs, t.render.toList = c :: cs ∧ c ∉ [' ', ']', ')'] ∧
      t.lead = if c ∈ ['"', '[', '('] then some c else none := by
  cases t with
  | atom a =>
    rw [render]
    obtain ⟨c, cs, hcs⟩ := List.exists_cons_of_ne_nil a.render_ne_nil
    have hc := Atom.not_mem_of_mem_render (a := a) (c := c) (hcs ▸ List.mem_cons_self)
    simp only [List.mem_cons, List.not_mem_nil, or_false, not_or] at hc
    refine ⟨c, cs, hcs, by simp [hc], ?_⟩
    simp [lead, hc]
  | text s =>
    rw [render, Text.toList_quote]
    exact ⟨_, _, rfl, by decide, rfl⟩
  | items shape ts =>
    rw [toList_render_items]
    cases shape <;> exact ⟨_, _, rfl, by decide, rfl⟩

theorem lead_eq_of_append {t u : Datum} {rest rest' : List Char}
    (h : t.render.toList ++ rest = u.render.toList ++ rest') : t.lead = u.lead := by
  obtain ⟨c, cs, hcs, _, hc⟩ := t.exists_head_render
  obtain ⟨d, ds, hds, _, hd⟩ := u.exists_head_render
  rw [hcs, hds] at h
  rw [hc, hd, (List.cons.inj h).1]

/-- The text of the datum ends where it ends if something follows that an element can be followed by,
and tells the datum. -/
def Tells (t : Datum) : Prop :=
  ∀ (u : Datum) (rest rest' : List Char), Breaks rest → Breaks rest' →
    t.render.toList ++ rest = u.render.toList ++ rest' → t = u ∧ rest = rest'

section
variable {ts us : List Datum} {shape shape' : Shape} {rest rest' : List Char}

theorem breaks_following (ts : List Datum) (shape : Shape) (rest : List Char) :
    Breaks (following ts ++ shape.right :: rest) := by
  cases ts with
  | nil => cases shape <;> exact breaks_cons (by decide)
  | cons t ts => exact breaks_cons (by decide)

theorem joined_append_ne (t : Datum) (ts : List Datum) (following' rest : List Char) :
    joined (t :: ts) ++ following' ≠ shape.right :: rest := by
  obtain ⟨c, cs, hcs, hc, _⟩ := t.exists_head_render
  intro h
  rw [joined_cons_append, hcs] at h
  rw [(List.cons.inj h).1] at hc
  cases shape <;> exact hc (by decide)

theorem following_append_inj (each : ∀ t ∈ ts, t.Tells)
    (h : following ts ++ shape.right :: rest = following us ++ shape'.right :: rest') :
    ts = us ∧ rest = rest' := by
  induction ts generalizing us with
  | nil =>
    cases us with
    | nil => exact ⟨rfl, (List.cons.inj h).2⟩
    | cons u us =>
      -- a bracket is no blank
      have hright : shape.right = ' ' := (List.cons.inj h).1
      cases shape <;> cases hright
  | cons t ts ih =>
    cases us with
    | nil =>
      have hright : ' ' = shape'.right := (List.cons.inj h).1
      cases shape' <;> cases hright
    | cons u us =>
      obtain ⟨first, others⟩ := List.forall_mem_cons.mp each
      rw [following_cons_append, following_cons_append] at h
      obtain ⟨rfl, htail⟩ := first u _ _ (breaks_following ts shape rest)
        (breaks_following us shape' rest') (List.cons.inj h).2
      obtain ⟨rfl, hrest⟩ := ih others htail
      exact ⟨rfl, hrest⟩

theorem joined_append_inj (each : ∀ t ∈ ts, t.Tells)
    (h : joined ts ++ shape.right :: rest = joined us ++ shape'.right :: rest') :
    ts = us ∧ rest = rest' := by
  cases ts with
  | nil =>
    cases us with
    | nil => exact ⟨rfl, (List.cons.inj h).2⟩
    | cons u us => exact absurd h.symm (joined_append_ne u us _ _)
  | cons t ts =>
    cases us with
    | nil => exact absurd h (joined_append_ne t ts _ _)
    | cons u us =>
      obtain ⟨first, others⟩ := List.forall_mem_cons.mp each
      rw [joined_cons_append, joined_cons_append] at h
      obtain ⟨rfl, htail⟩ := first u _ _ (breaks_following ts shape rest)
        (breaks_following us shape' rest') h
      obtain ⟨rfl, hrest⟩ := following_append_inj others htail
      exact ⟨rfl, hrest⟩

end

theorem tells (t : Datum) : t.Tells := by
  intro u rest rest' hrest hrest' h
  have hlead := lead_eq_of_append h
  induction t using induct generalizing u rest rest' with
  | atom a =>
    cases u with
    | atom b =>
      have plain : ∀ (a : Atom), ∀ c ∈ a.value.render.toList, c ∉ [' ', ']', ')'] :=
        fun a c hc hmem => Atom.not_mem_of_mem_render hc (List.mem_append_left _ hmem)
      rw [render, render] at h
      obtain ⟨heq, hends⟩ := append_inj_of_breaks (plain a) (plain b) hrest hrest' h
      exact ⟨congrArg atom (Atom.render_injective (String.toList_injective heq)), hends⟩
    | text | items => cases hlead
  | text s =>
    cases u with
    | text s' =>
      rw [render, render] at h
      obtain ⟨rfl, hends⟩ := Text.quote_append_inj h
      exact ⟨rfl, hends⟩
    | atom => cases hlead
    | items shape => cases shape <;> cases hlead
  | items shape ts ih =>
    cases u with
    | items shape' us =>
      have hshape : shape = shape' := by
        cases shape <;> cases shape' <;> first | rfl | cases hlead
      subst hshape
      rw [toList_render_items, toList_render_items, List.cons_append, List.cons_append,
        List.append_assoc, List.append_assoc] at h
      obtain ⟨rfl, hends⟩ := joined_append_inj (fun t ht u rest rest' hrest hrest' h =>
        ih t ht u rest rest' hrest hrest' h (lead_eq_of_append h)) (List.cons.inj h).2
      exact ⟨rfl, hends⟩
    | atom => cases hlead
    | text => cases shape <;> cases hlead

/-- Data with one text are one. -/
theorem render_injective : Function.Injective render := by
  intro t u h
  have happend : t.render.toList ++ [] = u.render.toList ++ [] := by rw [h]
  exact (tells t u [] [] breaks_nil breaks_nil happend).1

end Datum

end TracedHeap
