import Mathlib.Data.List.Induction
import TracedHeap.Proofs.Conversion
import TracedHeap.Proofs.Registration

/-!
# Inheritance of callbacks

A derived type starts with a copy of the callbacks that its base has at that moment.  From then on
the two go their own ways: what is installed on one of them says nothing about the other.

* `Origin`                        where the callback of a type for a behavior comes from, by the
                                  registrations and installs alone;
* `Transition.callback?_after`    the callbacks that a transition leaves as they are;
* `Path.callback?_eq`             a callback stays until another one is installed in its place;
* `Path.origin`, `Origin.callback?_eq`
                                  the callbacks of a heap are those that its history gives;
* `dispatch_follows_history`      both, and what an install cannot do.
-/

namespace TracedHeap

namespace Registry

variable {g : Registry} {d : Descriptor} {b : Behavior}

/-! ## One install, one registration -/

theorem callback?_eq_none (hd : g.size ≤ d.index) : g.callback? d b = none := by
  have hget : g.get? d = none := Array.getElem?_eq_none hd
  rw [callback?, hget]
  rfl

theorem callback?_install_self (hd : d.index < g.size) (c : Callback b) :
    (g.install d b c).callback? d b = some c := by
  obtain ⟨r, hr⟩ := get?_of_lt hd
  rw [callback?, get?_install, hr]
  show DispatchTable.entry (ite (d = d) _ _ : TypeRecord).table b = some c
  rw [if_pos rfl]
  exact r.table.entry_install_self b c

theorem callback?_install_of_ne {e : Descriptor} {b' : Behavior} (c : Callback b')
    (h : e ≠ d ∨ b' ≠ b) : (g.install e b' c).callback? d b = g.callback? d b := by
  unfold callback?
  rw [get?_install]
  cases g.get? d with
  | none => rfl
  | some r =>
    show DispatchTable.entry (ite (e = d) _ _ : TypeRecord).table b = r.table.entry b
    split
    · next he => exact r.table.entry_install_of_ne c (h.resolve_left (not_not_intro he))
    · rfl

theorem install_of_unknown (hd : g.size ≤ d.index) (c : Callback b) : g.install d b c = g := by
  have hrecords : g.records.modify d.index
      (fun r => { r with table := r.table.install b c }) = g.records := by
    refine Array.ext_getElem? fun i => ?_
    rw [Array.getElem?_modify]
    split
    · next hi =>
      subst hi
      rw [Array.getElem?_eq_none hd]
      rfl
    · rfl
  rw [install, hrecords]

theorem callback?_add (g : Registry) (increment : Nat) (r : TypeRecord) (d : Descriptor)
    (b : Behavior) : (g.add increment r).callback? d b =
      if d.index = g.size then r.table.entry b else g.callback? d b := by
  rw [callback?, get?_add]
  split <;> rfl

theorem callback?_drawn (g : Registry) (tag : Option Tag) (d : Descriptor) (b : Behavior) :
    (g.drawn tag).callback? d b = g.callback? d b := by
  rw [callback?, get?_drawn]
  rfl

theorem entry_of_startTable {base : Option Descriptor} {table : DispatchTable}
    (h : g.startTable base = .ok table) (b : Behavior) :
    table.entry b = base.bind fun e => g.callback? e b := by
  cases base with
  | none =>
    cases h
    rfl
  | some e =>
    rw [Option.bind_some, callback?]
    cases hr : g.get? e with
    | none =>
      simp only [startTable, hr] at h
      cases h
    | some r =>
      simp only [startTable, hr] at h
      cases h
      rfl

end Registry

namespace Heap

variable {h : Heap} {d : Descriptor} {name : String} {tag : Option Tag} {base : Option Descriptor}

theorem callback?_register_self (ok : (h.register name tag base).1 = .ok d) (b : Behavior) :
    (h.register name tag base).2.registry.callback? d b =
      base.bind fun e => h.registry.callback? e b := by
  obtain ⟨rfl, table, htable, heq⟩ := register_of_ok ok
  rw [heq, Registry.callback?_add, Registry.size_drawn, if_pos rfl]
  exact Registry.entry_of_startTable htable b

theorem callback?_register_of_ne (hne : (h.register name tag base).1 ≠ .ok d) (b : Behavior) :
    (h.register name tag base).2.registry.callback? d b = h.registry.callback? d b := by
  cases hanswer : (h.register name tag base).1 with
  | error e => rw [register_of_error hanswer, Registry.callback?_drawn]
  | ok d' =>
    obtain ⟨rfl, table, _, heq⟩ := register_of_ok hanswer
    have hindex : d.index ≠ h.registry.size := by
      intro hd
      exact hne (hanswer.trans (congrArg Except.ok (congrArg Descriptor.mk hd).symm))
    rw [heq, Registry.callback?_add, Registry.size_drawn, if_neg hindex, Registry.callback?_drawn]

theorem size_register_of_ok (ok : (h.register name tag base).1 = .ok d) :
    (h.register name tag base).2.registry.size = h.registry.size + 1 := by
  obtain ⟨rfl, table, _, heq⟩ := register_of_ok ok
  rw [heq, Registry.size_add, Registry.size_drawn]

end Heap

/-! ## Along a path -/

namespace Transition

def registered? : Transition → Option Descriptor
  | ⟨.register name tag base, h⟩ => (h.register name tag base).1.toOption
  | _ => none

/-- Whether a transition installs a callback for `b` on `d`, known or not. -/
def installs (d : Descriptor) (b : Behavior) : Transition → Bool
  | ⟨.install e b' _, _⟩ => e == d && b' == b
  | _ => false

variable {t : Transition} {d : Descriptor} {b : Behavior}

/-- A transition that neither registers the type nor sets the callback leaves the callback as it
is. -/
theorem callback?_after (hnew : t.registered? ≠ some d) (hset : t.installs d b = false) :
    t.after.registry.callback? d b = t.before.registry.callback? d b := by
  cases ht : t.action.typing with
  | false => rw [(sameTypes ht).registry]
  | true =>
    obtain ⟨a, h⟩ := t
    cases a with
    | register name tag base =>
      exact Heap.callback?_register_of_ne (fun hok => hnew (congrArg Except.toOption hok)) b
    | install e b' c =>
      refine Registry.callback?_install_of_ne c ?_
      by_contra hboth
      obtain ⟨rfl, rfl⟩ := not_or.mp hboth |>.imp not_not.mp not_not.mp
      simp [installs] at hset
    | _ => cases ht

theorem registered?_eq_some {name : String} {tag : Option Tag} {base : Option Descriptor}
    {h : Heap} (hd : registered? ⟨.register name tag base, h⟩ = some d) :
    (h.register name tag base).1 = .ok d := by
  unfold registered? at hd
  cases hok : (h.register name tag base).1 with
  | error e => simp [hok, Except.toOption] at hd
  | ok d' => simpa [hok, Except.toOption] using hd

theorem registered?_of_size (unknown : t.before.registry.size ≤ d.index)
    (known : d.index < t.after.registry.size) : t.registered? = some d := by
  cases ht : t.action.typing with
  | false =>
    rw [(sameTypes ht).registry] at known
    omega
  | true =>
    obtain ⟨a, h⟩ := t
    cases a with
    | register name tag base =>
      change h.registry.size ≤ d.index at unknown
      change d.index < (h.register name tag base).2.registry.size at known
      show (h.register name tag base).1.toOption = some d
      cases hok : (h.register name tag base).1 with
      | error e =>
        rw [Heap.register_of_error hok, Registry.size_drawn] at known
        omega
      | ok d' =>
        have hsize := Heap.size_register_of_ok hok
        obtain ⟨rfl, _⟩ := Heap.register_of_ok hok
        have hindex : h.registry.size = d.index := by omega
        exact congrArg some (congrArg Descriptor.mk hindex)
    | install e b' c =>
      change d.index < (h.registry.install e b' c).size at known
      rw [Registry.size_install] at known
      exact absurd known (Nat.not_lt.mpr unknown)
    | _ => cases ht

theorem known_of_registered (hd : t.registered? = some d) : d.index < t.after.registry.size := by
  obtain ⟨a, h⟩ := t
  cases a with
  | register name tag base =>
    have hok := registered?_eq_some hd
    have hsize := Heap.size_register_of_ok hok
    obtain ⟨rfl, _⟩ := Heap.register_of_ok hok
    show h.registry.size < (h.register name tag base).2.registry.size
    omega
  | _ => cases hd

theorem registered?_ne (known : d.index < t.before.registry.size) : t.registered? ≠ some d := by
  intro hd
  obtain ⟨a, h⟩ := t
  cases a with
  | register name tag base =>
    obtain ⟨rfl, _⟩ := Heap.register_of_ok (registered?_eq_some hd)
    exact Nat.lt_irrefl _ known
  | _ => cases hd

end Transition

namespace Path

variable {h h' : Heap} {ts : List Transition} {d : Descriptor} {b : Behavior}

/-- A callback of a known type stays until another one is installed in its place. -/
theorem callback?_eq (p : Path h ts h') (known : d.index < h.registry.size)
    (last : ∀ t ∈ ts, t.installs d b = false) :
    h'.registry.callback? d b = h.registry.callback? d b := by
  induction p with
  | nil => rfl
  | cons t _ ih =>
    rw [ih (Nat.lt_of_lt_of_le known t.keepsTypes.size)
      fun u hu => last u (List.mem_cons_of_mem t hu)]
    exact Transition.callback?_after (Transition.registered?_ne known) (last t List.mem_cons_self)

/-- A new type has the callbacks of its base, until others are installed. -/
theorem callback?_of_registered {name : String} {tag : Option Tag} {base : Option Descriptor}
    (p : Path (h.register name tag base).2 ts h') (ok : (h.register name tag base).1 = .ok d)
    (last : ∀ t ∈ ts, t.installs d b = false) :
    h'.registry.callback? d b = base.bind fun e => h.registry.callback? e b := by
  have known : d.index < (h.register name tag base).2.registry.size := by
    rw [Heap.size_register_of_ok ok, (Heap.register_of_ok ok).1]
    exact Nat.lt_succ_self _
  rw [p.callback?_eq known last, Heap.callback?_register_self ok]

theorem known_of_registered {t : Transition} (p : Path h ts h') (ht : t ∈ ts)
    (hd : t.registered? = some d) : d.index < h'.registry.size := by
  induction p with
  | nil => cases ht
  | cons u p ih =>
    rcases List.mem_cons.mp ht with rfl | ht
    · exact Nat.lt_of_lt_of_le (Transition.known_of_registered hd) p.keepsTypes.size
    · exact ih ht

theorem exists_registered (p : Path h ts h') (unknown : h.registry.size ≤ d.index)
    (known : d.index < h'.registry.size) : ∃ t ∈ ts, t.registered? = some d := by
  induction p with
  | nil => omega
  | cons t _ ih =>
    rcases Nat.lt_or_ge d.index t.after.registry.size with hnow | hlater
    · exact ⟨t, List.mem_cons_self, Transition.registered?_of_size unknown hnow⟩
    · obtain ⟨u, hu, hd⟩ := ih hlater known
      exact ⟨u, List.mem_cons_of_mem t hu, hd⟩

end Path

/-! ## Where callbacks come from -/

/-- `Origin b d ts found`: by the transitions `ts`, which start with no types, the type `d` has
`found` for the behavior `b`.  It is what was last installed there while the type was known; else
what the base had when the type was derived; else there is none. -/
inductive Origin (b : Behavior) : Descriptor → List Transition → Option (Callback b) → Prop where
  | installed {d : Descriptor} {past since : List Transition} {c : Callback b} {h : Heap} :
      d.index < h.registry.size → (∀ t ∈ since, t.installs d b = false) →
      Origin b d (past ++ ⟨.install d b c, h⟩ :: since) (some c)
  | derived {d e : Descriptor} {past since : List Transition} {name : String} {tag : Option Tag}
      {h : Heap} {found : Option (Callback b)} :
      (h.register name tag (some e)).1 = .ok d → (∀ t ∈ since, t.installs d b = false) →
      Origin b e past found →
      Origin b d (past ++ ⟨.register name tag (some e), h⟩ :: since) found
  | underived {d : Descriptor} {past since : List Transition} {name : String} {tag : Option Tag}
      {h : Heap} :
      (h.register name tag none).1 = .ok d → (∀ t ∈ since, t.installs d b = false) →
      Origin b d (past ++ ⟨.register name tag none, h⟩ :: since) none
  | unregistered {d : Descriptor} {ts : List Transition} :
      (∀ t ∈ ts, t.registered? ≠ some d) → Origin b d ts none

namespace Origin

variable {config : Config} {b : Behavior} {d : Descriptor} {ts : List Transition} {h : Heap}
  {found : Option (Callback b)}

/-- The callback that a history gives is the one that the heap has. -/
theorem callback?_eq (o : Origin b d ts found) (path : Path (Heap.new config) ts h) :
    h.registry.callback? d b = found := by
  induction o generalizing h with
  | @installed d past since c g known last =>
    obtain ⟨_, _, path⟩ := path.split
    cases path with
    | cons _ path =>
      have known' : d.index < (g.registry.install d b c).size := by rwa [Registry.size_install]
      rw [path.callback?_eq known' last]
      exact Registry.callback?_install_self known c
  | @derived d e past since name tag g found ok last _ ih =>
    obtain ⟨_, before, path⟩ := path.split
    cases path with
    | cons _ path => exact (path.callback?_of_registered ok last).trans (ih before)
  | @underived d past since name tag g ok last =>
    obtain ⟨_, before, path⟩ := path.split
    cases path with
    | cons _ path => exact path.callback?_of_registered ok last
  | @unregistered d ts never =>
    refine Registry.callback?_eq_none (Nat.not_lt.mp fun known => ?_)
    obtain ⟨t, ht, hd⟩ := path.exists_registered (Nat.zero_le _) known
    exact never t ht hd

theorem append {t : Transition} (o : Origin b d ts found) (hnew : t.registered? ≠ some d)
    (hset : t.installs d b = false) : Origin b d (ts ++ [t]) found := by
  have more : ∀ {since : List Transition}, (∀ u ∈ since, u.installs d b = false) →
      ∀ u ∈ since ++ [t], u.installs d b = false := fun last =>
    List.forall_mem_append.mpr ⟨last, List.forall_mem_singleton.mpr hset⟩
  cases o with
  | installed known last =>
    rw [List.append_assoc]
    exact .installed known (more last)
  | derived ok last copied =>
    rw [List.append_assoc]
    exact .derived ok (more last) copied
  | underived ok last =>
    rw [List.append_assoc]
    exact .underived ok (more last)
  | unregistered never =>
    exact .unregistered (List.forall_mem_append.mpr ⟨never, List.forall_mem_singleton.mpr hnew⟩)

end Origin

namespace Path

variable {config : Config} {past : List Transition} {h : Heap}

theorem origin_of_registered {t : Transition} {d : Descriptor} {b : Behavior}
    (ih : ∀ e, Origin b e past (t.before.registry.callback? e b)) (hnew : t.registered? = some d) :
    Origin b d (past ++ [t]) (t.after.registry.callback? d b) := by
  obtain ⟨a, h⟩ := t
  cases a with
  | register name tag base =>
    have ok := Transition.registered?_eq_some hnew
    show Origin b d _ ((h.register name tag base).2.registry.callback? d b)
    rw [Heap.callback?_register_self ok]
    cases base with
    | none => exact .underived ok fun _ hu => absurd hu List.not_mem_nil
    | some e => exact .derived ok (fun _ hu => absurd hu List.not_mem_nil) (ih e)
  | _ => cases hnew

theorem origin_of_installed {t : Transition} {d : Descriptor} {b : Behavior}
    (path : Path (Heap.new config) (past ++ [t]) h) (hset : t.installs d b = true) :
    Origin b d (past ++ [t]) (h.registry.callback? d b) := by
  rcases Nat.lt_or_ge d.index h.registry.size with known | unknown
  · obtain ⟨_, rfl⟩ := path.of_concat
    obtain ⟨a, g⟩ := t
    cases a with
    | install e b' c =>
      obtain ⟨he, hb⟩ := Bool.and_eq_true_iff.mp hset
      cases eq_of_beq he
      cases eq_of_beq hb
      have known' : d.index < g.registry.size := by
        rw [← Registry.size_install g.registry d b c]
        exact known
      show Origin b d _ ((g.registry.install d b c).callback? d b)
      rw [Registry.callback?_install_self known' c]
      exact .installed known' fun _ hu => absurd hu List.not_mem_nil
    | _ => cases hset
  · rw [Registry.callback?_eq_none unknown]
    exact .unregistered fun t ht hd => Nat.not_lt.mpr unknown (path.known_of_registered ht hd)

/-- The callback that a heap has is the one that its history gives. -/
theorem origin {ts : List Transition} (path : Path (Heap.new config) ts h) (d : Descriptor)
    (b : Behavior) : Origin b d ts (h.registry.callback? d b) := by
  -- the last transition decides, or it leaves the callback as it was
  induction ts using List.reverseRecOn generalizing h d with
  | nil =>
    rw [path.eq_of_nil]
    exact .unregistered fun t ht => absurd ht List.not_mem_nil
  | append_singleton past t ih =>
    cases hset : t.installs d b with
    | true => exact path.origin_of_installed hset
    | false =>
      obtain ⟨before, rfl⟩ := path.of_concat
      by_cases hnew : t.registered? = some d
      · exact origin_of_registered (fun e => ih before e) hnew
      · rw [Transition.callback?_after hnew hset]
        exact (ih before d).append hnew hset

end Path

/-- Dispatch follows the history.  Whatever happens on a fresh heap, the callback that it has for a
behavior of a type is the one that the registrations and installs give: what was last installed
there while the type was known, else what the base had when the type was derived, else none.  This
is the callback that is found for the instances of the type.  An install on another type does not
change it, and an install on a type that is not there does nothing. -/
theorem dispatch_follows_history {config : Config} {ts : List Transition} {h : Heap}
    (path : Path (Heap.new config) ts h) (d : Descriptor) (b : Behavior) :
    (∀ found, Origin b d ts found ↔ h.registry.callback? d b = found) ∧
      (∀ v, h.descriptorOf v = some d → h.callback b v = .ok (h.registry.callback? d b)) ∧
      (∀ e b' (c : Callback b'), e ≠ d →
        (h.install e b' c).registry.callback? d b = h.registry.callback? d b) ∧
      ∀ c : Callback b, h.registry.get? d = none → h.install d b c = h := by
  refine ⟨fun found => ⟨fun o => o.callback?_eq path, fun heq => heq ▸ path.origin d b⟩,
    fun v hv => ?_, fun e b' c he => Registry.callback?_install_of_ne c (.inl he),
    fun c hd => ?_⟩
  · obtain ⟨x, hx, rfl⟩ := Option.map_eq_some_iff.mp hv
    cases v with
    | ref id => exact Heap.callback_of_get? hx b
    | _ => cases hx
  · have unknown : h.registry.size ≤ d.index := Array.getElem?_eq_none_iff.mp hd
    rw [Heap.install, Registry.install_of_unknown unknown]

def derivedChain : Session where
  containers := false
  steps := [.install (.index ⟨1⟩) .length "early" [] (.count 9), .op (.register "base" none),
    .install (.index ⟨0⟩) .length "first" [] (.count 1),
    .op (.derive "middle" none (.index ⟨0⟩)), .op (.derive "leaf" none (.index ⟨1⟩)),
    .install (.index ⟨0⟩) .length "second" [] (.count 2),
    .install (.index ⟨1⟩) .length "third" [] (.count 3)]

theorem dispatch_follows_history_derivedChain :
    ∃ ts, Path (Heap.new derivedChain.config) ts (derivedChain.closing (.ofDepth 1)).heap ∧
      Origin .length ⟨0⟩ ts (some (.script ⟨"second", [], .count 2⟩)) ∧
      Origin .length ⟨1⟩ ts (some (.script ⟨"third", [], .count 3⟩)) ∧
      Origin .length ⟨2⟩ ts (some (.script ⟨"first", [], .count 1⟩)) := by
  have path := derivedChain.path_closing (.ofDepth 1)
  refine ⟨_, path, ?_, ?_, ?_⟩
  · exact ((dispatch_follows_history path ⟨0⟩ .length).1 _).mpr (by rfl)
  · exact ((dispatch_follows_history path ⟨1⟩ .length).1 _).mpr (by rfl)
  · exact ((dispatch_follows_history path ⟨2⟩ .length).1 _).mpr (by rfl)

end TracedHeap
