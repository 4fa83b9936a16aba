import TracedHeap.Proofs.Containers
import TracedHeap.Proofs.Trace

/-!
# The container types of a session

A session that is to have the container types registers them before anything else, so their
descriptors and their tables are always the same.

* `Containers.standard`, `standardTables`   these descriptors and tables;
* `Callback.standard`       the callbacks of the containers, which make containers only;
* `Registry.Stocked`        the container types come first, and no type has other callbacks.  To
                            register further types keeps this;
* `Session.stocked_opened`  it holds when the steps of a session start.
-/

namespace TracedHeap

open Run

def Containers.standard : Containers where
  array := ⟨0⟩
  list := ⟨1⟩
  string := ⟨2⟩
  table := ⟨3⟩
  quotation := ⟨4⟩

def standardTables : List DispatchTable :=
  [arrayRoutines ⟨0⟩, arrayRoutines ⟨0⟩ ++ listRoutines, stringRoutines ⟨0⟩ ⟨2⟩,
    tableRoutines ⟨0⟩ ⟨3⟩, quotationRoutines].map (DispatchTable.installAll .empty)

/-- The routine makes instances of the standard types, if it makes any. -/
def Routine.standard : {b : Behavior} → Routine b → Bool
  | _, stringSequence array | _, tableSequence array | _, arrayCopy array =>
    array = Containers.standard.array
  | _, stringCopy string => string = Containers.standard.string
  | _, tableCopy table => table = Containers.standard.table
  | _, _ => true

def Callback.standard {b : Behavior} : Callback b → Bool
  | routine k => k.standard
  | script _ => false

theorem Callback.exists_routine {b : Behavior} {c : Callback b} (hc : c.standard = true) :
    ∃ k : Routine b, c = .routine k ∧ k.standard = true := by
  cases c with
  | routine k => exact ⟨k, rfl, hc⟩
  | script s => cases hc

def DispatchTable.Standard (t : DispatchTable) : Prop :=
  ∀ b c, t.entry b = some c → c.standard = true

theorem standard_standardTables : ∀ t ∈ standardTables, t.Standard := by
  have standard : ∀ routines ∈ [arrayRoutines ⟨0⟩, arrayRoutines ⟨0⟩ ++ listRoutines,
      stringRoutines ⟨0⟩ ⟨2⟩, tableRoutines ⟨0⟩ ⟨3⟩, quotationRoutines],
      ∀ e ∈ routines, e.2.standard = true := by decide
  intro t ht b c hc
  obtain ⟨routines, hroutines, rfl⟩ := List.mem_map.mp ht
  rcases DispatchTable.entry_installAll hc with ⟨k, hk, rfl⟩ | hc
  · exact standard routines hroutines _ hk
  · cases hc

namespace Registry

def tables (g : Registry) : List DispatchTable := g.records.toList.map TypeRecord.table

theorem callback?_eq (g : Registry) (d : Descriptor) (b : Behavior) :
    g.callback? d b = g.tables[d.index]?.bind fun t => t.entry b := by
  unfold callback? get? tables
  rw [List.getElem?_map, Array.getElem?_toList]
  cases g.records[d.index]? <;> rfl

theorem tables_install (g : Registry) (d : Descriptor) (b : Behavior) (c : Callback b) :
    (g.install d b c).tables = g.tables.modify d.index fun t => t.install b c := by
  unfold tables install
  rw [Array.toList_modify]
  refine List.ext_getElem? fun i => ?_
  simp only [List.getElem?_map, List.getElem?_modify]
  by_cases hi : d.index = i
  · simp only [if_pos hi]
    cases g.records.toList[i]? <;> rfl
  · simp only [if_neg hi]
    cases g.records.toList[i]? <;> rfl

theorem tables_add (g : Registry) (increment : Nat) (r : TypeRecord) :
    (g.add increment r).tables = g.tables ++ [r.table] := by
  unfold tables add
  rw [Array.toList_push, List.map_append]
  rfl

theorem table_mem_tables {g : Registry} {d : Descriptor} {r : TypeRecord} (hr : g.get? d = some r) :
    r.table ∈ g.tables :=
  List.mem_map_of_mem (Array.mem_toList_iff.mpr (Array.mem_of_getElem? hr))

/-- A new type has no callbacks, or those of another type. -/
theorem tables_register (g : Registry) (increment : Nat) (name : String) (tag : Option Tag)
    (base : Option Descriptor) :
    (g.register increment name tag base).2.tables = g.tables ∨
      ∃ t, (t = .empty ∨ t ∈ g.tables) ∧
        (g.register increment name tag base).2.tables = g.tables ++ [t] := by
  have hdrawn : (g.drawn tag).tables = g.tables := by cases tag <;> rfl
  rcases g.register_cases increment name tag base with
    ⟨table, _, htable, heq⟩ | ⟨_, _, _, heq⟩ | ⟨_, _, _, _, heq⟩
  · rw [heq]
    refine .inr ⟨table, ?_, by rw [tables_add, hdrawn]⟩
    unfold startTable at htable
    split at htable
    · cases htable
      exact .inl rfl
    · split at htable
      · next r hr =>
        cases htable
        exact .inr (table_mem_tables hr)
      · cases htable
  · rw [heq]
    exact .inl rfl
  · rw [heq]
    exact .inl hdrawn

/-- The container types come first, and no type has other callbacks than they have. -/
structure Stocked (g : Registry) : Prop where
  tables : standardTables <+: g.tables
  standard : ∀ t ∈ g.tables, t.Standard

namespace Stocked

variable {g : Registry}

theorem callback (s : g.Stocked) {d : Descriptor} {b : Behavior} {c : Callback b}
    (hc : g.callback? d b = some c) : c.standard = true := by
  rw [callback?_eq] at hc
  obtain ⟨t, ht, hc⟩ := Option.bind_eq_some_iff.mp hc
  exact s.standard t (List.mem_of_getElem? ht) b c hc

theorem free (s : g.Stocked) (d : Descriptor) : g.callback? d .free = none := by
  refine Option.eq_none_iff_forall_ne_some.mpr fun c hc => ?_
  obtain ⟨k, _, _⟩ := Callback.exists_routine (s.callback hc)
  cases k

theorem callback?_of_table (s : g.Stocked) {i : Nat} {t : DispatchTable}
    (ht : standardTables[i]? = some t) (b : Behavior) : g.callback? ⟨i⟩ b = t.entry b := by
  obtain ⟨rest, heq⟩ := s.tables
  rw [callback?_eq, ← heq]
  show ((standardTables ++ rest)[i]?).bind _ = _
  rw [List.getElem?_append_left (List.getElem?_eq_some_iff.mp ht).1, ht]
  rfl

theorem register (s : g.Stocked) (increment : Nat) (name : String) (tag : Option Tag)
    (base : Option Descriptor) : (g.register increment name tag base).2.Stocked := by
  rcases g.tables_register increment name tag base with heq | ⟨t, ht, heq⟩
  · exact ⟨heq ▸ s.tables, heq ▸ s.standard⟩
  · refine ⟨heq ▸ s.tables.trans (List.prefix_append _ _), ?_⟩
    rw [heq]
    refine List.forall_mem_append.mpr ⟨s.standard, List.forall_mem_singleton.mpr ?_⟩
    rcases ht with rfl | ht
    · nofun
    · exact s.standard t ht

end Stocked

theorem register_of_startTable {g : Registry} {base : Option Descriptor} {t : DispatchTable}
    (ht : g.startTable base = .ok t) (increment : Nat) (name : String) :
    ∃ g', g.register increment name none base = (.ok ⟨g.tables.length⟩, g') ∧
      g'.tables = g.tables ++ [t] := by
  have hstart : { g with nextTag := g.unusedTag + 1 }.startTable base = .ok t := ht
  have hsize : g.tables.length = g.size := List.length_map _
  refine ⟨_, ?_, tables_add { g with nextTag := g.unusedTag + 1 } increment
    { name, tag := g.unusedTag, base, table := t }⟩
  unfold register chooseTag
  simp only [hstart, hsize]
  rfl

theorem startTable_of_getElem? {g : Registry} {i : Nat} {t : DispatchTable}
    (ht : g.tables[i]? = some t) : g.startTable (some ⟨i⟩) = .ok t := by
  unfold tables at ht
  rw [List.getElem?_map, Array.getElem?_toList] at ht
  obtain ⟨r, hr, rfl⟩ := Option.map_eq_some_iff.mp ht
  unfold startTable get?
  simp only [hr]

end Registry

/-! ## The registration of the containers -/

theorem yields_registerType {w : World} {base : Option Descriptor} {t : DispatchTable}
    (ht : w.heap.registry.startTable base = .ok t) (name : String) :
    ∃ g, (registerType name none base).run.Yields w (.ok ⟨w.heap.registry.tables.length⟩)
        { w.heap with registry := g } ∧
      g.tables = w.heap.registry.tables ++ [t] := by
  obtain ⟨g, hregister, htables⟩ :=
    Registry.register_of_startTable ht w.heap.config.registryIncrement name
  have happly : (Action.register name none base).apply w.heap =
      (.ok ⟨w.heap.registry.tables.length⟩, { w.heap with registry := g }) := by
    simp only [Action.apply, Heap.register, hregister]
  refine ⟨g, ?_, htables⟩
  refine yields_bind (exec_look _ w) rfl ?_
  refine (yields_act happly).bind fun w₁ hheap _ => yields_bind (exec_look _ w₁) rfl ?_
  rw [← hheap]
  split
  · exact (yields_report _ w₁).bind fun w₂ hsame _ => hsame ▸ yields_pure _ w₂
  · exact yields_pure _ w₁

theorem yields_installRoutines (d : Descriptor) (routines : List ((b : Behavior) × Routine b))
    (w : World) :
    ∃ g, (installRoutines d routines).Yields w () { w.heap with registry := g } ∧
      g.tables = w.heap.registry.tables.modify d.index fun t => t.installAll routines := by
  induction routines generalizing w with
  | nil => exact ⟨w.heap.registry, yields_pure () w, (List.modify_id _ _).symm⟩
  | cons e rest ih =>
    obtain ⟨b, k⟩ := e
    have hinstall : (installCallback d b (.routine k)).Yields w ()
        { w.heap with registry := w.heap.registry.install d b (.routine k) } := by
      have hact : (act (.install d b (.routine k))).Yields w ()
          (w.heap.install d b (.routine k)) := yields_act rfl
      refine yields_heap_bind (hact.bind fun w' hheap _ => ?_)
      show Run.Yields _ w' () (w.heap.install d b (.routine k))
      rw [← hheap]
      split
      · exact yields_report _ w'
      · exact yields_pure () w'
    obtain ⟨w₁, hexec₁, hheap₁, hctx₁⟩ := hinstall
    have htables₁ : w₁.heap.registry.tables =
        w.heap.registry.tables.modify d.index fun t => t.install b (.routine k) := by
      rw [hheap₁]
      exact Registry.tables_install _ d b _
    obtain ⟨g, hrest, htables⟩ := ih w₁
    refine ⟨g, yields_bind hexec₁ hctx₁ ?_, ?_⟩
    · rw [hheap₁] at hrest
      exact hrest
    · rw [htables, htables₁, List.modify_modify_eq]
      rfl

theorem modify_length_append {α : Type} (l : List α) (a : α) (f : α → α) :
    (l ++ [a]).modify l.length f = l ++ [f a] := by
  induction l with
  | nil => rfl
  | cons b l ih => simp [ih]

theorem exec_container {α : Type} (name : String) (base : Option Descriptor) {t : DispatchTable}
    {ts : List DispatchTable} (n : Nat) (routines : Descriptor → List ((b : Behavior) × Routine b))
    (next : Descriptor → Attempt α) {w : World} (hts : w.heap.registry.tables = ts)
    (hn : ts.length = n) (ht : w.heap.registry.startTable base = .ok t) :
    ∃ w', (do
        let d ← registerType name none base
        installRoutines d (routines d)
        next d : Attempt α).run.exec w = (next ⟨n⟩).run.exec w' ∧
      w'.heap.registry.tables = ts ++ [t.installAll (routines ⟨n⟩)] ∧
      w'.heap.pool = w.heap.pool := by
  subst hts hn
  obtain ⟨g₁, ⟨w₁, hexec₁, hheap₁, _⟩, htables₁⟩ := yields_registerType ht name
  have htables₁ : w₁.heap.registry.tables = w.heap.registry.tables ++ [t] := by
    rw [hheap₁]
    exact htables₁
  obtain ⟨g₂, ⟨w₂, hexec₂, hheap₂, _⟩, htables₂⟩ :=
    yields_installRoutines ⟨w.heap.registry.tables.length⟩
      (routines ⟨w.heap.registry.tables.length⟩) w₁
  refine ⟨w₂, ?_, ?_, ?_⟩
  · rw [Attempt.exec_bind, hexec₁]
    simp only [Attempt.exec_bind]
    rw [Attempt.exec_lift, hexec₂]
  · rw [hheap₂]
    show g₂.tables = _
    rw [htables₂, htables₁]
    exact modify_length_append _ _ _
  · rw [hheap₂]
    show w₁.heap.pool = _
    rw [hheap₁]

/-- On a heap without types the containers become the standard ones. -/
theorem exec_registerContainers {w : World} (fresh : w.heap.registry.tables = []) :
    ∃ w', registerContainers.run.exec w = (.ok (.ok .standard), w') ∧
      w'.containers = some .standard ∧ w'.heap.registry.tables = standardTables ∧
      w'.heap.pool = w.heap.pool := by
  unfold registerContainers
  obtain ⟨w₁, hexec, htables₁, hpool₁⟩ :=
    exec_container "array" none 0 arrayRoutines _ fresh rfl rfl
  rw [hexec]
  have harray : w₁.heap.registry.startTable (some ⟨0⟩) = .ok _ :=
    Registry.startTable_of_getElem? (by rw [htables₁]; rfl)
  obtain ⟨w₂, hexec, htables₂, hpool₂⟩ :=
    exec_container "list" (some ⟨0⟩) 1 (fun _ => listRoutines) _ htables₁ rfl harray
  rw [hexec]
  obtain ⟨w₃, hexec, htables₃, hpool₃⟩ :=
    exec_container "string" none 2 (stringRoutines ⟨0⟩) _ htables₂ rfl rfl
  rw [hexec]
  obtain ⟨w₄, hexec, htables₄, hpool₄⟩ :=
    exec_container "table" none 3 (tableRoutines ⟨0⟩) _ htables₃ rfl rfl
  rw [hexec]
  obtain ⟨w₅, hexec, htables₅, hpool₅⟩ :=
    exec_container "quotation" none 4 (fun _ => quotationRoutines) _ htables₄ rfl rfl
  rw [hexec]
  refine ⟨_, rfl, rfl, ?_, ?_⟩
  · exact htables₅
  · show w₅.heap.pool = _
    rw [hpool₅, hpool₄, hpool₃, hpool₂, hpool₁]

/-- When the steps of a session with containers start, there are the standard types and no
instances. -/
theorem Session.stocked_opened {s : Session} (hs : s.containers = true) :
    s.opened.containers = some .standard ∧ s.opened.heap.registry.Stocked ∧
      s.opened.heap.pool = {} := by
  obtain ⟨w, hexec, hcontainers, htables, hpool⟩ :=
    exec_registerContainers (w := s.start (Heap.new s.config)) rfl
  have hopening : (s.opening.exec (s.start (Heap.new s.config))).2 = w := by
    unfold opening
    rw [if_pos hs, exec_bind, hexec]
    rfl
  unfold opened
  rw [hopening]
  refine ⟨hcontainers, ⟨?_, ?_⟩, hpool⟩
  · show _ <+: w.heap.registry.tables
    rewrite [htables]
    exact List.prefix_rfl
  · show ∀ t ∈ w.heap.registry.tables, _
    rw [htables]
    exact standard_standardTables

end TracedHeap
