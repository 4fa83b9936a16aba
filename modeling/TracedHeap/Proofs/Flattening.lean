import TracedHeap.Proofs.Balance
import TracedHeap.Proofs.Cycles
import TracedHeap.Proofs.Recycling
import TracedHeap.Proofs.Sequences

/-!
# Calling a quotation executes its flattening

A quotation is executed word by word, inside of a frame of its own, and so are the quotations among
its words.  In the end that is to push the words that are left when all quotations have been replaced
by their words, up to the first that is stale.

* `Heap.Runs`                   a value runs another as one of its words;
* `Heap.Flattens`               the words that are left.  There are such words if no value is reached
                                that runs itself (`exists_flattens_iff`), and no others
                                (`Flattens.unique`);
* `Heap.verdict`, `Heap.pushable`
                                how it ends to push values one after the other, and which are pushed;
* `Flattens.callPushes`         calling a value does this with its flattening;
* `call_pushes_flattening`      and it leaves everything else as it is.
-/

namespace TracedHeap

open Run

namespace Heap

/-! ## Flattening -/

/-- The words that are executed when a value is; none if the value is pushed instead. -/
def body? (h : Heap) (v : Value) : Option (List Value) := do
  let x ← h.find? v
  let _ ← h.registry.callback? x.descriptor .call
  return (x.payload.as? .words).getD []

/-- A value runs another as one of its words. -/
def Runs (h : Heap) (v x : Value) : Prop := ∃ words, h.body? v = some words ∧ x ∈ words

/-- The words that are left when quotations have been replaced by their words, all through. -/
inductive Flattens (h : Heap) : Value → List Value → Prop where
  | word {v : Value} : h.body? v = none → Flattens h v [v]
  | quotation {v : Value} {words : List Value} {parts : List (List Value)} :
      h.body? v = some words → parts.length = words.length →
      (∀ p ∈ words.zip parts, Flattens h p.1 p.2) → Flattens h v parts.flatten

section
variable {h : Heap} {v : Value} {words : List Value}

theorem body?_eq_some (hv : h.body? v = some words) :
    ∃ id x c, v = .ref id ∧ h.pool.get? id = some x ∧
      h.registry.callback? x.descriptor .call = some c ∧ (x.payload.as? .words).getD [] = words := by
  obtain ⟨x, hx, hbody⟩ := Option.bind_eq_some_iff.mp hv
  obtain ⟨c, hc, hwords⟩ := Option.bind_eq_some_iff.mp hbody
  cases v with
  | ref id => exact ⟨id, x, c, rfl, hx, hc, Option.some.inj hwords⟩
  | _ => cases hx

theorem mem_liveValues_of_body? (hv : h.body? v = some words) : v ∈ h.liveValues := by
  obtain ⟨id, x, _, rfl, hx, _, _⟩ := body?_eq_some hv
  exact mem_liveValues hx

/-- A value with a flattening reaches no value that runs itself. -/
theorem Flattens.acyclic {vs : List Value} (flat : h.Flattens v vs) : ¬ ReachesCycle h.Runs v := by
  induction flat with
  | word hv =>
    intro cycle
    obtain ⟨x, ⟨words, hv', _⟩, _⟩ := cycle.exists_step
    cases hv.symm.trans hv'
  | quotation hv hlength _ ih =>
    intro cycle
    obtain ⟨x, ⟨words, hv', hx⟩, cycle⟩ := cycle.exists_step
    cases hv.symm.trans hv'
    obtain ⟨vs, hp⟩ := exists_mem_zip_of_mem_left hlength hx
    exact ih (x, vs) hp cycle

/-- Beyond a way along which each value runs the next one, a value has a flattening. -/
theorem exists_flattens_of_trail {way : List Value} (trail : Trail h.Runs (v :: way))
    (acyclic : ¬ ReachesCycle h.Runs v) : ∃ vs, h.Flattens v vs := by
  -- the way gets longer, and there are only so many instances to go through
  induction hm : h.unseen way using Nat.strong_induction_on generalizing way v with
  | _ m ih =>
    cases hv : h.body? v with
    | none => exact ⟨[v], .word hv⟩
    | some words =>
      have fresh : v ∉ way := fun again => acyclic (trail.reachesCycle again List.mem_cons_self)
      have fewer : h.unseen (v :: way) < m := hm ▸ unseen_cons_lt (mem_liveValues_of_body? hv) fresh
      have inside : ∀ x ∈ words, ∃ vs, h.Flattens x vs := by
        intro x hx
        have step : h.Runs v x := ⟨words, hv, hx⟩
        refine ih _ fewer (trail.step step) (fun cycle => acyclic ?_) rfl
        obtain ⟨u, reach, round⟩ := cycle
        exact ⟨u, reach.head step, round⟩
      obtain ⟨parts, hparts⟩ := exists_forall₂ inside
      obtain ⟨hlength, hzip⟩ := List.forall₂_iff_zip.mp hparts
      exact ⟨parts.flatten, .quotation hv hlength.symm fun p hp => hzip hp⟩

theorem exists_flattens_iff : (∃ vs, h.Flattens v vs) ↔ ¬ ReachesCycle h.Runs v :=
  ⟨fun ⟨_, flat⟩ => flat.acyclic, exists_flattens_of_trail (trail_singleton v)⟩

theorem Flattens.unique {vs us : List Value} (first : h.Flattens v vs) (second : h.Flattens v us) :
    vs = us := by
  induction first generalizing us with
  | word hv =>
    cases second with
    | word => rfl
    | quotation hv' => cases hv.symm.trans hv'
  | @quotation v words parts hv hlength _ ih =>
    cases second with
    | word hv' => cases hv'.symm.trans hv
    | quotation hv' hlength' each' =>
      cases hv.symm.trans hv'
      have first : List.Forall₂ (fun x vs => ∀ us, h.Flattens x us → vs = us) words parts :=
        List.forall₂_iff_zip.mpr ⟨hlength.symm, fun hp _ hus => ih _ hp hus⟩
      have second := List.forall₂_iff_zip.mpr ⟨hlength'.symm, fun {x us} hp => each' (x, us) hp⟩
      rw [forall₂_unique (fun x vs us same hus => same us hus) first second]

end

/-! ## Pushing values one after the other -/

def stale? (h : Heap) : Value → Option InstanceId
  | .ref id => if (h.pool.get? id).isNone then some id else none
  | _ => none

/-- How it ends to push values one after the other: it fails at the first stale one, if there is
one. -/
def verdict (h : Heap) (vs : List Value) : Except Error Unit :=
  match vs.findSome? h.stale? with
  | some id => .error (.stale id)
  | none => .ok ()

/-- The values before the first stale one. -/
def pushable (h : Heap) (vs : List Value) : List Value := vs.takeWhile fun v => (h.stale? v).isNone

def pushAll (h : Heap) (vs : List Value) : Heap := { h with stack := vs.reverse ++ h.stack }

section
variable {h : Heap} {v : Value} {vs : List Value} {id : InstanceId}

theorem pushAll_append (h : Heap) (vs us : List Value) :
    (h.pushAll vs).pushAll us = h.pushAll (vs ++ us) := by
  unfold pushAll
  rw [List.reverse_append, List.append_assoc]

theorem verdict_cons_stale (hv : h.stale? v = some id) (vs : List Value) :
    h.verdict (v :: vs) = .error (.stale id) ∧ h.pushable (v :: vs) = [] := by
  simp [verdict, pushable, hv]

theorem verdict_cons (hv : h.stale? v = none) (vs : List Value) :
    h.verdict (v :: vs) = h.verdict vs ∧ h.pushable (v :: vs) = v :: h.pushable vs := by
  simp [verdict, pushable, hv]

theorem verdict_append_of_ok (hvs : h.verdict vs = .ok ()) (us : List Value) :
    h.verdict (vs ++ us) = h.verdict us ∧
      h.pushable (vs ++ us) = h.pushable vs ++ h.pushable us := by
  induction vs with
  | nil => exact ⟨rfl, rfl⟩
  | cons v vs ih =>
    cases hv : h.stale? v with
    | none =>
      rw [(verdict_cons hv vs).1] at hvs
      obtain ⟨hverdict, hpushable⟩ := ih hvs
      rw [List.cons_append, (verdict_cons hv _).1, (verdict_cons hv _).2, (verdict_cons hv _).2,
        hverdict, hpushable]
      exact ⟨rfl, rfl⟩
    | some id =>
      rw [(verdict_cons_stale hv vs).1] at hvs
      cases hvs

theorem verdict_append_of_error {e : Error} (hvs : h.verdict vs = .error e) (us : List Value) :
    h.verdict (vs ++ us) = .error e ∧ h.pushable (vs ++ us) = h.pushable vs := by
  induction vs with
  | nil => cases hvs
  | cons v vs ih =>
    cases hv : h.stale? v with
    | none =>
      rw [(verdict_cons hv vs).1] at hvs
      obtain ⟨hverdict, hpushable⟩ := ih hvs
      rw [List.cons_append, (verdict_cons hv _).1, (verdict_cons hv _).2, (verdict_cons hv _).2,
        hverdict, hpushable]
      exact ⟨rfl, rfl⟩
    | some id =>
      rw [List.cons_append, (verdict_cons_stale hv _).1, (verdict_cons_stale hv _).2,
        (verdict_cons_stale hv _).2, ← hvs, (verdict_cons_stale hv _).1]
      exact ⟨rfl, rfl⟩

end

end Heap

/-! ## Frames that are left as they were entered -/

theorem Frames.pop_push {f : Frames} {limit : Nat} (full : 0 < f.overflow → limit ≤ f.kept.length)
    (caller : Value) : (f.push limit caller).pop = f := by
  obtain ⟨kept, overflow⟩ := f
  by_cases hlimit : limit ≤ kept.length
  · simp [push, pop, hlimit]
  · have none : overflow = 0 := Nat.eq_zero_of_not_pos fun h => hlimit (full h)
    simp [push, pop, hlimit, none]

section
variable {α β : Type} {w : World} {a : α} {h h' : Heap}

theorem yields_pushFrame (caller : Value) (w : World) :
    (pushFrame caller).Yields w () (w.heap.pushFrame caller) := by
  refine yields_heap_bind ((yields_act rfl).bind fun w₁ hheap _ => ?_)
  split
  · have := yields_report (.frameOverflow (w.heap.frames.overflow + 1) w.heap.config.maxFrameDepth) w₁
    rwa [hheap] at this
  · have := yields_pure () w₁
    rwa [hheap] at this

theorem yields_popFrame (w : World) : popFrame.Yields w () w.heap.popFrame := by
  refine yields_bind (exec_look _ w) rfl ((yields_act rfl).bind fun w₁ hheap _ => ?_)
  split
  · have := yields_report .frameUnderflow w₁
    rwa [hheap] at this
  · have := yields_pure () w₁
    rwa [hheap] at this

/-- What leaves the frames inside a frame as it finds them leaves those outside as it finds them. -/
theorem yields_withFrame {caller : Value} {x : Run α} (framed : w.heap.Framed)
    (hframes : h.frames = w.heap.frames.push w.heap.config.maxFrameDepth caller)
    (inside : ∀ w', w'.heap = w.heap.pushFrame caller → x.Yields w' a h) :
    (withFrame caller x).Yields w a { h with frames := w.heap.frames } := by
  refine (yields_pushFrame caller w).bind fun w₁ hheap₁ _ => ?_
  refine (inside w₁ hheap₁).ensuring fun w₂ hheap₂ _ => ?_
  have hpop := yields_popFrame w₂
  rw [hheap₂] at hpop
  unfold Heap.popFrame at hpop
  rwa [hframes, Frames.pop_push framed.full] at hpop

theorem yields_attempt_bind {x : Attempt α} {next : α → Attempt β} {b : Except Error β}
    (hx : x.run.Yields w (.ok a) h) (hnext : ∀ w', w'.heap = h → (next a).run.Yields w' b h') :
    (x >>= next).run.Yields w b h' := by
  obtain ⟨w₁, hexec, hheap, hctx⟩ := hx
  obtain ⟨w₂, hexec₂, hheap₂, hctx₂⟩ := hnext w₁ hheap
  refine ⟨w₂, ?_, hheap₂, hctx₂.trans hctx⟩
  rw [Attempt.exec_bind, hexec]
  exact hexec₂

theorem yields_lift_heap_bind {next : Heap → Attempt β} {b : Except Error β}
    (hnext : (next w.heap).run.Yields w b h) :
    ((liftM heap : Attempt Heap) >>= next).run.Yields w b h := by
  obtain ⟨w', hexec, hheap, hctx⟩ := hnext
  exact ⟨w', (lift_heap_bind w next).1.trans hexec, hheap, hctx⟩

theorem yields_attempt_error {x : Attempt α} {e : Error} (hx : x.run.Yields w (.error e) h)
    (next : α → Attempt β) : (x >>= next).run.Yields w (.error e) h := by
  obtain ⟨w₁, hexec, hheap, hctx⟩ := hx
  refine ⟨w₁, ?_, hheap, hctx⟩
  rw [Attempt.exec_bind, hexec]

end

/-! ## Calls -/

/-- What is called is a quotation, and every payload can be read. -/
structure Heap.Quoting (h : Heap) : Prop where
  routine : ∀ d c, h.registry.callback? d .call = some c → c = .routine .quotationCall
  readable : ∀ id x, h.pool.get? id = some x → x.borrow.readable = true

def Heap.Beside (h g : Heap) : Prop := ∃ stack frames, g = { h with stack, frames }

namespace Heap.Beside

variable {h g : Heap}

theorem pushAll (beside : h.Beside g) (vs : List Value) : h.Beside (g.pushAll vs) := by
  obtain ⟨stack, frames, rfl⟩ := beside
  exact ⟨_, _, rfl⟩

theorem pushFrame (beside : h.Beside g) (caller : Value) : h.Beside (g.pushFrame caller) := by
  obtain ⟨stack, frames, rfl⟩ := beside
  exact ⟨_, _, rfl⟩

theorem callback (beside : h.Beside g) (b : Behavior) (v : Value) :
    g.callback b v = h.callback b v := by
  obtain ⟨stack, frames, rfl⟩ := beside
  rfl

theorem read (beside : h.Beside g) (v : Value) (k : Kind) : g.read v k = h.read v k := by
  obtain ⟨stack, frames, rfl⟩ := beside
  rfl

end Heap.Beside

/-- On the heaps beside `h`, to call `v` is to push `vs` up to the first stale value. -/
def Heap.CallPushes (h : Heap) (r : Runner) (v : Value) (vs : List Value) : Prop :=
  ∀ w : World, h.Beside w.heap → w.heap.Framed →
    (call r v).run.Yields w (h.verdict vs) (w.heap.pushAll (h.pushable vs))

section
variable {h : Heap} {r : Runner} {w : World} {v : Value} {words : List Value}
  {parts : List (List Value)}

theorem callPushes_word (hv : h.body? v = none) (r : Runner) : h.CallPushes r v [v] := by
  intro w beside _
  have push (hfresh : h.stale? v = none) (hc : h.callback .call v = .ok none) :
      (call r v).run.Yields w (h.verdict [v]) (w.heap.pushAll (h.pushable [v])) := by
    rw [(Heap.verdict_cons hfresh []).1, (Heap.verdict_cons hfresh []).2]
    rw [← beside.callback] at hc
    refine ⟨{ w with heap := w.heap.push v }, ?_, rfl, rfl⟩
    exact (ask_bind_of_ok (f := fun h => h.callback .call v) hc _).1
  cases v with
  | ref id =>
    cases hx : h.pool.get? id with
    | none =>
      have hstale : h.stale? (.ref id) = some id := by simp [Heap.stale?, hx]
      have hc : w.heap.callback .call (.ref id) = .error (.stale id) := by
        rw [beside.callback]
        exact Heap.callback_of_none hx .call
      rw [(Heap.verdict_cons_stale hstale []).1, (Heap.verdict_cons_stale hstale []).2]
      exact ⟨w, (ask_bind_of_error (f := fun h => h.callback .call (.ref id)) hc _).1, rfl, rfl⟩
    | some x =>
      have hnone : h.registry.callback? x.descriptor .call = none := by
        refine Option.eq_none_iff_forall_ne_some.mpr fun c hc => ?_
        have hfind : h.find? (.ref id) = some x := hx
        simp [Heap.body?, hfind, hc] at hv
      refine push (by simp [Heap.stale?, hx]) ?_
      rw [Heap.callback_of_get? hx, hnone]
  | _ => exact push rfl rfl

theorem yields_callEach (each : List.Forall₂ (h.CallPushes r) words parts)
    (beside : h.Beside w.heap) (framed : w.heap.Framed) :
    (callEach r words).run.Yields w (h.verdict parts.flatten)
      (w.heap.pushAll (h.pushable parts.flatten)) := by
  induction each generalizing w with
  | nil => exact yields_pure _ w
  | @cons v vs words parts first _ ih =>
    have called := first w beside framed
    unfold callEach
    rw [List.flatten_cons]
    cases hvs : h.verdict vs with
    | ok =>
      rw [hvs] at called
      obtain ⟨hverdict, hpushable⟩ := Heap.verdict_append_of_ok hvs parts.flatten
      rw [hverdict, hpushable, ← Heap.pushAll_append]
      refine yields_attempt_bind called fun w₁ hheap => ?_
      rw [← hheap]
      refine ih ?_ ?_
      · rw [hheap]
        exact beside.pushAll _
      · rw [hheap]
        exact framed
    | error e =>
      rw [hvs] at called
      obtain ⟨hverdict, hpushable⟩ := Heap.verdict_append_of_error hvs parts.flatten
      rw [hverdict, hpushable]
      exact yields_attempt_error called _

theorem yields_quotationCall (ok : h.Quoting) (hv : h.body? v = some words)
    (each : List.Forall₂ (h.CallPushes r) words parts) (beside : h.Beside w.heap)
    (framed : w.heap.Framed) :
    (quotationCall r v).run.Yields w (h.verdict parts.flatten)
      (w.heap.pushAll (h.pushable parts.flatten)) := by
  obtain ⟨id, x, c, rfl, hx, _, hwords⟩ := Heap.body?_eq_some hv
  have hread := Heap.read_of_get? hx (ok.readable id x hx) .words
  rw [← beside.read] at hread
  have called := yields_callEach each beside framed
  unfold quotationCall
  refine yields_lift_heap_bind ?_
  cases hp : x.payload.as? .words with
  | none =>
    rw [hp] at hread hwords
    cases hwords
    cases each
    simp only [hread]
    exact yields_pure _ w
  | some ws =>
    rw [hp] at hread hwords
    cases hwords
    simp only [hread]
    exact called

/-- A quotation is executed word by word, inside of a frame and one level deeper. -/
theorem callPushes_quotation (ok : h.Quoting) (hv : h.body? v = some words) {n : Nat}
    (each : List.Forall₂ (h.CallPushes (.ofDepth n)) words parts) :
    h.CallPushes (.ofDepth (n + 1)) v parts.flatten := by
  intro w beside framed
  obtain ⟨id, x, c, rfl, hx, hc, hwords⟩ := Heap.body?_eq_some hv
  obtain rfl := ok.routine _ c hc
  have hcall : w.heap.callback .call (.ref id) = .ok (some (.routine .quotationCall)) := by
    rw [beside.callback, Heap.callback_of_get? hx, hc]
  have inside : ∀ w', w'.heap = w.heap.pushFrame (.ref id) →
      ((Runner.ofDepth (n + 1)).run .call (.routine .quotationCall) (.ref id)).Yields w'
        (h.verdict parts.flatten)
        ((w.heap.pushFrame (.ref id)).pushAll (h.pushable parts.flatten)) := by
    intro w' hheap
    rw [← hheap]
    have framed' := (Path.single (.pushFrame (.ref id)) w.heap).framed framed
    refine yields_bind (exec_act _ w') rfl ?_
    exact yields_quotationCall ok hv each (hheap ▸ beside.pushFrame (.ref id)) (hheap ▸ framed')
  obtain ⟨w', hexec, hheap, hctx⟩ := yields_withFrame framed rfl inside
  refine ⟨w', ?_, hheap, hctx⟩
  exact (ask_bind_of_ok (f := fun h => h.callback .call (.ref id)) hcall _).1.trans hexec

/-- Calling a value executes its flattening, if callbacks may run as deep as there are instances that
are not on the way to it. -/
theorem Heap.Flattens.callPushes (ok : h.Quoting) {vs : List Value} (flat : h.Flattens v vs)
    {way : List Value} (trail : Trail h.Runs (v :: way)) {n : Nat} (enough : h.unseen way < n) :
    h.CallPushes (.ofDepth n) v vs := by
  induction flat generalizing way n with
  | word hv => exact callPushes_word hv _
  | @quotation v words parts hv hlength each ih =>
    have acyclic := (Heap.Flattens.quotation hv hlength each).acyclic
    have fresh : v ∉ way := fun again => acyclic (trail.reachesCycle again List.mem_cons_self)
    have fewer := Heap.unseen_cons_lt (Heap.mem_liveValues_of_body? hv) fresh
    obtain ⟨m, rfl⟩ : ∃ m, n = m + 1 := ⟨n - 1, by omega⟩
    refine callPushes_quotation ok hv (List.forall₂_iff_zip.mpr ⟨hlength.symm, fun {x vs} hp => ?_⟩)
    have step : h.Runs v x := ⟨words, hv, (List.of_mem_zip hp).1⟩
    exact ih (x, vs) hp (trail.step step) (Nat.lt_of_lt_of_le fewer (Nat.le_of_lt_succ enough))

end

/-- Calling a quotation executes its flattening.

On a heap that has come about by any actions, let all call callbacks be that of quotations and let no
payload be in use for writing.  From a value that reaches no value that runs itself, there is exactly
one list of words that is left when quotations are replaced by their words.  If callbacks may run as
deep as there are instances, calling the value pushes these words in order.  It succeeds if none of
them is stale; else it fails with the first that is, and pushes those before it.  Beside the stack the
heap is as before, the frames included, whether they are kept or only counted. -/
theorem call_pushes_flattening {config : Config} (positive : 1 ≤ config.maxFrameDepth)
    {ts : List Transition} {w : World} (path : Path (Heap.new config) ts w.heap)
    (ok : w.heap.Quoting) {v : Value} (acyclic : ¬ ReachesCycle w.heap.Runs v) {n : Nat}
    (deep : w.heap.pool.instances.length < n) :
    ∃ vs, w.heap.Flattens v vs ∧ (∀ us, w.heap.Flattens v us → us = vs) ∧
      (call (.ofDepth n) v).run.Yields w (w.heap.verdict vs)
        (w.heap.pushAll (w.heap.pushable vs)) := by
  have framed : w.heap.Framed := path.framed ⟨positive, [], .nil _⟩
  obtain ⟨vs, flat⟩ := Heap.exists_flattens_iff.mpr acyclic
  refine ⟨vs, flat, fun us flat' => flat'.unique flat, ?_⟩
  exact flat.callPushes ok (trail_singleton v) (Nat.lt_of_le_of_lt (w.heap.unseen_le _) deep) w
    ⟨_, _, rfl⟩ framed

theorem Heap.Truthful.quoting {past : List Transition} {h : Heap} (truthful : h.Truthful past) :
    h.Quoting where
  routine _ _ hc := by
    obtain ⟨k, rfl, _⟩ := Callback.exists_routine (truthful.stocked.callback hc)
    cases k
    rfl
  readable := truthful.readable

/-- A session that leaves a quotation that is twice in another one, with a string that is gone in
between.  Only one frame is kept. -/
def quotedTwice : Session where
  config := { maxFrameDepth := 1 }
  steps := [.bind "s" (.op (.string "a")), .op .collect,
    .bind "p" (.op (.quotation [.const (.int 1), .const (.int 2)])),
    .op (.quotation [.var "p", .const (.int 3), .var "s", .var "p"])]

theorem call_pushes_flattening_quotedTwice :
    let w := quotedTwice.closing (.ofDepth 5)
    (call (.ofDepth 5) (.ref ⟨2, 0⟩)).run.Yields w (.error (.stale ⟨0, 0⟩))
      (w.heap.pushAll [.int 1, .int 2, .int 3]) := by
  intro w
  have ok : w.heap.Quoting :=
    (quotedTwice.visits_closing (.ofDepth 5) rfl rfl (by decide +kernel)).truthful.heap.quoting
  obtain ⟨_, _, _, path⟩ :=
    Session.exists_path_of_mem_moments (quotedTwice.closing_mem_moments (.ofDepth 5))
  have one : w.heap.Flattens (.int 1) [.int 1] := .word rfl
  have two : w.heap.Flattens (.int 2) [.int 2] := .word rfl
  have three : w.heap.Flattens (.int 3) [.int 3] := .word rfl
  have gone : w.heap.Flattens (.ref ⟨0, 0⟩) [.ref ⟨0, 0⟩] := .word (by decide +kernel)
  have hinner : w.heap.body? (.ref ⟨1, 0⟩) = some [.int 1, .int 2] := by decide +kernel
  have inner : w.heap.Flattens (.ref ⟨1, 0⟩) [[.int 1], [.int 2]].flatten :=
    .quotation hinner rfl (by simp [one, two])
  have houter : w.heap.body? (.ref ⟨2, 0⟩) =
      some [.ref ⟨1, 0⟩, .int 3, .ref ⟨0, 0⟩, .ref ⟨1, 0⟩] := by decide +kernel
  have outer : w.heap.Flattens (.ref ⟨2, 0⟩)
      [[.int 1, .int 2], [.int 3], [.ref ⟨0, 0⟩], [.int 1, .int 2]].flatten :=
    .quotation houter rfl (by simpa [three, gone] using inner)
  obtain ⟨vs, _, unique, called⟩ :=
    call_pushes_flattening (w := w) (by decide) path ok outer.acyclic (n := 5) (by decide +kernel)
  obtain rfl := unique _ outer
  have int : ∀ i, w.heap.stale? (.int i) = none := fun _ => rfl
  have stale : w.heap.stale? (.ref ⟨0, 0⟩) = some ⟨0, 0⟩ := by decide +kernel
  simpa [Heap.verdict, Heap.pushable, int, stale] using called

end TracedHeap
