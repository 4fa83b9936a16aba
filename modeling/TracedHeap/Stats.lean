import TracedHeap.Heap

/-!
# Statistics

* `Stats`, `Heap.stats`, `Stats.render`   counts over the pool and the collector, and their text;
* `Heap.summary`                          one line on the state of a heap.
-/

namespace TracedHeap

structure Stats where
  live : Nat
  permanent : Nat
  protectedCount : Nat
  marked : Nat
  freed : Nat
  poolSize : Nat
  capacity : Nat
  frameDepth : Nat
  collections : Nat
  totalFreed : Nat
  lastFreed : Nat
  allocations : Nat
deriving DecidableEq

namespace Heap

def stats (h : Heap) : Stats where
  live := h.pool.instances.length
  permanent := (h.pool.namesOf fun x => x.permanent).length
  protectedCount := (h.pool.namesOf fun x => x.isProtected).length
  marked := (h.pool.namesOf fun x => x.marked).length
  freed := h.pool.issued - h.pool.instances.length
  poolSize := h.pool.issued
  capacity := h.pool.capacity
  frameDepth := h.frames.depth
  collections := h.collector.collections
  totalFreed := h.collector.totalFreed
  lastFreed := h.collector.lastFreed
  allocations := h.collector.allocations

def summary (h : Heap) : String :=
  String.join
    [s!"Heap \x7b types: {h.registry.size}, live: {h.pool.live}, issued: {h.pool.issued}, ",
     s!"free: {h.pool.freeLen}, frame_depth: {h.frames.depth}, ",
     s!"stack_depth: {h.stack.length} \x7d"]

end Heap

namespace Stats

/-- A number in a column of ten places, at the right. -/
def column (n : Nat) : String :=
  let digits := toString n
  String.join (List.replicate (10 - digits.length) " ") ++ digits

def render (s : Stats) : String :=
  String.intercalate "\n"
    ["heap statistics",
     "  live         " ++ column s.live,
     "    permanent  " ++ column s.permanent,
     "    protected  " ++ column s.protectedCount,
     "    marked     " ++ column s.marked,
     "  freed        " ++ column s.freed,
     "  pool size    " ++ column s.poolSize ++ s!" of {s.capacity}",
     "  frame depth  " ++ column s.frameDepth,
     "  allocations  " ++ column s.allocations,
     "  collections  " ++ column s.collections ++
       s!" ({s.totalFreed} freed, {s.lastFreed} last)"]

end Stats

end TracedHeap
