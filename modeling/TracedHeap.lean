import TracedHeap.Proofs.Trace
import TracedHeap.Proofs.Slots
import TracedHeap.Proofs.FreeList
import TracedHeap.Proofs.Conduct
import TracedHeap.Proofs.Idiom
import TracedHeap.Proofs.Liberties
import TracedHeap.Proofs.Lawful
import TracedHeap.Proofs.Typing
import TracedHeap.Proofs.PoolInvariant
import TracedHeap.Proofs.Lifetime
import TracedHeap.Proofs.Marking
import TracedHeap.Proofs.Collection
import TracedHeap.Proofs.Interlude
import TracedHeap.Proofs.Containers
import TracedHeap.Proofs.Transparency
import TracedHeap.Proofs.Sweep
import TracedHeap.Proofs.Release
import TracedHeap.Proofs.Permanence
import TracedHeap.Proofs.Phases
import TracedHeap.Proofs.Effect
import TracedHeap.Proofs.Borrowing
import TracedHeap.Proofs.FrameStack
import TracedHeap.Proofs.Balance
import TracedHeap.Proofs.Conversion
import TracedHeap.Proofs.Receiver
import TracedHeap.Proofs.Invalidation
import TracedHeap.Proofs.Standard
import TracedHeap.Proofs.Sifting
import TracedHeap.Proofs.Listing
import TracedHeap.Proofs.Honesty
import TracedHeap.Proofs.Sequences
import TracedHeap.Proofs.Registration
import TracedHeap.Proofs.LostTags
import TracedHeap.Proofs.Inheritance
import TracedHeap.Proofs.Likeness
import TracedHeap.Proofs.Horizon
import TracedHeap.Proofs.Blindness
import TracedHeap.Proofs.Discretion
import TracedHeap.Proofs.Confinement
import TracedHeap.Proofs.Recycling
import TracedHeap.Proofs.Census
import TracedHeap.Proofs.Teardown
import TracedHeap.Proofs.Conservation
import TracedHeap.Proofs.Bisimilarity
import TracedHeap.Proofs.Cycles
import TracedHeap.Proofs.Equality
import TracedHeap.Proofs.FiniteMaps
import TracedHeap.Proofs.Rendering
import TracedHeap.Proofs.Inspection
import TracedHeap.Proofs.Reading
import TracedHeap.Proofs.Data
import TracedHeap.Proofs.Unambiguous
import TracedHeap.Proofs.Copying
import TracedHeap.Proofs.Flattening
import TracedHeap.Proofs.Transience
import TracedHeap.Proofs.Newborns
import TracedHeap.Proofs.Latch
import TracedHeap.Proofs.Tracing
import TracedHeap.Proofs.Pacing
import TracedHeap.Proofs.Protection
