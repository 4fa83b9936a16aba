import TracedHeap.Value

/-!
# Protection frames

A frame belongs to a running operation.  It keeps alive the receiver of the operation (its caller)
and the instances attached to it.  Only a limited number of frames is kept; those pushed beyond
the limit are counted and protect nothing of their own.

* `Frame`, `Frames`            a frame, and the stack of frames, innermost first;
* `Frames.push`, `Frames.pop`  entering and leaving an operation;
* `Frames.resync`              dropping the frames above a depth;
* `Frames.attach`              adding an instance to the innermost frame kept.
-/

namespace TracedHeap

/-- A frame: the receiver of an operation and the instances attached since, the latest first. -/
structure Frame where
  caller : Value
  attached : List InstanceId := []
deriving DecidableEq

structure Frames where
  /-- The frames kept, innermost first. -/
  kept : List Frame := []
  /-- How many frames were pushed beyond the limit. -/
  overflow : Nat := 0
deriving DecidableEq

namespace Frames

/-- The number of frames, those beyond the limit included. -/
def depth (f : Frames) : Nat := f.kept.length + f.overflow

/-- Enters a frame; one beyond the `limit` is only counted. -/
def push (f : Frames) (limit : Nat) (caller : Value) : Frames :=
  if limit ≤ f.kept.length then { f with overflow := f.overflow + 1 }
  else { f with kept := { caller } :: f.kept }

def pop (f : Frames) : Frames :=
  if 0 < f.overflow then { f with overflow := f.overflow - 1 }
  else { f with kept := f.kept.tail }

def resync (f : Frames) (depth : Nat) : Frames :=
  if f.depth ≤ depth then f
  else if f.kept.length ≤ depth then { f with overflow := depth - f.kept.length }
  else { kept := f.kept.drop (f.kept.length - depth), overflow := 0 }

/-- Adds an instance to the innermost frame kept, if there is one. -/
def attach (f : Frames) (id : InstanceId) : Frames :=
  match f.kept with
  | [] => f
  | top :: rest => { f with kept := { top with attached := id :: top.attached } :: rest }

@[simp]
theorem depth_push (f : Frames) (limit : Nat) (caller : Value) :
    (f.push limit caller).depth = f.depth + 1 := by
  unfold push
  split <;> simp [depth] <;> omega

@[simp]
theorem depth_pop (f : Frames) : f.pop.depth = f.depth - 1 := by
  unfold pop
  split <;> simp [depth] <;> omega

@[simp]
theorem depth_resync (f : Frames) (d : Nat) : (f.resync d).depth = min f.depth d := by
  unfold resync
  split
  · omega
  · split <;> simp [depth] at * <;> omega

@[simp]
theorem depth_attach (f : Frames) (id : InstanceId) : (f.attach id).depth = f.depth := by
  unfold attach
  split <;> simp_all [depth]

/-- The frame at a level, counted from the outermost. -/
def level? (f : Frames) (level : Nat) : Option Frame := f.kept.reverse[level]?

def attachedAt (f : Frames) (level : Nat) : List InstanceId :=
  ((f.level? level).map fun top => top.attached.reverse).getD []

def roots (f : Frames) : List Value :=
  f.kept.flatMap fun top => top.caller :: top.attached.map Value.ref

end Frames

end TracedHeap
