/-!
# Retired objects by epochs

Time is counted in epochs. Who may be looking at retired objects holds a pin, and a pin belongs to the epoch in which
it was taken; while it is held, pins that are taken on top of it belong to it. Retired objects are gathered in a batch.
When the batch is closed, because it is full or by a flush, it is stamped with the epoch.

A *turn* lets the epoch advance, unless the pin is from an earlier epoch, and then destroys the batches whose stamp is
two epochs old. Hence the epoch gets at most one ahead of a pin, and nothing that is retired under a pin is destroyed
before the pin is given back (`Limbo.spared_while_held`). Turns are made by a flush, and now and then when a pin is
taken. A flush without pins destroys everything (`destroyed_flush`). Whatever is done, no object is lost
(`objects_retire`, `objects_flush`).

The library that keeps the epochs is described as far as a single party can see it. Its documented behaviour is assumed:
the size of a batch, one turn out of so many pins with the first pin among them, and the two epochs between the stamp of
a batch and its end. Pins of other parties, which would hold the epoch back, do not occur.
-/

namespace LeastRecent

/-- Retired objects, destroyed or waiting, with the epoch and the pins. -/
structure Epochs (α : Type) where
  epoch : Nat
  /-- How many pins are held. -/
  pins : Nat
  /-- The epoch of the pins. -/
  since : Nat
  /-- How often a pin was taken while none was held. -/
  taken : Nat
  /-- The batch that is still open, first retired first. -/
  batch : List α
  /-- The closed batches with their stamps, first closed first. -/
  closed : List (Nat × List α)
  /-- Destroyed, in this order. -/
  destroyed : List α

namespace Epochs

variable {α : Type}

/-- Nothing is retired, and nobody holds a pin. -/
def start : Epochs α := ⟨0, 0, 0, 0, [], [], []⟩

/-- So many objects make a batch full. -/
def batchSize : Nat := 64

/-- One out of so many pins makes a turn. -/
def turnInterval : Nat := 128

/-- A pin is held. -/
def isPinned (c : Epochs α) : Bool := decide (0 < c.pins)

/-- All objects ever retired, in this order. -/
def objects (c : Epochs α) : List α := c.destroyed ++ c.closed.flatMap Prod.snd ++ c.batch

/-- The open batch is closed, if it holds anything. -/
def closeBatch (c : Epochs α) : Epochs α :=
  if c.batch.isEmpty then c else { c with batch := [], closed := c.closed ++ [(c.epoch, c.batch)] }

/-- The epoch advances, unless there is a pin from an earlier one. -/
def advance (c : Epochs α) : Epochs α :=
  if c.pins = 0 ∨ c.since = c.epoch then { c with epoch := c.epoch + 1 } else c

/-- A batch with this stamp is old enough to be destroyed. -/
def expired (c : Epochs α) (stamp : Nat) : Bool := decide (stamp + 2 ≤ c.epoch)

/-- The closed batches are destroyed from the front as long as they are old enough. -/
def destroyExpired (c : Epochs α) : Epochs α :=
  { c with
    closed := c.closed.dropWhile fun b => c.expired b.1
    destroyed := c.destroyed ++ (c.closed.takeWhile fun b => c.expired b.1).flatMap Prod.snd }

/-- The epoch advances if it can, and old batches are destroyed. -/
def turn (c : Epochs α) : Epochs α := c.advance.destroyExpired

/-- One more pin is held. -/
def pin (c : Epochs α) : Epochs α :=
  if c.pins = 0 then
    let c' := { c with pins := 1, since := c.epoch, taken := c.taken + 1 }
    if c.taken % turnInterval = 0 then c'.turn else c'
  else { c with pins := c.pins + 1 }

/-- One pin is given back, if one is held. -/
def unpin (c : Epochs α) : Epochs α := { c with pins := c.pins - 1 }

/-- Object `a` is put into the open batch; if that is full, it is closed before. -/
def add (c : Epochs α) (a : α) : Epochs α :=
  let c' := if batchSize ≤ c.batch.length then c.closeBatch else c
  { c' with batch := c'.batch ++ [a] }

/-- Object `a` is retired, under a pin of its own. -/
def retire (c : Epochs α) (a : α) : Epochs α := (c.pin.add a).unpin

/-- All is destroyed that can be: everything without a pin, what a turn destroys under one. -/
def flush (c : Epochs α) : Epochs α :=
  if c.pins = 0 then { c with batch := [], closed := [], destroyed := c.objects } else c.closeBatch.turn

/-! ## No object is lost -/

theorem objects_closeBatch (c : Epochs α) : c.closeBatch.objects = c.objects := by
  unfold closeBatch
  split
  · rfl
  · simp [objects]

theorem objects_turn (c : Epochs α) : c.turn.objects = c.objects := by
  have h (d : Epochs α) : d.destroyExpired.objects = d.objects := by
    simp only [objects, destroyExpired, List.append_assoc]
    rw [← List.append_assoc (List.flatMap _ _), ← List.flatMap_append, List.takeWhile_append_dropWhile]
  rw [turn, h]
  unfold advance
  split <;> rfl

theorem objects_pin (c : Epochs α) : c.pin.objects = c.objects := by
  unfold pin
  split
  · dsimp only
    split
    · rw [objects_turn]; rfl
    · rfl
  · rfl

theorem objects_add (c : Epochs α) (a : α) : (c.add a).objects = c.objects ++ [a] := by
  have h (d : Epochs α) : objects { d with batch := d.batch ++ [a] } = d.objects ++ [a] := by
    simp [objects]
  unfold add
  dsimp only
  rw [h]
  split
  · rw [objects_closeBatch]
  · rfl

theorem objects_retire (c : Epochs α) (a : α) : (c.retire a).objects = c.objects ++ [a] := by
  have h : (c.pin.add a).unpin.objects = (c.pin.add a).objects := rfl
  rw [retire, h, objects_add, objects_pin]

theorem objects_flush (c : Epochs α) : c.flush.objects = c.objects := by
  unfold flush
  split
  · simp [objects]
  · rw [objects_turn, objects_closeBatch]

/-- A flush without pins destroys everything. -/
theorem destroyed_flush {c : Epochs α} (h : c.pins = 0) : c.flush.destroyed = c.objects := by
  simp [flush, h]

end Epochs
end LeastRecent
