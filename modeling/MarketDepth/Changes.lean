import MarketDepth.Ladder

/-! Changes to what can be seen of a book. `SideChanges` gathers those of one side while a batch is
applied; a `ChangeSet` holds those of both sides. -/

namespace MarketDepth

structure ChangeSet where
  additions : Levels := {}
  updates : Levels := {}
  removals : Levels := {}

def ChangeSet.isEmpty (changes : ChangeSet) : Bool :=
  changes.additions.isEmpty && changes.updates.isEmpty && changes.removals.isEmpty

structure SideChanges (side : Side) where
  additions : Ladder side Level := .empty
  updates : Ladder side Level := .empty
  removals : Ladder side Level := .empty

namespace SideChanges

variable {side : Side}

def empty : SideChanges side := {}

def add (changes : SideChanges side) (level : Level) : SideChanges side :=
  { changes with additions := changes.additions.insert level.price level }

/-- A level went out of view. One that came into view earlier in the same batch is forgotten. -/
def remove (changes : SideChanges side) (level : Level) : SideChanges side :=
  if changes.additions.contains level.price then
    { changes with additions := changes.additions.erase level.price }
  else
    { changes with
      updates := changes.updates.erase level.price
      removals := changes.removals.insert level.price level }

/-- A level in view changed. One that came into view earlier in the same batch is an addition
still, with its new value. -/
def update (changes : SideChanges side) (level : Level) : SideChanges side :=
  if changes.additions.contains level.price then
    { changes with additions := changes.additions.insert level.price level }
  else
    { changes with updates := changes.updates.insert level.price level }

def isEmpty (changes : SideChanges side) : Bool :=
  changes.additions.isEmpty && changes.updates.isEmpty && changes.removals.isEmpty

end SideChanges

def ChangeSet.ofSides (asks : SideChanges .ask) (bids : SideChanges .bid) : ChangeSet where
  additions := ⟨asks.additions.values, bids.additions.values⟩
  updates := ⟨asks.updates.values, bids.updates.values⟩
  removals := ⟨asks.removals.values, bids.removals.values⟩

end MarketDepth
