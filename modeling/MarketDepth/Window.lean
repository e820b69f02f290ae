import MarketDepth.Changes
import MarketDepth.Netting

/-! A window keeps every level of one side and shows the best few. It marks the last level it shows
and moves that mark as levels come and go: a level that leaves the window lets the next one in, a
level that enters a full window pushes the last one out. A depth of zero shows every level. -/

namespace MarketDepth

structure Window (side : Side) where
  depth : Nat
  levels : Ladder side Level := .empty
  /-- Price of the last level shown. Absent when there are no levels and when all are shown. -/
  last : Option Price := none

inductive Move where
  | remove (level : Level)
  | add (level : Level)
  | update (level : Level)

namespace Move

def removed? : Move → Option Level
  | .remove level => some level
  | _ => none

def added? : Move → Option Level
  | .add level => some level
  | _ => none

def updated? : Move → Option Level
  | .update level => some level
  | _ => none

end Move

namespace Window

variable {side : Side}

def empty (depth : Nat) : Window side := { depth }

def clear (window : Window side) : Window side := .empty window.depth

def size (window : Window side) : Nat := window.levels.size

def isEmpty (window : Window side) : Bool := window.levels.isEmpty

def get? (window : Window side) (price : Price) : Option Level := window.levels.get? price

def visible (window : Window side) : List Level :=
  if window.depth = 0 then window.levels.values
  else
    match window.last with
    | some last => window.levels.upTo last
    | none => []

/-- Where the mark belongs: at the last of the `depth` best levels. -/
def boundary (window : Window side) : Option Price :=
  if window.depth = 0 then none
  else window.levels.prices[min window.size window.depth - 1]?

/-- A delta at a new price adds a level if its size is positive and is dropped otherwise. A delta at
a known price removes the level if nothing, or less than nothing, would be left of it. -/
def classify (window : Window side) (delta : Delta) : Option Move :=
  match window.get? delta.price with
  | none => if 0 < delta.size then some (.add ⟨delta.price, delta.size, delta.time⟩) else none
  | some level =>
    let size := level.size + delta.size
    if negligible size || size < 0 then some (.remove level)
    else some (.update ⟨delta.price, size, delta.time⟩)

/-- Takes a level out. If a shown level leaves a window with hidden levels, the best hidden one is
shown; if the last of all levels leaves, the one before it becomes the last. -/
def remove (window : Window side) (changes : SideChanges side) (level : Level) :
    Window side × SideChanges side :=
  match window.get? level.price with
  | none => (window, changes)
  | some removed =>
    let levels := window.levels.erase level.price
    if window.depth = 0 then ({ window with levels, last := none }, changes.remove removed)
    else
      match window.last with
      | none => (window, changes)
      | some last =>
        let overflowing := window.depth < window.size
        if overflowing && side.rank level.price last == .gt then ({ window with levels }, changes)
        else if overflowing then
          match levels.firstBeyond? last with
          | some (price, promoted) =>
            ({ window with levels, last := some price }, (changes.remove removed).add promoted)
          | none => ({ window with levels }, changes.remove removed)
        else if side.same level.price last then
          ({ window with levels, last := levels.lastBefore? last }, changes.remove removed)
        else ({ window with levels }, changes.remove removed)

/-- Puts a level in. If it is shown in a full window, the last level goes out of view. -/
def add (window : Window side) (changes : SideChanges side) (level : Level) :
    Window side × SideChanges side :=
  let levels := window.levels.insert level.price level
  if window.depth = 0 then ({ window with levels, last := none }, changes.add level)
  else
    let full := window.depth ≤ window.size
    match window.last with
    | none => ({ window with levels, last := some level.price }, changes.add level)
    | some last =>
      let better := side.rank level.price last == .lt
      if full then
        if better then
          let changes := changes.add level
          let changes := match levels.get? last with
            | some evicted => changes.remove evicted
            | none => changes
          ({ window with levels, last := levels.lastBefore? last }, changes)
        else ({ window with levels }, changes)
      else if better then ({ window with levels }, changes.add level)
      else ({ window with levels, last := some level.price }, changes.add level)

def update (window : Window side) (changes : SideChanges side) (level : Level) :
    Window side × SideChanges side :=
  let levels := window.levels.insert level.price level
  if window.depth = 0 then ({ window with levels, last := none }, changes.update level)
  else if window.levels.contains level.price then
    match window.last with
    | some last =>
      if side.rank level.price last == .gt then ({ window with levels }, changes)
      else ({ window with levels }, changes.update level)
    | none => ({ window with levels }, changes)
  else (window, changes)

/-- Judges all deltas against the levels before them, then removes, adds and updates. -/
def apply (window : Window side) (deltas : List Delta) : Window side × SideChanges side :=
  let moves := deltas.filterMap window.classify
  let state := (window, SideChanges.empty)
  let state := (moves.filterMap Move.removed?).foldl (fun s level => s.1.remove s.2 level) state
  let state := (moves.filterMap Move.added?).foldl (fun s level => s.1.add s.2 level) state
  (moves.filterMap Move.updated?).foldl (fun s level => s.1.update s.2 level) state

end Window

end MarketDepth
