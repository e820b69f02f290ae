import Mathlib.Tactic.SplitIfs
import MarketDepth.Window

/-! Recasting levels. A window looks at prices only to rank them, and at times not at all. It does
the same with levels whose prices are replaced by others that rank alike, and whose times by any. -/

namespace MarketDepth

/-- Other prices, perhaps on the other side, that rank as the old ones do, and other times. -/
structure Recasting (side side' : Side) where
  price : Price → Price
  time : Int64 → Int64
  rank_eq : ∀ a b, side'.rank (price a) (price b) = side.rank a b

namespace Recasting

variable {side side' : Side} {α β : Type} (recast : Recasting side side')

def level (level : Level) : Level := ⟨recast.price level.price, level.size, recast.time level.time⟩

def delta (delta : Delta) : Delta := ⟨recast.price delta.price, delta.size, recast.time delta.time⟩

def move : Move → Move
  | .remove level => .remove (recast.level level)
  | .add level => .add (recast.level level)
  | .update level => .update (recast.level level)

def ladder (f : α → β) (ladder : Ladder side α) : Ladder side' β :=
  ⟨ladder.rungs.map (Prod.map recast.price f)⟩

def window (window : Window side) : Window side' :=
  ⟨window.depth, recast.ladder recast.level window.levels, window.last.map recast.price⟩

def changes (changes : SideChanges side) : SideChanges side' :=
  ⟨recast.ladder recast.level changes.additions, recast.ladder recast.level changes.updates,
    recast.ladder recast.level changes.removals⟩

@[simp]
theorem price_level (level : Level) : (recast.level level).price = recast.price level.price := rfl

@[simp]
theorem depth_window (window : Window side) : (recast.window window).depth = window.depth := rfl

@[simp]
theorem levels_window (window : Window side) :
    (recast.window window).levels = recast.ladder recast.level window.levels := rfl

@[simp]
theorem last_window (window : Window side) :
    (recast.window window).last = window.last.map recast.price := rfl

@[simp]
theorem same_price (a b : Price) :
    side'.same (recast.price a) (recast.price b) = side.same a b := by
  rw [Side.same, recast.rank_eq, Side.same]

section

variable (f : α → β) (ladder : Ladder side α) (price : Price)

@[simp]
theorem size_ladder : (recast.ladder f ladder).size = ladder.size :=
  List.length_map _

@[simp]
theorem values_ladder : (recast.ladder f ladder).values = ladder.values.map f := by
  simp [Ladder.values, Recasting.ladder]

theorem filter_rungs {keep : Price × α → Bool} {keep' : Price × β → Bool}
    (h : ∀ rung, keep' (Prod.map recast.price f rung) = keep rung) :
    (recast.ladder f ladder).rungs.filter keep' =
      (ladder.rungs.filter keep).map (Prod.map recast.price f) := by
  rw [Recasting.ladder, List.filter_map]
  congr 2
  funext rung
  exact h rung

theorem find?_rungs {keep : Price × α → Bool} {keep' : Price × β → Bool}
    (h : ∀ rung, keep' (Prod.map recast.price f rung) = keep rung) :
    (recast.ladder f ladder).rungs.find? keep' =
      (ladder.rungs.find? keep).map (Prod.map recast.price f) := by
  rw [← List.head?_filter, ← List.head?_filter, recast.filter_rungs f ladder h, List.head?_map]

@[simp]
theorem get?_ladder :
    (recast.ladder f ladder).get? (recast.price price) = (ladder.get? price).map f := by
  rw [Ladder.get?, recast.find?_rungs f ladder fun rung => recast.same_price price rung.1,
    Option.map_map, Ladder.get?, Option.map_map]
  rfl

@[simp]
theorem contains_ladder :
    (recast.ladder f ladder).contains (recast.price price) = ladder.contains price := by
  simp [Ladder.contains]

@[simp]
theorem erase_ladder : (recast.ladder f ladder).erase (recast.price price) =
    recast.ladder f (ladder.erase price) := by
  refine congrArg Ladder.mk (recast.filter_rungs f ladder fun rung => ?_)
  exact congrArg not (recast.same_price price rung.1)

@[simp]
theorem upTo_ladder :
    (recast.ladder f ladder).upTo (recast.price price) = (ladder.upTo price).map f := by
  have hrank : ∀ rung : Price × α,
      (side'.rank (Prod.map recast.price f rung).1 (recast.price price) != .gt) =
        (side.rank rung.1 price != .gt) :=
        fun rung => congrArg (fun rank => rank != Ordering.gt) (recast.rank_eq rung.1 price)
  rw [Ladder.upTo, recast.filter_rungs f ladder hrank, List.map_map, Ladder.upTo, List.map_map]
  rfl

@[simp]
theorem firstBeyond?_ladder : (recast.ladder f ladder).firstBeyond? (recast.price price) =
    (ladder.firstBeyond? price).map (Prod.map recast.price f) :=
  recast.find?_rungs f ladder fun _ => congrArg (· == .gt) (recast.rank_eq _ _)

@[simp]
theorem lastBefore?_ladder : (recast.ladder f ladder).lastBefore? (recast.price price) =
    (ladder.lastBefore? price).map recast.price := by
  have hrank : ∀ rung : Price × α,
      (side'.rank (Prod.map recast.price f rung).1 (recast.price price) == .lt) =
        (side.rank rung.1 price == .lt) := fun rung => congrArg (· == .lt) (recast.rank_eq _ _)
  rw [Ladder.lastBefore?, recast.filter_rungs f ladder hrank, List.getLast?_map, Option.map_map,
    Ladder.lastBefore?, Option.map_map]
  rfl

theorem upsert_ladder {g : Option α → α} {g' : Option β → β} (h : ∀ o, g' (o.map f) = f (g o)) :
    (recast.ladder f ladder).upsert (recast.price price) g' =
      recast.ladder f (ladder.upsert price g) := by
  have hrungs : ∀ rungs : List (Price × α),
      Ladder.upsertRungs side' (recast.price price) g' (rungs.map (Prod.map recast.price f)) =
        (Ladder.upsertRungs side price g rungs).map (Prod.map recast.price f) := by
    intro rungs
    induction rungs with
    | nil => exact congrArg (fun b => [(recast.price price, b)]) (h none)
    | cons rung rest ih =>
      obtain ⟨key, a⟩ := rung
      have hnone : g' none = f (g none) := h none
      have hsome : g' (some (f a)) = f (g (some a)) := h (some a)
      simp only [List.map_cons, Prod.map_apply, Ladder.upsertRungs, recast.rank_eq]
      cases side.rank price key with
      | lt => simp [hnone]
      | eq => simp [hsome]
      | gt => simp [ih]
  exact congrArg Ladder.mk (hrungs ladder.rungs)

theorem insert_ladder (a : α) : (recast.ladder f ladder).insert (recast.price price) (f a) =
    recast.ladder f (ladder.insert price a) :=
  recast.upsert_ladder f ladder price fun _ => rfl

end

theorem insert_level (ladder : Ladder side Level) (level : Level) :
    (recast.ladder recast.level ladder).insert (recast.price level.price) (recast.level level) =
      recast.ladder recast.level (ladder.insert level.price level) :=
  recast.insert_ladder recast.level ladder level.price level

section

variable (changes : SideChanges side) (level : Level)

theorem add_changes :
    (recast.changes changes).add (recast.level level) = recast.changes (changes.add level) := by
  simp [SideChanges.add, Recasting.changes, insert_level]

theorem remove_changes :
    (recast.changes changes).remove (recast.level level) =
      recast.changes (changes.remove level) := by
  simp only [SideChanges.remove, Recasting.changes, price_level, contains_ladder, erase_ladder,
    insert_level]
  cases changes.additions.contains level.price <;> rfl

theorem update_changes :
    (recast.changes changes).update (recast.level level) =
      recast.changes (changes.update level) := by
  simp only [SideChanges.update, Recasting.changes, price_level, contains_ladder, insert_level]
  cases changes.additions.contains level.price <;> rfl

end

/-- A window together with the changes gathered so far. -/
def state (state : Window side × SideChanges side) : Window side' × SideChanges side' :=
  (recast.window state.1, recast.changes state.2)

section

variable (window : Window side) (changes : SideChanges side) (level : Level)

@[simp]
theorem get?_window (price : Price) :
    (recast.window window).get? (recast.price price) = (window.get? price).map recast.level :=
  recast.get?_ladder recast.level window.levels price

@[simp]
theorem size_window : (recast.window window).size = window.size :=
  recast.size_ladder recast.level window.levels

theorem visible_window :
    (recast.window window).visible = window.visible.map recast.level := by
  simp only [Window.visible, depth_window, levels_window, last_window, values_ladder]
  split_ifs
  · rfl
  · cases window.last <;> simp

theorem classify_delta (delta : Delta) : (recast.window window).classify (recast.delta delta) =
    (window.classify delta).map recast.move := by
  have hget : (recast.window window).get? (recast.delta delta).price =
      (window.get? delta.price).map recast.level := recast.get?_window window delta.price
  unfold Window.classify
  rw [hget]
  cases window.get? delta.price with
  | none =>
    dsimp only [Option.map_none]
    rw [apply_ite (Option.map recast.move)]
    rfl
  | some level =>
    dsimp only [Option.map_some]
    rw [apply_ite (Option.map recast.move)]
    rfl

theorem remove_window :
    (recast.window window).remove (recast.changes changes) (recast.level level) =
      recast.state (window.remove changes level) := by
  simp only [Window.remove, price_level, get?_window]
  cases window.get? level.price with
  | none => rfl
  | some removed =>
    simp only [Option.map_some, depth_window, levels_window, last_window, size_window, erase_ladder,
      remove_changes]
    by_cases hdepth : window.depth = 0
    · rw [if_pos hdepth, if_pos hdepth]
      rfl
    rw [if_neg hdepth, if_neg hdepth]
    cases window.last with
    | none => rfl
    | some last =>
      simp only [Option.map_some, recast.rank_eq, same_price, firstBeyond?_ladder,
        lastBefore?_ladder]
      split_ifs
      · rfl
      · cases (window.levels.erase level.price).firstBeyond? last with
        | none => rfl
        | some rung => exact Prod.ext rfl (recast.add_changes ..)
      · rfl
      · rfl

theorem add_window :
    (recast.window window).add (recast.changes changes) (recast.level level) =
      recast.state (window.add changes level) := by
  simp only [Window.add, price_level, depth_window, levels_window, last_window, size_window,
    insert_level, add_changes]
  by_cases hdepth : window.depth = 0
  · rw [if_pos hdepth, if_pos hdepth]
    rfl
  rw [if_neg hdepth, if_neg hdepth]
  cases window.last with
  | none => rfl
  | some last =>
    simp only [Option.map_some, recast.rank_eq, get?_ladder, lastBefore?_ladder]
    split_ifs
    · cases (window.levels.insert level.price level).get? last with
      | none => rfl
      | some evicted => exact Prod.ext rfl (recast.remove_changes ..)
    · rfl
    · rfl
    · rfl

theorem update_window :
    (recast.window window).update (recast.changes changes) (recast.level level) =
      recast.state (window.update changes level) := by
  simp only [Window.update, price_level, depth_window, levels_window, last_window, contains_ladder,
    insert_level, update_changes]
  split_ifs
  · rfl
  · cases window.last with
    | none => rfl
    | some last =>
      simp only [Option.map_some, recast.rank_eq]
      split_ifs <;> rfl
  · rfl

end

theorem foldl_state {step : Window side × SideChanges side → Level → Window side × SideChanges side}
    {step' : Window side' × SideChanges side' → Level → Window side' × SideChanges side'}
    (h : ∀ state level, step' (recast.state state) (recast.level level) =
      recast.state (step state level)) (levels : List Level)
    (state : Window side × SideChanges side) :
    (levels.map recast.level).foldl step' (recast.state state) =
      recast.state (levels.foldl step state) := by
  induction levels generalizing state with
  | nil => rfl
  | cons level rest ih => rw [List.map_cons, List.foldl_cons, h, ih, List.foldl_cons]

/-- To apply recast deltas to a recast window is to apply the deltas to the window and to recast
what comes of it. -/
theorem apply_window (window : Window side) (deltas : List Delta) :
    (recast.window window).apply (deltas.map recast.delta) =
      recast.state (window.apply deltas) := by
  have hmoves : (deltas.map recast.delta).filterMap (recast.window window).classify =
      (deltas.filterMap window.classify).map recast.move := by
    rw [List.filterMap_map, List.map_filterMap]
    exact congrArg (deltas.filterMap ·) (funext fun delta => recast.classify_delta window delta)
  -- The deltas are judged alike, so each of the three rounds is given the recast levels.
  have hpicked : ∀ pick : Move → Option Level,
      (∀ move, pick (recast.move move) = (pick move).map recast.level) →
      ((deltas.filterMap window.classify).map recast.move).filterMap pick =
        ((deltas.filterMap window.classify).filterMap pick).map recast.level := by
    intro pick h
    rw [List.filterMap_map, List.map_filterMap]
    exact congrArg (List.filterMap · _) (funext h)
  have hremoved := hpicked Move.removed? fun move => by cases move <;> rfl
  have hadded := hpicked Move.added? fun move => by cases move <;> rfl
  have hupdated := hpicked Move.updated? fun move => by cases move <;> rfl
  simp only [Window.apply, hmoves, hremoved, hadded, hupdated]
  have hstart : (recast.window window, SideChanges.empty) = recast.state (window, .empty) := rfl
  rw [hstart, recast.foldl_state fun state level => recast.remove_window state.1 state.2 level,
    recast.foldl_state fun state level => recast.add_window state.1 state.2 level,
    recast.foldl_state fun state level => recast.update_window state.1 state.2 level]

end Recasting

end MarketDepth
