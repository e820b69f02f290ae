import MarketDepth.Replica
import MarketDepth.Proofs.BookShape
import MarketDepth.Proofs.WindowRuns

/-! Revisions: what the changes to one side make of a view, and which of them fit it. Changes come in
stages, and whether one fits depends on those before it, through the view as they have revised it. -/

namespace MarketDepth

variable {side : Side} {S : Set Price} {scale : Scale side S}

/-- The changes to one side of a view, each list in the order in which it is taken. -/
structure Revision where
  removals : List Level := []
  additions : List Level := []
  updates : List Level := []

def ChangeSet.on (changes : ChangeSet) (side : Side) : Revision :=
  ⟨changes.removals.on side, changes.additions.on side, changes.updates.on side⟩

inductive Stage where
  | removal
  | addition
  | update
  deriving DecidableEq

namespace Stage

def turn : Stage → Nat
  | .removal => 0
  | .addition => 1
  | .update => 2

def levels (changes : ChangeSet) : Stage → Levels
  | .removal => changes.removals
  | .addition => changes.additions
  | .update => changes.updates

def change : Stage → Ladder side Level → List Level → Ladder side Level × Option Misfit
  | .removal => Replica.removeAll
  | .addition => Replica.addAll
  | .update => Replica.updateAll

def misfit : Stage → Side → Price → Misfit
  | .removal | .update => .unknown
  | .addition => .duplicate

/-- Whether an edit fits, by whether there is a level at its price. -/
def admits : Stage → Bool → Bool
  | .removal, known | .update, known => known
  | .addition, known => !known

end Stage

namespace Revision

variable (revision : Revision)

/-- The view minus the removals. -/
def kept (side : Side) (view : List Level) : List Level :=
  view.filter fun level => !holds side revision.removals level.price

/-- The view minus the removals plus the additions. -/
def filled (side : Side) (view : List Level) : List Level :=
  revision.kept side view ++ revision.additions

/-- A level as its last update leaves it. -/
def latest (side : Side) (updates : List Level) (level : Level) : Level :=
  (updates.reverse.find? fun update => side.same update.price level.price).getD level

def revised (side : Side) (view : List Level) : List Level :=
  (revision.filled side view).map (latest side revision.updates)

/-- Removals and updates find a level at their price, additions find none, and no price is removed or
added twice. -/
structure Fits (side : Side) (view : List Level) : Prop where
  removalsDiffer : revision.removals.Pairwise fun a b => side.same a.price b.price = false
  removalsKnown : ∀ level ∈ revision.removals, holds side view level.price = true
  additionsDiffer : revision.additions.Pairwise fun a b => side.same a.price b.price = false
  additionsNew : ∀ level ∈ revision.additions,
    holds side (revision.kept side view) level.price = false
  updatesKnown : ∀ level ∈ revision.updates,
    holds side (revision.filled side view) level.price = true

def push (level : Level) : Stage → Revision
  | .removal => { revision with removals := revision.removals ++ [level] }
  | .addition => { revision with additions := revision.additions ++ [level] }
  | .update => { revision with updates := revision.updates ++ [level] }

/-- What comes of an edit that does not fit. Only an addition leaves a trace: it acts as an update. -/
def spoil (level : Level) : Stage → Revision
  | .removal | .update => revision
  | .addition => revision.push level .update

/-- Nothing of a later stage has been taken yet. -/
def Awaits : Stage → Prop
  | .removal => revision.additions = [] ∧ revision.updates = []
  | .addition => revision.updates = []
  | .update => True

structure Priced (S : Set Price) (view : List Level) : Prop where
  view : ∀ level ∈ view, level.price ∈ S
  removals : ∀ level ∈ revision.removals, level.price ∈ S
  additions : ∀ level ∈ revision.additions, level.price ∈ S
  updates : ∀ level ∈ revision.updates, level.price ∈ S

variable {revision} {view levels updates : List Level} {level : Level} {price : Price}

theorem fits_nil (side : Side) (view : List Level) : ({} : Revision).Fits side view :=
  ⟨.nil, by simp, .nil, by simp, by simp⟩

@[simp] theorem latest_nil (side : Side) : latest side [] = id := rfl

theorem revised_nil (side : Side) (view : List Level) : ({} : Revision).revised side view = view := by
  simp [revised, filled, kept, holds]

theorem mem_kept (scale : Scale side S) (h : revision.Priced S view) :
    level ∈ revision.kept side view ↔ level ∈ view ∧ Absent scale revision.removals level := by
  rw [kept, List.mem_filter, Bool.not_eq_true', ← Bool.not_eq_true]
  exact and_congr_right fun hin => by rw [holds_iff h.removals (h.view level hin), not_not]

theorem Priced.kept (h : revision.Priced S view) :
    ∀ level ∈ revision.kept side view, level.price ∈ S :=
  fun level hin => h.view level (List.mem_of_mem_filter hin)

theorem Priced.filled (h : revision.Priced S view) :
    ∀ level ∈ revision.filled side view, level.price ∈ S := by
  intro level hin
  rcases List.mem_append.mp hin with hin | hin
  · exact h.kept level hin
  · exact h.additions level hin

theorem place_latest (scale : Scale side S) (hu : ∀ update ∈ updates, update.price ∈ S)
    (hl : level.price ∈ S) : (latest side updates level).price ∈ S ∧
      scale.place (latest side updates level).price = scale.place level.price := by
  cases hf : updates.reverse.find? fun update => side.same update.price level.price with
  | none =>
    rw [latest, hf]
    exact ⟨hl, rfl⟩
  | some update =>
    have hin := hu update (List.mem_reverse.mp (List.mem_of_find?_eq_some hf))
    rw [latest, hf]
    have hsame : side.same update.price level.price = true :=
      List.find?_some (p := fun update : Level => side.same update.price level.price) hf
    exact ⟨hin, (scale.same_iff hin hl).mp hsame⟩

theorem latest_concat (side : Side) (updates : List Level) (update level : Level) :
    latest side (updates ++ [update]) level =
      if side.same update.price level.price then update else latest side updates level := by
  cases h : side.same update.price level.price <;> simp [latest, h]

theorem Priced.revised (scale : Scale side S) (h : revision.Priced S view) :
    ∀ level ∈ revision.revised side view, level.price ∈ S := by
  intro level hin
  obtain ⟨old, hold, rfl⟩ := List.mem_map.mp hin
  exact (place_latest scale h.updates (h.filled old hold)).1

theorem holds_revised (scale : Scale side S) (h : revision.Priced S view) (hl : level.price ∈ S) :
    holds side (revision.revised side view) level.price =
      holds side (revision.filled side view) level.price := by
  rw [Bool.eq_iff_iff, holds_iff_exists scale (h.revised scale) hl, holds_iff_exists scale h.filled hl]
  simp only [revised, List.mem_map, exists_exists_and_eq_and]
  refine exists_congr fun old => and_congr_right fun hin => ?_
  rw [(place_latest scale h.updates (h.filled old hin)).2]

theorem Awaits.addition (h : revision.Awaits .removal) : revision.Awaits .addition := h.2

theorem Awaits.revised_eq (h : revision.Awaits .addition) :
    revision.revised side view = revision.filled side view := by
  have hu : revision.updates = [] := h
  simp [revised, hu]

theorem Awaits.filled_eq (h : revision.Awaits .removal) :
    revision.filled side view = revision.kept side view := by
  simp [filled, h.1]

theorem Priced.push (h : revision.Priced S view) (hl : level.price ∈ S) (stage : Stage) :
    (revision.push level stage).Priced S view := by
  have hconcat : ∀ {levels : List Level}, (∀ old ∈ levels, old.price ∈ S) →
      ∀ old ∈ levels ++ [level], old.price ∈ S :=
    fun hS => List.forall_mem_append.mpr ⟨hS, List.forall_mem_singleton.mpr hl⟩
  cases stage with
  | removal => exact { h with removals := hconcat h.removals }
  | addition => exact { h with additions := hconcat h.additions }
  | update => exact { h with updates := hconcat h.updates }

theorem mem_revised_push_addition (hw : revision.Awaits .addition) {other : Level} :
    other ∈ (revision.push level .addition).revised side view ↔
      other = level ∨ other ∈ revision.revised side view := by
  have hpushed : (revision.push level .addition).Awaits .addition := hw
  have hfilled : (revision.push level .addition).filled side view =
      revision.filled side view ++ [level] := (List.append_assoc _ _ _).symm
  rw [hw.revised_eq, hpushed.revised_eq, hfilled, List.mem_append, List.mem_singleton, or_comm]

theorem holds_kept (scale : Scale side S) (h : revision.Priced S view) (hl : level.price ∈ S) :
    holds side (revision.kept side view) level.price = true ↔
      holds side view level.price = true ∧ holds side revision.removals level.price = false := by
  have hleft : holds side revision.removals level.price = false ↔
      Absent scale revision.removals level := by
    rw [← Bool.not_eq_true, holds_iff h.removals hl, not_not]
  rw [hleft, holds_iff_exists scale h.kept hl, holds_iff_exists scale h.view hl]
  constructor
  · rintro ⟨old, hin, heq⟩
    obtain ⟨hview, hleft⟩ := (mem_kept scale h).mp hin
    exact ⟨⟨old, hview, heq⟩, (Tracks.absent_congr heq).mp hleft⟩
  · rintro ⟨⟨old, hview, heq⟩, hleft⟩
    exact ⟨old, (mem_kept scale h).mpr ⟨hview, (Tracks.absent_congr heq).mpr hleft⟩, heq⟩

section

variable (scale) (h : revision.Priced S view) (hl : level.price ∈ S)

include scale h hl

theorem fits_push_removal (hw : revision.Awaits .removal) :
    (revision.push level .removal).Fits side view ↔
      revision.Fits side view ∧ holds side (revision.revised side view) level.price = true := by
  rw [holds_revised scale h hl, hw.filled_eq, holds_kept scale h hl, holds_eq_false]
  obtain ⟨ha, hu⟩ := hw
  constructor
  · intro hf
    obtain ⟨hdiffer, -, hnew⟩ := List.pairwise_append.mp hf.removalsDiffer
    obtain ⟨hknown, hlevel⟩ := List.forall_mem_append.mp hf.removalsKnown
    refine ⟨⟨hdiffer, hknown, ?_, ?_, ?_⟩, hlevel level List.mem_cons_self,
      fun gone hgone => hnew gone hgone level (by simp)⟩
    all_goals simp [ha, hu]
  · rintro ⟨hf, hlevel, hnew⟩
    refine ⟨List.pairwise_append.mpr ⟨hf.removalsDiffer, by simp, by simpa using hnew⟩,
      List.forall_mem_append.mpr ⟨hf.removalsKnown, List.forall_mem_singleton.mpr hlevel⟩,
      ?_, ?_, ?_⟩
    all_goals simp [push, ha, hu]

theorem fits_push_addition (hw : revision.Awaits .addition) :
    (revision.push level .addition).Fits side view ↔
      revision.Fits side view ∧ holds side (revision.revised side view) level.price = false := by
  have hfree : holds side (revision.filled side view) level.price = false ↔
      holds side (revision.kept side view) level.price = false ∧
        ∀ old ∈ revision.additions, side.same old.price level.price = false := by
    rw [← holds_eq_false, holds, filled, List.any_append, Bool.or_eq_false_iff, holds, holds]
  have hu : revision.updates = [] := hw
  rw [holds_revised scale h hl, hfree]
  constructor
  · intro hf
    obtain ⟨hdiffer, -, hfar⟩ := List.pairwise_append.mp hf.additionsDiffer
    obtain ⟨hnew, hlevel⟩ := List.forall_mem_append.mp hf.additionsNew
    exact ⟨⟨hf.removalsDiffer, hf.removalsKnown, hdiffer, hnew, by simp [hu]⟩,
      hlevel level List.mem_cons_self, fun old hin => hfar old hin level (by simp)⟩
  · rintro ⟨hf, hlevel, hfar⟩
    exact ⟨hf.removalsDiffer, hf.removalsKnown,
      List.pairwise_append.mpr ⟨hf.additionsDiffer, by simp, by simpa using hfar⟩,
      List.forall_mem_append.mpr ⟨hf.additionsNew, List.forall_mem_singleton.mpr hlevel⟩,
      by simp [push, hu]⟩

theorem fits_push_update : (revision.push level .update).Fits side view ↔
    revision.Fits side view ∧ holds side (revision.revised side view) level.price = true := by
  rw [holds_revised scale h hl]
  constructor
  · intro hf
    obtain ⟨hknown, hlevel⟩ := List.forall_mem_append.mp hf.updatesKnown
    exact ⟨⟨hf.removalsDiffer, hf.removalsKnown, hf.additionsDiffer, hf.additionsNew, hknown⟩,
      hlevel level List.mem_cons_self⟩
  · rintro ⟨hf, hlevel⟩
    exact ⟨hf.removalsDiffer, hf.removalsKnown, hf.additionsDiffer, hf.additionsNew,
      List.forall_mem_append.mpr ⟨hf.updatesKnown, List.forall_mem_singleton.mpr hlevel⟩⟩

theorem fits_push {stage : Stage} (hw : revision.Awaits stage) :
    (revision.push level stage).Fits side view ↔ revision.Fits side view ∧
      stage.admits (holds side (revision.revised side view) level.price) = true := by
  cases stage with
  | removal => exact fits_push_removal scale h hl hw
  | addition => simpa [Stage.admits] using fits_push_addition scale h hl hw
  | update => exact fits_push_update scale h hl

theorem mem_revised_push_removal (hw : revision.Awaits .removal) {other : Level} :
    other ∈ (revision.push level .removal).revised side view ↔
      other ∈ revision.revised side view ∧ scale.place other.price ≠ scale.place level.price := by
  have hpushed : (revision.push level .removal).Awaits .removal := hw
  rw [hw.addition.revised_eq, hw.filled_eq, hpushed.addition.revised_eq, hpushed.filled_eq,
    mem_kept scale h, mem_kept scale (h.push hl .removal)]
  simp only [push, Absent, List.mem_append, List.mem_singleton, or_imp, forall_and, forall_eq,
    and_assoc, ne_comm (a := scale.place other.price)]

theorem mem_revised_push_update {other : Level}
    (hknown : holds side (revision.revised side view) level.price = true) :
    other ∈ (revision.push level .update).revised side view ↔ other = level ∨
      other ∈ revision.revised side view ∧ scale.place other.price ≠ scale.place level.price := by
  rw [holds_revised scale h hl, holds_iff_exists scale h.filled hl] at hknown
  have hmem : other ∈ (revision.push level .update).revised side view ↔
      ∃ old ∈ revision.filled side view,
        latest side (revision.updates ++ [level]) old = other := List.mem_map
  have hsame : ∀ old ∈ revision.filled side view, (side.same level.price old.price = true ↔
      scale.place level.price = scale.place (latest side revision.updates old).price) := by
    intro old hin
    have hold := h.filled old hin
    rw [scale.same_iff hl hold, (place_latest scale h.updates hold).2]
  rw [hmem]
  constructor
  · rintro ⟨old, hin, rfl⟩
    rw [latest_concat]
    split_ifs with heq
    · exact .inl rfl
    · exact .inr ⟨List.mem_map_of_mem hin, fun hplace => heq ((hsame old hin).mpr hplace.symm)⟩
  · rintro (rfl | ⟨hin, hne⟩)
    · obtain ⟨old, hin, heq⟩ := hknown
      refine ⟨old, hin, ?_⟩
      rw [latest_concat, if_pos ((scale.same_iff hl (h.filled old hin)).mpr heq.symm)]
    · obtain ⟨old, hold, rfl⟩ := List.mem_map.mp hin
      refine ⟨old, hold, ?_⟩
      rw [latest_concat, if_neg fun heq => hne ((hsame old hold).mp heq).symm]

end

end Revision

/-- A ladder on which just these levels stand. -/
structure Ladder.Shows (scale : Scale side S) (ladder : Ladder side Level) (levels : List Level) :
    Prop where
  filed : ladder.Filed scale Level.price
  mem : ∀ level, level ∈ ladder.values ↔ level ∈ levels

namespace Ladder

variable {ladder : Ladder side Level} {revision : Revision} {view levels : List Level}
  {level : Level}

theorem Shows.contains (h : ladder.Shows scale levels) (hl : level.price ∈ S) :
    ladder.contains level.price = holds side levels level.price := by
  have hS : ∀ other ∈ levels, other.price ∈ S :=
    fun other hin => h.filed.known_of_mem ((h.mem other).mpr hin)
  rw [Bool.eq_iff_iff, h.filed.contains_iff hl, holds_iff_exists scale hS hl]
  simp only [h.mem]

section

variable (h : ladder.Shows scale (revision.revised side view)) (hp : revision.Priced S view)
  (hl : level.price ∈ S)

include h hp hl

theorem Shows.erase (hw : revision.Awaits .removal) :
    (ladder.erase level.price).Shows scale
      ((revision.push level .removal).revised side view) := by
  refine ⟨h.filed.erase level.price, fun other => ?_⟩
  rw [h.filed.mem_erase hl, h.mem, Revision.mem_revised_push_removal scale hp hl hw]

theorem Shows.insert_new (hw : revision.Awaits .addition)
    (hnew : holds side (revision.revised side view) level.price = false) :
    (ladder.insert level.price level).Shows scale
      ((revision.push level .addition).revised side view) := by
  refine ⟨h.filed.insert hl, fun other => ?_⟩
  rw [h.filed.mem_insert hl, h.mem, Revision.mem_revised_push_addition hw]
  refine or_congr_right (and_iff_left_of_imp fun hin heq => ?_)
  rw [← Bool.not_eq_true, holds_iff (hp.revised scale) hl, not_not] at hnew
  exact hnew other hin heq

theorem Shows.insert_known
    (hknown : holds side (revision.revised side view) level.price = true) :
    (ladder.insert level.price level).Shows scale
      ((revision.push level .update).revised side view) := by
  refine ⟨h.filed.insert hl, fun other => ?_⟩
  rw [h.filed.mem_insert hl, h.mem, Revision.mem_revised_push_update scale hp hl hknown]

theorem Shows.change {stage : Stage} (hw : revision.Awaits stage) :
    (stage.admits (holds side (revision.revised side view) level.price) = true →
      ∃ next, stage.change ladder [level] = (next, none) ∧
        next.Shows scale ((revision.push level stage).revised side view)) ∧
    (stage.admits (holds side (revision.revised side view) level.price) = false →
      ∃ next, stage.change ladder [level] = (next, some (stage.misfit side level.price)) ∧
        next.Shows scale ((revision.spoil level stage).revised side view)) := by
  have hc := h.contains hl
  cases stage with
  | removal =>
    refine ⟨fun hk => ⟨_, ?_, h.erase hp hl hw⟩, fun hk => ⟨ladder, ?_, h⟩⟩
    · rw [Stage.change, Replica.removeAll, if_pos (hc.trans hk), Replica.removeAll]
    · rw [Stage.change, Replica.removeAll, if_neg (by simp [hc.trans hk]), Stage.misfit]
  | addition =>
    refine ⟨fun hk => ?_, fun hk => ?_⟩
    · have hnew : holds side (revision.revised side view) level.price = false := by
        simpa [Stage.admits] using hk
      refine ⟨_, ?_, h.insert_new hp hl hw hnew⟩
      rw [Stage.change, Replica.addAll, if_neg (by simp [hc.trans hnew]), Replica.addAll]
    · have hknown : holds side (revision.revised side view) level.price = true := by
        simpa [Stage.admits] using hk
      refine ⟨_, ?_, h.insert_known hp hl hknown⟩
      rw [Stage.change, Replica.addAll, if_pos (hc.trans hknown), Stage.misfit]
  | update =>
    refine ⟨fun hk => ⟨_, ?_, h.insert_known hp hl hk⟩, fun hk => ⟨ladder, ?_, h⟩⟩
    · rw [Stage.change, Replica.updateAll, if_pos (hc.trans hk), Replica.updateAll]
    · rw [Stage.change, Replica.updateAll, if_neg (by simp [hc.trans hk]), Stage.misfit]

end

end Ladder

end MarketDepth
