import MarketDepth.Proofs.Revisions

/-! Which change-sets a replica accepts. A change-set is a list of edits, taken one by one up to the
first that does not fit the view as the edits before it have revised it. -/

namespace MarketDepth

variable {side : Side} {S : Set Price}

structure Edit where
  stage : Stage
  side : Side
  level : Level

namespace Replica

def ladder (replica : Replica) : (side : Side) → Ladder side Level
  | .ask => replica.asks
  | .bid => replica.bids

def onSide : (side : Side) → (Ladder side Level → Ladder side Level × Option Misfit) → Replica →
    Replica × Option Misfit
  | .ask => onAsks
  | .bid => onBids

end Replica

namespace Edit

def step (edit : Edit) : Replica → Replica × Option Misfit :=
  Replica.onSide edit.side (edit.stage.change · [edit.level])

def misfit (edit : Edit) : Misfit := edit.stage.misfit edit.side edit.level.price

/-- What an edit that does not fit still does. -/
def residue (edit : Edit) : List Edit :=
  match edit.stage with
  | .removal | .update => []
  | .addition => [{ edit with stage := .update }]

def levels (stage : Stage) (side : Side) (edits : List Edit) : List Level :=
  (edits.filter fun edit => edit.stage = stage ∧ edit.side = side).map Edit.level

/-- What the edits of one side come to. -/
def gather (side : Side) (edits : List Edit) : Revision :=
  ⟨levels .removal side edits, levels .addition side edits, levels .update side edits⟩

end Edit

namespace ChangeSet

def turns : List (Stage × Side) :=
  [(.removal, .ask), (.removal, .bid), (.addition, .ask), (.addition, .bid), (.update, .ask),
    (.update, .bid)]

/-- The edits of a change-set in the order in which they are taken. -/
def edits (changes : ChangeSet) : List Edit :=
  turns.flatMap fun (stage, side) => ((stage.levels changes).on side).map (Edit.mk stage side)

end ChangeSet

theorem Stage.change_cons (stage : Stage) (view : Ladder side Level) (level : Level)
    (rest : List Level) : stage.change view (level :: rest) =
      match stage.change view [level] with
      | (next, none) => stage.change next rest
      | (next, some misfit) => (next, some misfit) := by
  cases hc : view.contains level.price <;> cases stage <;>
    simp [Stage.change, Replica.removeAll, Replica.addAll, Replica.updateAll, hc]

namespace Replica

variable {replica : Replica}

theorem run_append (replica : Replica) (early late : List (Replica → Replica × Option Misfit)) :
    replica.run (early ++ late) =
      match replica.run early with
      | (next, none) => next.run late
      | (next, some misfit) => (next, some misfit) := by
  induction early generalizing replica with
  | nil => rfl
  | cons step rest ih =>
    simp only [List.cons_append, run]
    rcases step replica with ⟨next, _ | misfit⟩
    · exact ih next
    · rfl

theorem onSide_seq {f g h : Ladder side Level → Ladder side Level × Option Misfit}
    (hf : ∀ view, f view = match g view with
      | (next, none) => h next
      | (next, some misfit) => (next, some misfit)) (replica : Replica) :
    onSide side f replica = match onSide side g replica with
      | (next, none) => onSide side h next
      | (next, some misfit) => (next, some misfit) := by
  cases side with
  | ask =>
    simp only [onSide, onAsks, hf]
    rcases g replica.asks with ⟨next, _ | misfit⟩ <;> rfl
  | bid =>
    simp only [onSide, onBids, hf]
    rcases g replica.bids with ⟨next, _ | misfit⟩ <;> rfl

theorem onSide_change (replica : Replica) (side : Side) (stage : Stage) (levels : List Level) :
    onSide side (stage.change · levels) replica =
      replica.run (levels.map fun level => (Edit.mk stage side level).step) := by
  induction levels generalizing replica with
  | nil => cases side <;> cases stage <;> rfl
  | cons level rest ih =>
    simp only [List.map_cons, run, ← ih]
    exact onSide_seq (fun view => stage.change_cons view level rest) replica

theorem run_flatMap {α : Type} {act : α → Replica → Replica × Option Misfit}
    {steps : α → List (Replica → Replica × Option Misfit)}
    (h : ∀ a replica, act a replica = run replica (steps a)) (replica : Replica) (all : List α) :
    replica.run (all.map act) = replica.run (all.flatMap steps) := by
  induction all generalizing replica with
  | nil => rfl
  | cons a rest ih =>
    rw [List.flatMap_cons, run_append, List.map_cons, run, h a]
    rcases replica.run (steps a) with ⟨next, _ | misfit⟩
    · exact ih next
    · rfl

theorem apply_eq_run (replica : Replica) (changes : ChangeSet) :
    replica.apply changes = replica.run (changes.edits.map Edit.step) := by
  have hturns : replica.apply changes = replica.run (ChangeSet.turns.map fun turn =>
      onSide turn.2 (turn.1.change · ((turn.1.levels changes).on turn.2))) := rfl
  rw [hturns, ChangeSet.edits, List.map_flatMap]
  simp only [List.map_map]
  exact run_flatMap (fun turn replica => onSide_change replica turn.2 turn.1 _) replica _

theorem onSide_eq {f : Ladder side Level → Ladder side Level × Option Misfit}
    {next : Ladder side Level} {misfit : Option Misfit}
    (hf : f (replica.ladder side) = (next, misfit)) :
    ∃ after, onSide side f replica = (after, misfit) ∧ after.ladder side = next ∧
      ∀ other, other ≠ side → after.ladder other = replica.ladder other := by
  cases side with
  | ask =>
    refine ⟨{ replica with asks := next }, ?_, rfl, fun other hne => ?_⟩
    · simp only [onSide, onAsks, show f replica.asks = (next, misfit) from hf]
    · cases other with
      | ask => exact absurd rfl hne
      | bid => rfl
  | bid =>
    refine ⟨{ replica with bids := next }, ?_, rfl, fun other hne => ?_⟩
    · simp only [onSide, onBids, show f replica.bids = (next, misfit) from hf]
    · cases other with
      | ask => rfl
      | bid => exact absurd rfl hne

end Replica

namespace Edit

variable {edit : Edit} {edits before rest : List Edit} {view : Side → List Level}

theorem gather_concat (side : Side) (edits : List Edit) (edit : Edit) :
    gather side (edits ++ [edit]) =
      if edit.side = side then (gather side edits).push edit.level edit.stage
      else gather side edits := by
  obtain ⟨stage, other, level⟩ := edit
  by_cases heq : other = side
  · cases stage <;> simp [gather, levels, Revision.push, heq]
  · simp [gather, levels, heq]

theorem gather_residue (side : Side) (edits : List Edit) (edit : Edit) :
    gather side (edits ++ edit.residue) =
      if edit.side = side then (gather side edits).spoil edit.level edit.stage
      else gather side edits := by
  obtain ⟨stage, other, level⟩ := edit
  cases stage with
  | removal => simp [residue, Revision.spoil]
  | addition => exact gather_concat side edits ⟨.update, other, level⟩
  | update => simp [residue, Revision.spoil]

theorem levels_map (stage stage' : Stage) (side side' : Side) (all : List Level) :
    levels stage side (all.map (Edit.mk stage' side')) =
      if stage' = stage ∧ side' = side then all else [] := by
  split_ifs with heq
  · obtain ⟨rfl, rfl⟩ := heq
    simp [levels, List.filter_map, Function.comp_def]
  · simp [levels, List.filter_map, Function.comp_def, heq]

theorem gather_edits (changes : ChangeSet) (side : Side) :
    gather side changes.edits = changes.on side := by
  have happend : ∀ (stage : Stage) (early late : List Edit),
      levels stage side (early ++ late) = levels stage side early ++ levels stage side late := by
    simp [levels]
  cases side <;>
    simp [gather, ChangeSet.edits, ChangeSet.turns, ChangeSet.on, Stage.levels, happend, levels_map]

/-- Edits at known prices, each due no earlier than those before it. -/
structure Staged (S : Set Price) (edits : List Edit) : Prop where
  priced : ∀ edit ∈ edits, edit.level.price ∈ S
  turns : edits.Pairwise fun a b => a.stage.turn ≤ b.stage.turn

theorem staged_edits {changes : ChangeSet} (hS : ∀ edit ∈ changes.edits, edit.level.price ∈ S) :
    Staged S changes.edits := by
  have hturns : ChangeSet.turns.Pairwise fun a b => a.1.turn ≤ b.1.turn := by decide
  refine ⟨hS, List.pairwise_flatMap.mpr ⟨fun turn _ => ?_, hturns.imp fun {early late} hle => ?_⟩⟩
  · exact List.pairwise_map.mpr (List.pairwise_of_forall fun _ _ => le_rfl)
  · intro a ha b hb
    obtain ⟨_, -, rfl⟩ := List.mem_map.mp ha
    obtain ⟨_, -, rfl⟩ := List.mem_map.mp hb
    exact hle

theorem Staged.left (h : Staged S (before ++ rest)) : Staged S before :=
  ⟨fun edit hin => h.priced edit (List.mem_append_left rest hin),
    (List.pairwise_append.mp h.turns).1⟩

theorem Staged.priced_gather (h : Staged S edits) {levels : List Level}
    (hview : ∀ level ∈ levels, level.price ∈ S) (side : Side) :
    (gather side edits).Priced S levels := by
  have hlevels : ∀ stage, ∀ level ∈ Edit.levels stage side edits, level.price ∈ S := by
    intro stage level hin
    obtain ⟨edit, hedit, rfl⟩ := List.mem_map.mp hin
    exact h.priced edit (List.mem_of_mem_filter hedit)
  exact ⟨hview, hlevels .removal, hlevels .addition, hlevels .update⟩

theorem Staged.awaits (h : Staged S (before ++ edit :: rest)) (side : Side) :
    (gather side before).Awaits edit.stage := by
  have hlater : ∀ old ∈ before, old.stage.turn ≤ edit.stage.turn := fun old hin =>
    (List.pairwise_append.mp h.turns).2.2 old hin edit List.mem_cons_self
  have hnone : ∀ stage : Stage, edit.stage.turn < stage.turn → levels stage side before = [] := by
    intro stage hlt
    refine List.map_eq_nil_iff.mpr (List.filter_eq_nil_iff.mpr fun old hin => ?_)
    have hle := hlater old hin
    simp only [decide_eq_true_eq, not_and]
    rintro rfl
    omega
  cases hs : edit.stage with
  | removal =>
    exact ⟨hnone .addition (by simp [hs, Stage.turn]), hnone .update (by simp [hs, Stage.turn])⟩
  | addition => exact hnone .update (by simp [hs, Stage.turn])
  | update => trivial

/-- The edits of each side fit the view of that side. -/
def Fit (view : Side → List Level) (edits : List Edit) : Prop :=
  ∀ side, (gather side edits).Fits side (view side)

/-- Each side of the view, as the edits revise it. -/
def revised (view : Side → List Level) (edits : List Edit) (side : Side) : List Level :=
  (gather side edits).revised side (view side)

section

variable (scale : ∀ side, Scale side S) (hview : ∀ side, ∀ level ∈ view side, level.price ∈ S)

include scale hview

theorem fit_concat (h : Staged S (before ++ edit :: rest)) : Fit view (before ++ [edit]) ↔
    Fit view before ∧ edit.stage.admits
      (holds edit.side (revised view before edit.side) edit.level.price) = true := by
  have hl : edit.level.price ∈ S := h.priced edit (by simp)
  have hpush := Revision.fits_push (scale edit.side)
    (h.left.priced_gather (hview edit.side) edit.side) hl (h.awaits edit.side)
  constructor
  · intro hfit
    have hown := hfit edit.side
    rw [gather_concat, if_pos rfl] at hown
    refine ⟨fun side => ?_, (hpush.mp hown).2⟩
    by_cases heq : edit.side = side
    · subst heq
      exact (hpush.mp hown).1
    · have hother := hfit side
      rwa [gather_concat, if_neg heq] at hother
  · rintro ⟨hfit, hadmits⟩ side
    rw [gather_concat]
    split_ifs with heq
    · subst heq
      exact hpush.mpr ⟨hfit edit.side, hadmits⟩
    · exact hfit side

theorem fit_of_append (h : Staged S (before ++ rest)) (hfit : Fit view (before ++ rest)) :
    Fit view before := by
  induction rest generalizing before with
  | nil => simpa using hfit
  | cons edit rest ih =>
    have hnext : Fit view (before ++ [edit]) :=
      ih (by simpa using h) (by simpa using hfit)
    exact ((fit_concat scale hview h).mp hnext).1

end

end Edit

namespace Replica

variable {replica : Replica} {edit : Edit} {before rest : List Edit} {view : Side → List Level}
  {scale : ∀ side, Scale side S}

def Reflects (scale : ∀ side, Scale side S) (view : Side → List Level) (edits : List Edit)
    (replica : Replica) : Prop :=
  ∀ side, (replica.ladder side).Shows (scale side) (Edit.revised view edits side)

/-- An edit moves the ladder of its side alone. -/
theorem Reflects.moved (h : replica.Reflects scale view before) {next : Replica}
    {edits : List Edit} (f : Revision → Revision)
    (hgather : ∀ side, Edit.gather side edits =
      if edit.side = side then f (Edit.gather side before) else Edit.gather side before)
    (hown : (next.ladder edit.side).Shows (scale edit.side)
      ((f (Edit.gather edit.side before)).revised edit.side (view edit.side)))
    (hothers : ∀ other, other ≠ edit.side → next.ladder other = replica.ladder other) :
    next.Reflects scale view edits := by
  intro side
  rw [Edit.revised, hgather]
  split_ifs with heq
  · subst heq
    exact hown
  · rw [hothers side (Ne.symm heq)]
    exact h side

section

variable (hview : ∀ side, ∀ level ∈ view side, level.price ∈ S)

include hview

/-- One edit of a run. -/
theorem Reflects.step (h : replica.Reflects scale view before)
    (hs : Edit.Staged S (before ++ edit :: rest)) (hfit : Edit.Fit view before) :
    ∃ next misfit, edit.step replica = (next, misfit) ∧
      (misfit = none ∧ Edit.Fit view (before ++ [edit]) ∧
          next.Reflects scale view (before ++ [edit]) ∨
        misfit = some edit.misfit ∧ ¬ Edit.Fit view (before ++ [edit]) ∧
          next.Reflects scale view (before ++ edit.residue)) := by
  have hl : edit.level.price ∈ S := hs.priced edit (by simp)
  have hconcat := Edit.fit_concat scale hview hs
  obtain ⟨hadmitted, hrefused⟩ := (h edit.side).change
    (hs.left.priced_gather (hview edit.side) edit.side) hl (hs.awaits edit.side)
  cases ha : edit.stage.admits
      (holds edit.side (Edit.revised view before edit.side) edit.level.price) with
  | true =>
    obtain ⟨ladder, hchange, hshows⟩ := hadmitted ha
    obtain ⟨next, hnext, rfl, hothers⟩ := onSide_eq (f := (edit.stage.change · [edit.level])) hchange
    exact ⟨next, none, hnext, .inl ⟨rfl, hconcat.mpr ⟨hfit, ha⟩,
      h.moved (·.push edit.level edit.stage) (Edit.gather_concat · before edit) hshows hothers⟩⟩
  | false =>
    have hmisfit : ¬ Edit.Fit view (before ++ [edit]) := fun hf => by
      rw [(hconcat.mp hf).2] at ha
      cases ha
    obtain ⟨ladder, hchange, hshows⟩ := hrefused ha
    obtain ⟨next, hnext, rfl, hothers⟩ := onSide_eq (f := (edit.stage.change · [edit.level])) hchange
    exact ⟨next, some edit.misfit, hnext, .inr ⟨rfl, hmisfit,
      h.moved (·.spoil edit.level edit.stage) (Edit.gather_residue · before edit) hshows hothers⟩⟩

/-- A run takes every edit, or those before the first that does not fit. -/
theorem Reflects.run (h : replica.Reflects scale view before)
    (hs : Edit.Staged S (before ++ rest)) (hfit : Edit.Fit view before) :
    ∃ next misfit, replica.run (rest.map Edit.step) = (next, misfit) ∧
      (misfit = none ∧ Edit.Fit view (before ++ rest) ∧
          next.Reflects scale view (before ++ rest) ∨
        ∃ past edit after, rest = past ++ edit :: after ∧ misfit = some edit.misfit ∧
          Edit.Fit view (before ++ past) ∧ ¬ Edit.Fit view (before ++ past ++ [edit]) ∧
          next.Reflects scale view (before ++ past ++ edit.residue)) := by
  induction rest generalizing replica before with
  | nil => exact ⟨replica, none, rfl, .inl ⟨rfl, by simpa using hfit, by simpa using h⟩⟩
  | cons edit rest ih =>
    obtain ⟨next, misfit, hstep, ⟨rfl, hfits, hreflects⟩ | ⟨rfl, hmisfit, hreflects⟩⟩ :=
      h.step hview hs hfit
    · obtain ⟨last, misfit, hrun, hcase⟩ := ih hreflects (by simpa using hs) hfits
      refine ⟨last, misfit, by simpa [Replica.run, hstep] using hrun, ?_⟩
      rcases hcase with ⟨rfl, hall, hlast⟩ | ⟨past, bad, after, rfl, rfl, hpast, hbad, hlast⟩
      · exact .inl ⟨rfl, by simpa using hall, by simpa using hlast⟩
      · refine .inr ⟨edit :: past, bad, after, rfl, rfl, ?_, ?_, ?_⟩
        · simpa using hpast
        · simpa using hbad
        · simpa using hlast
    · exact ⟨next, _, by simp [Replica.run, hstep],
        .inr ⟨[], edit, rest, rfl, rfl, by simpa using hfit, by simpa using hmisfit,
          by simpa using hreflects⟩⟩

end

end Replica

/-- What every view keeps: its rungs in order, each with a level at the price of the rung. -/
structure Ladder.Proper (S : Set Price) (ladder : Ladder side Level) : Prop where
  known : ∀ rung ∈ ladder.rungs, rung.1 ∈ S ∧ rung.2.price ∈ S
  own : ∀ rung ∈ ladder.rungs, side.same rung.2.price rung.1 = true
  ordered : ladder.rungs.Pairwise fun a b => side.rank a.1 b.1 = .lt

namespace Ladder

variable {ladder : Ladder side Level}

theorem proper_iff_filed (scale : Scale side S) :
    ladder.Proper S ↔ ladder.Filed scale Level.price := by
  constructor
  · intro h
    refine ⟨⟨fun key hin => ?_, ?_⟩, fun rung hin => ?_⟩
    · obtain ⟨rung, hrung, rfl⟩ := List.mem_map.mp hin
      exact (h.known rung hrung).1
    · rw [prices, List.pairwise_map]
      refine h.ordered.imp_of_mem fun ha hb hlt => ?_
      exact (scale.rank_lt (h.known _ ha).1 (h.known _ hb).1).mp hlt
    · obtain ⟨hkey, hown⟩ := h.known rung hin
      exact ⟨hown, (scale.same_iff hown hkey).mp (h.own rung hin)⟩
  · intro h
    refine ⟨fun rung hin => ⟨h.rungs_known rung hin, (h.own rung hin).1⟩, fun rung hin => ?_, ?_⟩
    · exact (scale.same_iff (h.own rung hin).1 (h.rungs_known rung hin)).mpr (h.own rung hin).2
    · refine h.rungs_strict.imp_of_mem fun ha hb hlt => ?_
      exact (scale.rank_lt (h.rungs_known _ ha) (h.rungs_known _ hb)).mpr hlt

end Ladder

namespace Replica

variable {replica : Replica} {changes : ChangeSet}

def Proper (S : Set Price) (replica : Replica) : Prop := ∀ side, (replica.ladder side).Proper S

def view (replica : Replica) (side : Side) : List Level := (replica.ladder side).values

section

variable (scale : ∀ side, Scale side S) (h : replica.Proper S)

include scale h

theorem Proper.view_known : ∀ side, ∀ level ∈ replica.view side, level.price ∈ S :=
  fun side _ hin => ((Ladder.proper_iff_filed (scale side)).mp (h side)).known_of_mem hin

theorem Proper.reflects : replica.Reflects scale replica.view [] := by
  intro side
  have hnil : Edit.revised replica.view [] side = replica.view side := Revision.revised_nil side _
  exact ⟨(Ladder.proper_iff_filed (scale side)).mp (h side), fun level => by rw [hnil, view]⟩

/-- The run that an apply comes to. -/
theorem Proper.apply_cases (hc : ∀ edit ∈ changes.edits, edit.level.price ∈ S) :
    ∃ next misfit, replica.apply changes = (next, misfit) ∧
      (misfit = none ∧ Edit.Fit replica.view changes.edits ∧
          next.Reflects scale replica.view changes.edits ∨
        ∃ before edit after, changes.edits = before ++ edit :: after ∧
          misfit = some edit.misfit ∧ Edit.Fit replica.view before ∧
          ¬ Edit.Fit replica.view (before ++ [edit]) ∧
          next.Reflects scale replica.view (before ++ edit.residue)) := by
  have hnil : Edit.Fit replica.view [] := fun side => Revision.fits_nil side _
  rw [apply_eq_run]
  exact (h.reflects scale).run (h.view_known scale) (Edit.staged_edits hc) hnil

end

theorem Reflects.proper {scale : ∀ side, Scale side S} {view : Side → List Level}
    {edits : List Edit} (h : replica.Reflects scale view edits) : replica.Proper S :=
  fun side => (Ladder.proper_iff_filed (scale side)).mpr (h side).filed

theorem Reflects.ranked {scale : ∀ side, Scale side S} {view : Side → List Level}
    {edits : List Edit} (h : replica.Reflects scale view edits) (side : Side) :
    Ranked side (replica.view side) :=
  (h side).filed.bestFirst.ranked fun _ hin => (h side).filed.known_of_mem hin

/-- The views that a replica comes to hold, with every price it ever hears of in `S`. -/
inductive Reached (S : Set Price) : Replica → Prop
  | empty : Reached S .empty
  | ofLevels {levels : Levels} (h : ∀ side, ∀ level ∈ levels.on side, level.price ∈ S) :
    Reached S (.ofLevels levels)
  | apply {replica : Replica} {changes : ChangeSet} (h : Reached S replica)
    (hc : ∀ edit ∈ changes.edits, edit.level.price ∈ S) : Reached S (replica.apply changes).1

theorem proper_ofLevels (hS : Unchained S) {levels : Levels}
    (h : ∀ side, ∀ level ∈ levels.on side, level.price ∈ S) : (ofLevels levels).Proper S := by
  intro side
  obtain ⟨scale⟩ := hS.scale side
  rw [Ladder.proper_iff_filed scale]
  cases side with
  | ask => exact Ladder.filed_ofLevels (h .ask)
  | bid => exact Ladder.filed_ofLevels (h .bid)

theorem Reached.proper (hS : Unchained S) (h : Reached S replica) : replica.Proper S := by
  induction h with
  | empty => exact fun side => by cases side <;> exact ⟨nofun, nofun, .nil⟩
  | ofLevels hlevels => exact proper_ofLevels hS hlevels
  | apply h hc ih =>
    obtain ⟨next, misfit, happly, hcase⟩ := ih.apply_cases (fun side => (hS.scale side).some) hc
    rw [happly]
    rcases hcase with ⟨-, -, hnext⟩ | ⟨before, edit, after, -, -, -, -, hnext⟩
    · exact hnext.proper
    · exact hnext.proper

/-- A replica takes just the change-sets that fit its view, and then holds the view as they revise
it. Any other change-set stops at its first misfit, with the view as the edits before it revise it,
but for a duplicate, which has replaced the level at its price. -/
theorem apply_accepts (hS : Unchained S) (h : replica.Proper S)
    (hc : ∀ edit ∈ changes.edits, edit.level.price ∈ S) :
    ∃ next misfit, replica.apply changes = (next, misfit) ∧ next.Proper S ∧
      (∀ side, Ranked side (next.view side)) ∧
      (misfit = none ↔ ∀ side, (changes.on side).Fits side (replica.view side)) ∧
      (misfit = none → ∀ side level, level ∈ next.view side ↔
        level ∈ (changes.on side).revised side (replica.view side)) ∧
      ∀ m, misfit = some m → ∃ before edit after, changes.edits = before ++ edit :: after ∧
        m = edit.misfit ∧ Edit.Fit replica.view before ∧
        ¬ Edit.Fit replica.view (before ++ [edit]) ∧
        ∀ side level, level ∈ next.view side ↔
          level ∈ Edit.revised replica.view (before ++ edit.residue) side := by
  have scale : ∀ side, Scale side S := fun side => (hS.scale side).some
  have hall : Edit.Fit replica.view changes.edits ↔
      ∀ side, (changes.on side).Fits side (replica.view side) :=
    forall_congr' fun side => by rw [Edit.gather_edits]
  obtain ⟨next, misfit, happly, hcase⟩ := h.apply_cases scale hc
  refine ⟨next, misfit, happly, ?_⟩
  rcases hcase with ⟨rfl, hfit, hnext⟩ | ⟨before, edit, after, hsplit, rfl, hfit, hbad, hnext⟩
  · refine ⟨hnext.proper, hnext.ranked, iff_of_true rfl (hall.mp hfit), fun _ side level => ?_,
      nofun⟩
    rw [← Edit.gather_edits]
    exact (hnext side).mem level
  · have hrefused : ¬ ∀ side, (changes.on side).Fits side (replica.view side) := by
      rw [← hall]
      intro hfits
      have hstaged := Edit.staged_edits hc
      rw [hsplit, List.append_cons] at hfits hstaged
      exact hbad (Edit.fit_of_append scale (h.view_known scale) hstaged hfits)
    refine ⟨hnext.proper, hnext.ranked, iff_of_false nofun hrefused, nofun, ?_⟩
    rintro m ⟨⟩
    exact ⟨before, edit, after, hsplit, rfl, hfit, hbad, fun side level => (hnext side).mem level⟩

def stand (price : Price) : Level := ⟨price, price.value, 0⟩

/-- The only level goes and comes back, and the second level comes twice. -/
def twice : ChangeSet where
  removals := ⟨[stand .one], []⟩
  additions := ⟨[stand .one, stand .two, stand .two], []⟩

theorem apply_accepts_twice :
    Unchained {price | price ∈ [Price.one, .two]} ∧
    (ofLevels ⟨[stand .one], []⟩).Proper {price | price ∈ [Price.one, .two]} ∧
    (∀ edit ∈ twice.edits, edit.level.price ∈ {price | price ∈ [Price.one, .two]}) ∧
    ∃ next, (ofLevels ⟨[stand .one], []⟩).apply twice = (next, some (.duplicate .ask .two)) ∧
      ¬ ∀ side, (twice.on side).Fits side ((ofLevels ⟨[stand .one], []⟩).view side) := by
  have hview : (ofLevels ⟨[stand .one], []⟩).Proper {price | price ∈ [Price.one, .two]} :=
    proper_ofLevels unchained_one_two fun side => by
      cases side <;> simp [Levels.on, stand]
  have hpriced : ∀ edit ∈ twice.edits, edit.level.price ∈ {price | price ∈ [Price.one, .two]} := by
    simp [twice, ChangeSet.edits, ChangeSet.turns, Stage.levels, Levels.on, stand]
  obtain ⟨next, misfit, happly, -, -, hfits, -, -⟩ :=
    apply_accepts unchained_one_two hview hpriced
  have hmisfit : ((ofLevels ⟨[stand .one], []⟩).apply twice).2 = some (.duplicate .ask .two) := rfl
  obtain rfl : misfit = some (.duplicate .ask .two) := by rw [← hmisfit, happly]
  exact ⟨unchained_one_two, hview, hpriced, next, happly, fun h => nomatch hfits.mpr h⟩

end Replica

end MarketDepth
