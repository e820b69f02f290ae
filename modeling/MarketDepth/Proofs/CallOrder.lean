import Mathlib.Data.List.Induction
import MarketDepth.Proofs.BookShape

/-! Which calls keep the changes of a side to one entry a price. The three maps hold what the calls
that named a price have left there, so one call out of turn is all it takes to report it twice. -/

namespace MarketDepth

variable {side : Side} {S : Set Price} {scale : Scale side S}

/-- Which of the three maps hold a price. -/
structure Marks where
  addition : Bool := false
  update : Bool := false
  removal : Bool := false
  deriving DecidableEq

namespace Marks

def single (marks : Marks) : Bool :=
  !(marks.addition && marks.update) && !(marks.addition && marks.removal) &&
    !(marks.update && marks.removal)

/-- What a call leaves at the price it names. -/
def after (marks : Marks) : Move → Marks
  | .remove _ =>
    if marks.addition then { marks with addition := false }
    else { marks with update := false, removal := true }
  | .add _ => { marks with addition := true }
  | .update _ => if marks.addition then marks else { marks with update := true }

/-- A level may leave at any time. It may come while nothing but an addition is on record, and
change while no removal is. -/
def inTurn (marks : Marks) : Move → Bool
  | .remove _ => true
  | .add _ => !marks.update && !marks.removal
  | .update _ => !marks.removal

theorem single_after {marks : Marks} (h : marks.single = true) (call : Move) :
    (marks.after call).single = marks.inTurn call := by
  obtain ⟨addition, update, removal⟩ := marks
  cases call <;> cases addition <;> cases update <;> cases removal <;>
    first | rfl | exact absurd h (by decide)

/-- What a run of calls leaves at a price, by those of the calls that named it. -/
def ofCalls (side : Side) (calls : List Move) (price : Price) : Marks :=
  calls.foldl (fun marks call =>
    if side.same call.level.price price then marks.after call else marks) {}

theorem ofCalls_concat (side : Side) (calls : List Move) (call : Move) (price : Price) :
    ofCalls side (calls ++ [call]) price =
      if side.same call.level.price price then (ofCalls side calls price).after call
      else ofCalls side calls price := by
  simp [ofCalls]

end Marks

/-- Each call is in turn for what the calls before it have left at its price. -/
def InTurn (side : Side) (calls : List Move) : Prop :=
  ∀ past call, past ++ [call] <+: calls →
    (Marks.ofCalls side past call.level.price).inTurn call = true

theorem inTurn_nil (side : Side) : InTurn side [] := by
  intro past call hpast
  simp at hpast

theorem inTurn_concat {calls : List Move} {call : Move} :
    InTurn side (calls ++ [call]) ↔
      InTurn side calls ∧ (Marks.ofCalls side calls call.level.price).inTurn call = true := by
  constructor
  · intro h
    exact ⟨fun past other hpast => h past other (hpast.trans (List.prefix_append calls [call])),
      h calls call List.prefix_rfl⟩
  · rintro ⟨h, hlast⟩ past other hpast
    rcases List.prefix_concat_iff.mp hpast with heq | hpast
    · obtain ⟨rfl, hcall⟩ := List.append_inj' heq rfl
      obtain rfl : other = call := by simpa using hcall
      exact hlast
    · exact h past other hpast

theorem Scale.same_eq_decide (scale : Scale side S) {a b : Price} (ha : a ∈ S) (hb : b ∈ S) :
    side.same a b = decide (scale.place a = scale.place b) := by
  rw [Bool.eq_iff_iff, scale.same_iff ha hb, decide_eq_true_iff]

namespace Ladder

variable {ladder : Ladder side Level} {level : Level} {price : Price}

theorem Filed.contains_insert (h : ladder.Filed scale Level.price) (hl : level.price ∈ S)
    (hp : price ∈ S) : (ladder.insert level.price level).contains price =
      (side.same level.price price || ladder.contains price) := by
  rw [contains, h.get?_insert hl hp, scale.same_eq_decide hl hp]
  split_ifs with heq
  · simp [heq]
  · simp [Ne.symm heq, contains]

theorem Filed.contains_erase (h : ladder.Filed scale Level.price) (hl : level.price ∈ S)
    (hp : price ∈ S) : (ladder.erase level.price).contains price =
      (!side.same level.price price && ladder.contains price) := by
  rw [contains, h.get?_erase hl hp, scale.same_eq_decide hl hp]
  split_ifs with heq
  · simp [heq]
  · simp [Ne.symm heq, contains]

theorem Ordered.contains_congr (h : ladder.Ordered scale) (hl : level.price ∈ S) (hp : price ∈ S)
    (hsame : side.same level.price price = true) :
    ladder.contains level.price = ladder.contains price := by
  rw [contains, contains, h.get?_congr hl hp ((scale.same_iff hl hp).mp hsame)]

theorem Filed.pairwise_values (h : ladder.Filed scale Level.price) :
    ladder.values.Pairwise fun a b => side.same a.price b.price = false :=
  h.bestFirst.imp_of_mem fun ha hb hlt => Bool.eq_false_iff.mpr fun hsame =>
    hlt.ne ((scale.same_iff (h.known_of_mem ha) (h.known_of_mem hb)).mp hsame)

/-- Two ladders have no price in common just where no level of one stands with one of the other. -/
theorem Filed.disjoint_iff {ladder' : Ladder side Level} (h : ladder.Filed scale Level.price)
    (h' : ladder'.Filed scale Level.price) :
    (∀ a ∈ ladder.values, ∀ b ∈ ladder'.values, side.same a.price b.price = false) ↔
      ∀ price ∈ S, (ladder.contains price && ladder'.contains price) = false := by
  simp only [← Bool.not_eq_true, Bool.and_eq_true, not_and]
  constructor
  · intro hfar price hp hin hin'
    obtain ⟨a, ha, hap⟩ := (h.contains_iff hp).mp hin
    obtain ⟨b, hb, hbp⟩ := (h'.contains_iff hp).mp hin'
    exact hfar a ha b hb ((scale.same_iff (h.known_of_mem ha) (h'.known_of_mem hb)).mpr
      (hap.trans hbp.symm))
  · intro hnone a ha b hb hsame
    have hp := h.known_of_mem ha
    have hplace := (scale.same_iff hp (h'.known_of_mem hb)).mp hsame
    exact hnone a.price hp ((h.contains_iff hp).mpr ⟨a, ha, rfl⟩)
      ((h'.contains_iff hp).mpr ⟨b, hb, hplace.symm⟩)

end Ladder

namespace SideChanges

def record (changes : SideChanges side) : Move → SideChanges side
  | .remove level => changes.remove level
  | .add level => changes.add level
  | .update level => changes.update level

def recordAll (side : Side) (calls : List Move) : SideChanges side := calls.foldl record .empty

theorem recordAll_concat (side : Side) (calls : List Move) (call : Move) :
    recordAll side (calls ++ [call]) = (recordAll side calls).record call := by
  simp [recordAll]

def marks (changes : SideChanges side) (price : Price) : Marks where
  addition := changes.additions.contains price
  update := changes.updates.contains price
  removal := changes.removals.contains price

structure Filed (scale : Scale side S) (changes : SideChanges side) : Prop where
  additions : changes.additions.Filed scale Level.price
  updates : changes.updates.Filed scale Level.price
  removals : changes.removals.Filed scale Level.price

variable {changes : SideChanges side} {call : Move} {price : Price} {calls : List Move}

theorem Filed.empty : (SideChanges.empty : SideChanges side).Filed scale :=
  ⟨Ladder.Filed.empty, Ladder.Filed.empty, Ladder.Filed.empty⟩

theorem Filed.record (h : changes.Filed scale) (hl : call.level.price ∈ S) :
    (changes.record call).Filed scale := by
  obtain ⟨ha, hu, hr⟩ := h
  cases call with
  | remove level =>
    rw [SideChanges.record, remove]
    split_ifs
    · exact ⟨ha.erase level.price, hu, hr⟩
    · exact ⟨ha, hu.erase level.price, hr.insert hl⟩
  | add level => exact ⟨ha.insert hl, hu, hr⟩
  | update level =>
    rw [SideChanges.record, update]
    split_ifs
    · exact ⟨ha.insert hl, hu, hr⟩
    · exact ⟨ha, hu.insert hl, hr⟩

theorem filed_recordAll (scale : Scale side S) (hS : ∀ call ∈ calls, call.level.price ∈ S) :
    (recordAll side calls).Filed scale := by
  induction calls using List.reverseRecOn with
  | nil => exact Filed.empty
  | append_singleton calls call ih =>
    rw [recordAll_concat]
    exact (ih fun other hin => hS other (by simp [hin])).record (hS call (by simp))

/-- A call changes the marks of the price it names and of no other. -/
theorem Filed.marks_record (h : changes.Filed scale) (hl : call.level.price ∈ S) (hp : price ∈ S) :
    (changes.record call).marks price =
      if side.same call.level.price price then (changes.marks price).after call
      else changes.marks price := by
  obtain ⟨ha, hu, hr⟩ := h
  have hadded := ha.contains_congr hl hp
  cases call with
  | remove level =>
    have hl : level.price ∈ S := hl
    cases hsame : side.same level.price price with
    | false =>
      simp only [SideChanges.record, remove, Move.level, hsame, Bool.false_eq_true, if_false]
      split_ifs <;> simp [marks, hsame, ha.contains_erase hl hp, hu.contains_erase hl hp,
        hr.contains_insert hl hp]
    | true =>
      have hadded : changes.additions.contains level.price = _ := hadded hsame
      cases hc : changes.additions.contains price <;>
        simp [SideChanges.record, remove, marks, Marks.after, hadded, hc, hsame,
          ha.contains_erase hl hp, hu.contains_erase hl hp, hr.contains_insert hl hp, Move.level]
  | add level =>
    have hl : level.price ∈ S := hl
    cases hsame : side.same level.price price <;>
      simp [SideChanges.record, add, marks, Marks.after, Move.level, ha.contains_insert hl hp, hsame]
  | update level =>
    have hl : level.price ∈ S := hl
    cases hsame : side.same level.price price with
    | false =>
      simp only [SideChanges.record, update, Move.level, hsame, Bool.false_eq_true, if_false]
      split_ifs <;> simp [marks, hsame, ha.contains_insert hl hp, hu.contains_insert hl hp]
    | true =>
      have hadded : changes.additions.contains level.price = _ := hadded hsame
      cases hc : changes.additions.contains price <;>
        simp [SideChanges.record, update, marks, Marks.after, hadded, hc, hsame,
          ha.contains_insert hl hp, hu.contains_insert hl hp, Move.level]

theorem marks_recordAll (hS : ∀ call ∈ calls, call.level.price ∈ S) (scale : Scale side S)
    (hp : price ∈ S) : (recordAll side calls).marks price = Marks.ofCalls side calls price := by
  induction calls using List.reverseRecOn with
  | nil => rfl
  | append_singleton calls call ih =>
    have hpast : ∀ other ∈ calls, other.level.price ∈ S := fun other hin => hS other (by simp [hin])
    rw [recordAll_concat, Marks.ofCalls_concat,
      (filed_recordAll scale hpast).marks_record (hS call (by simp)) hp, ih hpast]

/-- All levels that are reported, of whichever kind. -/
def listed (changes : SideChanges side) : List Level :=
  changes.additions.values ++ changes.updates.values ++ changes.removals.values

theorem Filed.listed_once_iff (h : changes.Filed scale) :
    (changes.listed.Pairwise fun a b => side.same a.price b.price = false) ↔
      ∀ price ∈ S, (changes.marks price).single = true := by
  obtain ⟨ha, hu, hr⟩ := h
  have hau := ha.disjoint_iff hu
  have har := ha.disjoint_iff hr
  have hur := hu.disjoint_iff hr
  have hsingle : ∀ price, (changes.marks price).single = true ↔
      ((changes.additions.contains price && changes.updates.contains price) = false ∧
        (changes.additions.contains price && changes.removals.contains price) = false) ∧
        (changes.updates.contains price && changes.removals.contains price) = false := by
    intro price
    simp only [marks, Marks.single, Bool.and_eq_true, Bool.not_eq_true']
  simp only [listed, List.pairwise_append, ha.pairwise_values, hu.pairwise_values,
    hr.pairwise_values, true_and, List.forall_mem_append, hsingle, forall_and, hau, har, hur]
  tauto

end SideChanges

namespace Marks

variable {calls : List Move}

theorem ofCalls_congr (scale : Scale side S) (hS : ∀ call ∈ calls, call.level.price ∈ S)
    {a b : Price} (ha : a ∈ S) (hb : b ∈ S) (hab : side.same a b = true) :
    ofCalls side calls a = ofCalls side calls b := by
  have hplace := (scale.same_iff ha hb).mp hab
  refine List.foldl_ext _ _ _ fun marks call hin => ?_
  have hsame : side.same call.level.price a = side.same call.level.price b := by
    rw [scale.same_eq_decide (hS call hin) ha, scale.same_eq_decide (hS call hin) hb, hplace]
  simp only [hsame]

theorem single_ofCalls_iff (scale : Scale side S) (hS : ∀ call ∈ calls, call.level.price ∈ S) :
    InTurn side calls ↔
      ∀ past, past <+: calls → ∀ price ∈ S, (ofCalls side past price).single = true := by
  induction calls using List.reverseRecOn with
  | nil =>
    refine iff_of_true (inTurn_nil side) fun past hpast price _ => ?_
    rw [List.prefix_nil.mp hpast]
    rfl
  | append_singleton calls call ih =>
    have hold : ∀ other ∈ calls, other.level.price ∈ S := fun other hin => hS other (by simp [hin])
    have hcall := hS call (by simp)
    rw [inTurn_concat, ih hold, and_comm]
    simp only [List.prefix_concat_iff, or_imp, forall_and, forall_eq]
    refine and_congr_left fun hbefore => ?_
    have hsingle := hbefore calls List.prefix_rfl
    constructor
    · intro hturn price hp
      rw [ofCalls_concat]
      split_ifs with hsame
      · rwa [single_after (hsingle price hp), ← ofCalls_congr scale hold hcall hp hsame]
      · exact hsingle price hp
    · intro hafter
      have hown := hafter call.level.price hcall
      rwa [ofCalls_concat, if_pos ((scale.same_iff hcall hcall).mpr rfl),
        single_after (hsingle call.level.price hcall)] at hown

end Marks

/-- The change-set of a cycle in which the calls of each side were made. -/
def ChangeSet.ofCalls (calls : Side → List Move) : ChangeSet :=
  .ofSides (.recordAll .ask (calls .ask)) (.recordAll .bid (calls .bid))

def ChangeSet.listed (changes : ChangeSet) (side : Side) : List Level :=
  changes.additions.on side ++ changes.updates.on side ++ changes.removals.on side

theorem ChangeSet.listed_ofCalls (calls : Side → List Move) (side : Side) :
    (ofCalls calls).listed side = (SideChanges.recordAll side (calls side)).listed := by
  cases side <;> rfl

theorem SideChanges.inTurn_iff (scale : Scale side S) {calls : List Move}
    (hS : ∀ call ∈ calls, call.level.price ∈ S) :
    InTurn side calls ↔ ∀ past, past <+: calls → ∀ price ∈ S,
      ((recordAll side past).marks price).single = true := by
  rw [Marks.single_ofCalls_iff scale hS]
  refine forall_congr' fun past => forall_congr' fun hpast => forall₂_congr fun price hp => ?_
  rw [marks_recordAll (fun call hin => hS call (hpast.subset hin)) scale hp]

/-- A price is held in one map at most, and reported once at most, for just as long as all calls are
in turn. In turn or not, a price is held where the calls that named it have left it. -/
theorem SideChanges.single_iff_inTurn (calls : Side → List Move) (S : Side → Set Price)
    (hS : ∀ side, Unchained (S side))
    (hknown : ∀ side, ∀ call ∈ calls side, call.level.price ∈ S side) :
    (∀ side, InTurn side (calls side) ↔ ∀ past, past <+: calls side → ∀ price ∈ S side,
      ((recordAll side past).marks price).single = true) ∧
    ((∀ side, InTurn side (calls side)) ↔
      ∀ past : Side → List Move, (∀ side, past side <+: calls side) →
        ∀ side, ((ChangeSet.ofCalls past).listed side).Pairwise
          fun a b => side.same a.price b.price = false) ∧
    ∀ side past, past <+: calls side → ∀ price ∈ S side,
      (recordAll side past).marks price = Marks.ofCalls side past price := by
  have hscale := fun side => ((hS side).scale side).some
  have hpast : ∀ side past, past <+: calls side → ∀ call ∈ past, call.level.price ∈ S side :=
    fun side past hearly call hin => hknown side call (hearly.subset hin)
  have hturn := fun side => inTurn_iff (hscale side) (hknown side)
  have honce : ∀ (past : Side → List Move) side, past side <+: calls side →
      ((((ChangeSet.ofCalls past).listed side).Pairwise
        fun a b => side.same a.price b.price = false) ↔
      ∀ price ∈ S side, ((recordAll side (past side)).marks price).single = true) := by
    intro past side hearly
    rw [ChangeSet.listed_ofCalls]
    exact (filed_recordAll (hscale side) (hpast side _ hearly)).listed_once_iff
  refine ⟨hturn, ⟨fun h past hearly side => ?_, fun h side => (hturn side).mpr
    fun past hearly => ?_⟩, fun side past hearly price hp =>
      marks_recordAll (hpast side past hearly) (hscale side) hp⟩
  · exact (honce past side (hearly side)).mpr ((hturn side).mp (h side) _ (hearly side))
  · -- the other side may have made all its calls
    let pasts := Function.update calls side past
    have hself : pasts side = past := Function.update_self side past calls
    have hpasts : ∀ other, pasts other <+: calls other := by
      intro other
      by_cases hother : other = side
      · subst hother
        rwa [hself]
      · have hsame : pasts other = calls other := Function.update_of_ne hother past calls
        exact hsame ▸ List.prefix_rfl
    have hside := (honce pasts side (hpasts side)).mp (h pasts hpasts side)
    rwa [hself] at hside

/-- A level that comes, changes and leaves, and one that comes to another price. -/
theorem SideChanges.single_iff_inTurn_visit :
    let visit : List Move :=
      [.add ⟨.one, 1, 0⟩, .update ⟨.one, 2, 1⟩, .remove ⟨.one, 2, 2⟩, .add ⟨.two, 3, 2⟩]
    (∀ side, InTurn side visit) ∧
    ∀ past : Side → List Move, (∀ side, past side <+: visit) →
      ∀ side, ((ChangeSet.ofCalls past).listed side).Pairwise
        fun a b => side.same a.price b.price = false := by
  intro visit
  have hknown : ∀ call ∈ visit, call.level.price ∈ {price | price ∈ [Price.one, Price.two]} := by
    simp [visit, Move.level]
  have hmain := single_iff_inTurn (fun _ => visit) (fun _ => {price | price ∈ [Price.one, .two]})
    (fun _ => unchained_one_two) fun _ => hknown
  have hturn : ∀ side, InTurn side visit := by
    intro side
    have hcame : InTurn side ([] ++ [.add ⟨.one, 1, 0⟩]) :=
      inTurn_concat.mpr ⟨inTurn_nil side, rfl⟩
    have hchanged : InTurn side (_ ++ [.update ⟨.one, 2, 1⟩]) :=
      inTurn_concat.mpr ⟨hcame, by cases side <;> decide⟩
    have hleft : InTurn side (_ ++ [.remove ⟨.one, 2, 2⟩]) :=
      inTurn_concat.mpr ⟨hchanged, by cases side <;> decide⟩
    exact inTurn_concat.mpr ⟨hleft, by cases side <;> decide⟩
  exact ⟨hturn, hmain.2.1.mp hturn⟩

/-- A level that left comes back. Its price stands among the removals and the additions both. -/
theorem SideChanges.twice_on_return :
    let calls : Side → List Move := fun _ => [.remove ⟨.one, 1, 0⟩, .add ⟨.one, 1, 0⟩]
    (∀ side, ((recordAll side (calls side)).marks .one).single = false) ∧
    ∀ side, ¬ ((ChangeSet.ofCalls calls).listed side).Pairwise
      fun a b => side.same a.price b.price = false := by
  intro calls
  refine ⟨fun side => ?_, fun side => ?_⟩
  · cases side <;> decide
  · cases side <;> decide

end MarketDepth
