import Mathlib.Data.List.Pairwise
import MarketDepth.Window
import MarketDepth.Proofs.LadderOrder

/-! What a batch of deltas makes of the levels of a side, whatever the depth of the window over them.
Deltas stand at different prices, so each decides alone what is found at its own. -/

namespace MarketDepth

variable {side : Side} {S : Set Price} {scale : Scale side S}

/-- Deltas at different places, as netting gives them. -/
structure Netted (scale : Scale side S) (deltas : List Delta) : Prop where
  known : ∀ delta ∈ deltas, delta.price ∈ S
  distinct : deltas.Pairwise fun a b => scale.place a.price ≠ scale.place b.price

theorem Netted.eq_of_place {deltas : List Delta} (h : Netted scale deltas) {a b : Delta}
    (ha : a ∈ deltas) (hb : b ∈ deltas) (hab : scale.place a.price = scale.place b.price) :
    a = b := by
  have hsymm : Std.Symm fun a b : Delta => scale.place a.price ≠ scale.place b.price :=
    ⟨fun _ _ h => h.symm⟩
  by_contra hne
  exact h.distinct.forall ha hb hne hab

namespace Ladder

def eraseAll (ladder : Ladder side Level) (levels : List Level) : Ladder side Level :=
  levels.foldl (fun ladder level => ladder.erase level.price) ladder

def insertAll (ladder : Ladder side Level) (levels : List Level) : Ladder side Level :=
  levels.foldl (fun ladder level => ladder.insert level.price level) ladder

variable {ladder : Ladder side Level} {levels : List Level} {price : Price}

theorem Ordered.get?_congr {α : Type} {ladder : Ladder side α} (h : ladder.Ordered scale)
    {a b : Price} (ha : a ∈ S) (hb : b ∈ S) (hab : scale.place a = scale.place b) :
    ladder.get? a = ladder.get? b := by
  ext x
  rw [h.get?_eq_some ha, h.get?_eq_some hb, hab]

theorem Filed.eraseAll (h : ladder.Filed scale Level.price) (levels : List Level) :
    (ladder.eraseAll levels).Filed scale Level.price := by
  induction levels generalizing ladder with
  | nil => exact h
  | cons l rest ih => exact ih (h.erase l.price)

theorem Filed.insertAll (h : ladder.Filed scale Level.price) (hS : ∀ l ∈ levels, l.price ∈ S) :
    (ladder.insertAll levels).Filed scale Level.price := by
  induction levels generalizing ladder with
  | nil => exact h
  | cons l rest ih =>
    obtain ⟨hl, hrest⟩ := List.forall_mem_cons.mp hS
    exact ih (h.insert hl) hrest

theorem filed_ofLevels (hS : ∀ l ∈ levels, l.price ∈ S) :
    (Ladder.ofLevels side levels).Filed scale Level.price :=
  Filed.empty.insertAll hS

theorem Filed.get?_insert (h : ladder.Filed scale Level.price) {l : Level} (hl : l.price ∈ S)
    (hp : price ∈ S) : (ladder.insert l.price l).get? price =
      if scale.place price = scale.place l.price then some l else ladder.get? price :=
  h.get?_upsert hl hp fun _ => l

theorem Filed.get?_eraseAll (h : ladder.Filed scale Level.price) (hS : ∀ l ∈ levels, l.price ∈ S)
    (hp : price ∈ S) : (ladder.eraseAll levels).get? price =
      if ∃ l ∈ levels, scale.place l.price = scale.place price then none
      else ladder.get? price := by
  induction levels generalizing ladder with
  | nil => simp [Ladder.eraseAll]
  | cons l rest ih =>
    obtain ⟨hl, hrest⟩ := List.forall_mem_cons.mp hS
    have hh := ih (h.erase l.price) hrest
    rw [h.get?_erase hl hp] at hh
    refine hh.trans ?_
    by_cases hr : ∃ m ∈ rest, scale.place m.price = scale.place price
    · obtain ⟨m, hm, heq⟩ := hr
      rw [if_pos ⟨m, hm, heq⟩, if_pos ⟨m, List.mem_cons_of_mem l hm, heq⟩]
    · rw [if_neg hr]
      by_cases hlp : scale.place price = scale.place l.price
      · rw [if_pos hlp, if_pos ⟨l, List.mem_cons_self, hlp.symm⟩]
      · rw [if_neg hlp, if_neg]
        rintro ⟨m, hm, heq⟩
        rcases List.mem_cons.mp hm with rfl | hm
        · exact hlp heq.symm
        · exact hr ⟨m, hm, heq⟩

theorem Filed.get?_insertAll_of_forall (h : ladder.Filed scale Level.price)
    (hS : ∀ l ∈ levels, l.price ∈ S) (hp : price ∈ S)
    (hfar : ∀ l ∈ levels, scale.place l.price ≠ scale.place price) :
    (ladder.insertAll levels).get? price = ladder.get? price := by
  induction levels generalizing ladder with
  | nil => rfl
  | cons l rest ih =>
    obtain ⟨hl, hrest⟩ := List.forall_mem_cons.mp hS
    obtain ⟨hne, hfar⟩ := List.forall_mem_cons.mp hfar
    have hh := ih (h.insert hl) hrest hfar
    rw [h.get?_insert hl hp, if_neg hne.symm] at hh
    exact hh

theorem Filed.get?_insertAll_of_mem (h : ladder.Filed scale Level.price)
    (hS : ∀ l ∈ levels, l.price ∈ S) (hp : price ∈ S)
    (hd : levels.Pairwise fun a b => scale.place a.price ≠ scale.place b.price) {l : Level}
    (hl : l ∈ levels) (hlp : scale.place l.price = scale.place price) :
    (ladder.insertAll levels).get? price = some l := by
  induction levels generalizing ladder with
  | nil => cases hl
  | cons first rest ih =>
    obtain ⟨hfirst, hrest⟩ := List.forall_mem_cons.mp hS
    obtain ⟨hne, hd⟩ := List.pairwise_cons.mp hd
    rcases List.mem_cons.mp hl with rfl | hin
    · have hh := (h.insert hfirst).get?_insertAll_of_forall hrest hp
        fun m hm heq => hne m hm (hlp.trans heq.symm)
      rw [h.get?_insert hfirst hp, if_pos hlp.symm] at hh
      exact hh
    · exact ih (h.insert hfirst) hrest hd hin

theorem Filed.mem_rungs_eraseAll (h : ladder.Filed scale Level.price)
    (hS : ∀ l ∈ levels, l.price ∈ S) {rung : Price × Level}
    (hfar : ∀ l ∈ levels, scale.place l.price ≠ scale.place rung.1) :
    rung ∈ (ladder.eraseAll levels).rungs ↔ rung ∈ ladder.rungs := by
  induction levels generalizing ladder with
  | nil => rfl
  | cons l rest ih =>
    obtain ⟨hl, hrest⟩ := List.forall_mem_cons.mp hS
    obtain ⟨hne, hfar⟩ := List.forall_mem_cons.mp hfar
    exact (ih (h.erase l.price) hrest hfar).trans (h.mem_rungs_erase hl hne.symm)

theorem Filed.mem_rungs_insertAll (h : ladder.Filed scale Level.price)
    (hS : ∀ l ∈ levels, l.price ∈ S) {rung : Price × Level}
    (hfar : ∀ l ∈ levels, scale.place l.price ≠ scale.place rung.1) :
    rung ∈ (ladder.insertAll levels).rungs ↔ rung ∈ ladder.rungs := by
  induction levels generalizing ladder with
  | nil => rfl
  | cons l rest ih =>
    obtain ⟨hl, hrest⟩ := List.forall_mem_cons.mp hS
    obtain ⟨hne, hfar⟩ := List.forall_mem_cons.mp hfar
    exact (ih (h.insert hl) hrest hfar).trans (h.mem_rungs_upsert hl _ hne.symm)

end Ladder

namespace Move

def level : Move → Level
  | .remove level | .add level | .update level => level

def left? : Move → Option Level
  | .remove _ => none
  | .add level | .update level => some level

end Move

namespace Window

/-- What a delta comes to on a ladder of levels. The depth of the window over it does not matter. -/
def judge (ladder : Ladder side Level) (delta : Delta) : Option Move :=
  classify { depth := 0, levels := ladder } delta

def picked (kind : Move → Option Level) (ladder : Ladder side Level) (deltas : List Delta) :
    List Level :=
  (deltas.filterMap (judge ladder)).filterMap kind

def settle (ladder : Ladder side Level) (deltas : List Delta) : Ladder side Level :=
  ((ladder.eraseAll (picked Move.removed? ladder deltas)).insertAll
    (picked Move.added? ladder deltas)).insertAll (picked Move.updated? ladder deltas)

variable {ladder : Ladder side Level} {deltas : List Delta} {delta : Delta} {price : Price}
  {kind : Move → Option Level} {l : Level}

def Kind (kind : Move → Option Level) : Prop :=
  ∀ m l, kind m = some l → m.level = l

theorem kind_removed : Kind Move.removed? := by
  intro m l h
  cases m <;> simp_all [Move.removed?, Move.level]

theorem kind_added : Kind Move.added? := by
  intro m l h
  cases m <;> simp_all [Move.added?, Move.level]

theorem kind_updated : Kind Move.updated? := by
  intro m l h
  cases m <;> simp_all [Move.updated?, Move.level]

theorem judge_of_unknown (h : ladder.get? delta.price = none) : judge ladder delta =
    if 0 < delta.size then some (.add ⟨delta.price, delta.size, delta.time⟩) else none := by
  simp only [judge, classify, get?, h]

theorem judge_of_known {old : Level} (h : ladder.get? delta.price = some old) :
    judge ladder delta =
      if (negligible (old.size + delta.size) || old.size + delta.size < 0) = true then
        some (.remove old)
      else some (.update ⟨delta.price, old.size + delta.size, delta.time⟩) := by
  simp only [judge, classify, get?, h]

theorem judge_eq_none (h : judge ladder delta = none) : ladder.get? delta.price = none := by
  cases hg : ladder.get? delta.price with
  | none => rfl
  | some old =>
    rw [judge_of_known hg] at h
    split_ifs at h

theorem judge_remove (h : judge ladder delta = some (.remove l)) :
    ladder.get? delta.price = some l := by
  cases hg : ladder.get? delta.price with
  | none =>
    rw [judge_of_unknown hg] at h
    split_ifs at h
    cases h
  | some old =>
    rw [judge_of_known hg] at h
    split_ifs at h <;> cases h
    rfl

theorem judge_add (h : judge ladder delta = some (.add l)) :
    ladder.get? delta.price = none ∧ l.price = delta.price := by
  cases hg : ladder.get? delta.price with
  | none =>
    rw [judge_of_unknown hg] at h
    split_ifs at h
    cases h
    exact ⟨rfl, rfl⟩
  | some old =>
    rw [judge_of_known hg] at h
    split_ifs at h <;> cases h

theorem judge_update (h : judge ladder delta = some (.update l)) :
    (∃ old, ladder.get? delta.price = some old) ∧ l.price = delta.price := by
  cases hg : ladder.get? delta.price with
  | none =>
    rw [judge_of_unknown hg] at h
    split_ifs at h
    cases h
  | some old =>
    rw [judge_of_known hg] at h
    split_ifs at h <;> cases h
    exact ⟨⟨old, rfl⟩, rfl⟩

theorem place_of_judge (hL : ladder.Filed scale Level.price) (hp : delta.price ∈ S) {m : Move}
    (h : judge ladder delta = some m) :
    m.level.price ∈ S ∧ scale.place m.level.price = scale.place delta.price := by
  cases m with
  | remove l =>
    obtain ⟨hin, hplace⟩ := (hL.get?_eq_some hp).mp (judge_remove h)
    exact ⟨hL.known_of_mem hin, hplace⟩
  | add l =>
    have hprice : (Move.add l).level.price = delta.price := (judge_add h).2
    rw [hprice]
    exact ⟨hp, rfl⟩
  | update l =>
    have hprice : (Move.update l).level.price = delta.price := (judge_update h).2
    rw [hprice]
    exact ⟨hp, rfl⟩

theorem mem_picked : l ∈ picked kind ladder deltas ↔
    ∃ delta ∈ deltas, ∃ m, judge ladder delta = some m ∧ kind m = some l := by
  simp only [picked, List.mem_filterMap]
  tauto

section

variable (hL : ladder.Filed scale Level.price) (hd : Netted scale deltas) (hk : Kind kind)

include hL hd hk

theorem place_of_picked (h : l ∈ picked kind ladder deltas) :
    l.price ∈ S ∧ ∃ delta ∈ deltas, scale.place l.price = scale.place delta.price := by
  obtain ⟨delta, hin, m, hj, hm⟩ := mem_picked.mp h
  obtain rfl := hk m l hm
  obtain ⟨hs, hplace⟩ := place_of_judge hL (hd.known delta hin) hj
  exact ⟨hs, delta, hin, hplace⟩

theorem known_of_picked : ∀ l ∈ picked kind ladder deltas, l.price ∈ S :=
  fun _ h => (place_of_picked hL hd hk h).1

theorem judge_of_picked (h : l ∈ picked kind ladder deltas) (hin : delta ∈ deltas)
    (hplace : scale.place l.price = scale.place delta.price) :
    ∃ m, judge ladder delta = some m ∧ kind m = some l := by
  obtain ⟨other, hother, m, hj, hm⟩ := mem_picked.mp h
  obtain rfl := hk m l hm
  have hown := (place_of_judge hL (hd.known other hother) hj).2
  obtain rfl := hd.eq_of_place hother hin (hown.symm.trans hplace)
  exact ⟨m, hj, hm⟩

theorem picked_distinct : (picked kind ladder deltas).Pairwise fun a b =>
    scale.place a.price ≠ scale.place b.price := by
  rw [picked, List.pairwise_filterMap, List.pairwise_filterMap]
  refine hd.distinct.imp_of_mem fun {a b} ha hb hne m hm n hn l hl k hk' => ?_
  obtain rfl := hk m l hl
  obtain rfl := hk n k hk'
  rwa [(place_of_judge hL (hd.known a ha) hm).2, (place_of_judge hL (hd.known b hb) hn).2]

end

section

variable (hL : ladder.Filed scale Level.price) (hd : Netted scale deltas)

include hL hd

theorem filed_settle : (settle ladder deltas).Filed scale Level.price :=
  ((hL.eraseAll _).insertAll (known_of_picked hL hd kind_added)).insertAll
    (known_of_picked hL hd kind_updated)

theorem mem_rungs_settle {rung : Price × Level}
    (hfar : ∀ delta ∈ deltas, scale.place delta.price ≠ scale.place rung.1) :
    rung ∈ (settle ladder deltas).rungs ↔ rung ∈ ladder.rungs := by
  have hpick : ∀ {kind}, Kind kind → ∀ l ∈ picked kind ladder deltas,
      scale.place l.price ≠ scale.place rung.1 := by
    intro kind hk l h heq
    obtain ⟨-, delta, hin, hplace⟩ := place_of_picked hL hd hk h
    exact hfar delta hin (hplace.symm.trans heq)
  have hknown : ∀ {kind}, Kind kind → ∀ l ∈ picked kind ladder deltas, l.price ∈ S :=
    known_of_picked hL hd
  have hfe := hL.eraseAll (picked Move.removed? ladder deltas)
  have hfi := hfe.insertAll (hknown kind_added)
  rw [settle, hfi.mem_rungs_insertAll (hknown kind_updated) (hpick kind_updated),
    hfe.mem_rungs_insertAll (hknown kind_added) (hpick kind_added),
    hL.mem_rungs_eraseAll (hknown kind_removed) (hpick kind_removed)]

theorem get?_settle_of_forall (hp : price ∈ S)
    (hfar : ∀ delta ∈ deltas, scale.place delta.price ≠ scale.place price) :
    (settle ladder deltas).get? price = ladder.get? price := by
  ext l
  rw [(filed_settle hL hd).toOrdered.get?_eq_some hp, hL.toOrdered.get?_eq_some hp]
  refine exists_congr fun key => and_congr_left fun hkey => mem_rungs_settle hL hd ?_
  intro delta hin
  rw [hkey]
  exact hfar delta hin

theorem get?_settle_of_mem (hin : delta ∈ deltas) :
    (settle ladder deltas).get? delta.price = (judge ladder delta).bind Move.left? := by
  have hp := hd.known delta hin
  have hpick : ∀ {kind}, Kind kind → (∀ m, judge ladder delta = some m → kind m = none) →
      ∀ l ∈ picked kind ladder deltas, scale.place l.price ≠ scale.place delta.price := by
    intro kind hk hnone l h heq
    obtain ⟨m, hj, hm⟩ := judge_of_picked hL hd hk h hin heq
    rw [hnone m hj] at hm
    cases hm
  have hknown : ∀ {kind}, Kind kind → ∀ l ∈ picked kind ladder deltas, l.price ∈ S :=
    known_of_picked hL hd
  have hfe := hL.eraseAll (picked Move.removed? ladder deltas)
  have hfi := hfe.insertAll (hknown kind_added)
  have hupdated := hfi.get?_insertAll_of_forall (hknown kind_updated) hp
  have hadded := hfe.get?_insertAll_of_forall (hknown kind_added) hp
  have hremoved := hL.get?_eraseAll (hknown kind_removed) hp
  cases hj : judge ladder delta with
  | none =>
    rw [settle, hupdated (hpick kind_updated (by simp [hj])),
      hadded (hpick kind_added (by simp [hj])), hremoved]
    simp [judge_eq_none hj]
  | some m =>
    cases m with
    | remove l =>
      have hl : l ∈ picked Move.removed? ladder deltas := mem_picked.mpr ⟨delta, hin, _, hj, rfl⟩
      have hplace := (place_of_judge hL hp hj).2
      rw [settle, hupdated (hpick kind_updated (by simp [hj, Move.updated?])),
        hadded (hpick kind_added (by simp [hj, Move.added?])), hremoved, if_pos ⟨l, hl, hplace⟩]
      rfl
    | add l =>
      have hl : l ∈ picked Move.added? ladder deltas := mem_picked.mpr ⟨delta, hin, _, hj, rfl⟩
      have hplace := (place_of_judge hL hp hj).2
      rw [settle, hupdated (hpick kind_updated (by simp [hj, Move.updated?])),
        hfe.get?_insertAll_of_mem (hknown kind_added) hp (picked_distinct hL hd kind_added) hl
          hplace]
      rfl
    | update l =>
      have hl : l ∈ picked Move.updated? ladder deltas := mem_picked.mpr ⟨delta, hin, _, hj, rfl⟩
      have hplace := (place_of_judge hL hp hj).2
      rw [settle, hfi.get?_insertAll_of_mem (hknown kind_updated) hp
        (picked_distinct hL hd kind_updated) hl hplace]
      rfl

end

end Window

end MarketDepth
