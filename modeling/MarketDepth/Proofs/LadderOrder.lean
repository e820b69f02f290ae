import Mathlib.Data.List.Sort
import MarketDepth.Ladder
import MarketDepth.Proofs.Scale

/-! Ladders in order. Every operation on a ladder looks at one price, and so cuts the ladder into the
rungs before that price, at it and beyond it. -/

namespace MarketDepth

variable {side : Side} {S : Set Price} {scale : Scale side S} {α : Type}

structure Around (scale : Scale side S) (price : Price) (before here beyond : List (Price × α)) :
    Prop where
  before : ∀ rung ∈ before, rung.1 ∈ S ∧ scale.place rung.1 < scale.place price
  here : ∀ rung ∈ here, rung.1 ∈ S ∧ scale.place rung.1 = scale.place price
  beyond : ∀ rung ∈ beyond, rung.1 ∈ S ∧ scale.place price < scale.place rung.1

namespace Around

variable {price : Price} {A M B : List (Price × α)} {ladder : Ladder side α}

theorem filter_eq (h : Around scale price A M B) (hr : ladder.rungs = A ++ M ++ B)
    {f : Price × α → Bool} {a m b : Bool}
    (ha : ∀ rung : Price × α, rung.1 ∈ S → scale.place rung.1 < scale.place price → f rung = a)
    (hm : ∀ rung : Price × α, rung.1 ∈ S → scale.place rung.1 = scale.place price → f rung = m)
    (hb : ∀ rung : Price × α, rung.1 ∈ S → scale.place price < scale.place rung.1 → f rung = b) :
    ladder.rungs.filter f =
      (if a then A else []) ++ (if m then M else []) ++ (if b then B else []) := by
  have hpart : ∀ {l : List (Price × α)} {c : Bool}, (∀ rung ∈ l, f rung = c) →
      l.filter f = if c then l else [] := by
    intro l c hl
    cases c with
    | false => simpa using hl
    | true => simpa using hl
  rw [hr, List.filter_append, List.filter_append,
    hpart fun rung hin => ha rung (h.before rung hin).1 (h.before rung hin).2,
    hpart fun rung hin => hm rung (h.here rung hin).1 (h.here rung hin).2,
    hpart fun rung hin => hb rung (h.beyond rung hin).1 (h.beyond rung hin).2]

theorem erase_eq (h : Around scale price A M B) (hp : price ∈ S)
    (hr : ladder.rungs = A ++ M ++ B) : (ladder.erase price).rungs = A ++ B := by
  have hf := h.filter_eq hr (f := fun rung => !side.same price rung.1) (a := true) (m := false)
    (b := true) (fun rung hs hlt => ?_) (fun rung hs heq => ?_) (fun rung hs hlt => ?_)
  · simpa [Ladder.erase] using hf
  all_goals
    rw [Bool.eq_iff_iff, Bool.not_eq_true', ← Bool.not_eq_true, scale.same_iff hp hs]
    simp only [iff_true, iff_false, not_not, reduceCtorEq]
    omega

theorem upTo_eq (h : Around scale price A M B) (hp : price ∈ S)
    (hr : ladder.rungs = A ++ M ++ B) : ladder.upTo price = (A ++ M).map (·.2) := by
  have hf := h.filter_eq hr (f := fun rung => side.rank rung.1 price != .gt) (a := true) (m := true)
    (b := false) (fun rung hs hlt => ?_) (fun rung hs heq => ?_) (fun rung hs hlt => ?_)
  · rw [Ladder.upTo, hf]
    simp
  all_goals
    rw [Bool.eq_iff_iff, bne_iff_ne, ne_eq, scale.rank_gt hs hp]
    simp only [iff_true, iff_false, not_not, reduceCtorEq]
    omega

theorem lastBefore?_eq (h : Around scale price A M B) (hp : price ∈ S)
    (hr : ladder.rungs = A ++ M ++ B) : ladder.lastBefore? price = A.getLast?.map (·.1) := by
  have hf := h.filter_eq hr (f := fun rung => side.rank rung.1 price == .lt) (a := true)
    (m := false) (b := false) (fun rung hs hlt => ?_) (fun rung hs heq => ?_)
    (fun rung hs hlt => ?_)
  · rw [Ladder.lastBefore?, hf]
    simp
  all_goals
    rw [Bool.eq_iff_iff, beq_iff_eq, scale.rank_lt hs hp]
    simp only [iff_true, iff_false, reduceCtorEq]
    omega

theorem firstBeyond?_eq (h : Around scale price A M B) (hp : price ∈ S)
    (hr : ladder.rungs = A ++ M ++ B) : ladder.firstBeyond? price = B.head? := by
  have hf := h.filter_eq hr (f := fun rung => side.rank rung.1 price == .gt) (a := false)
    (m := false) (b := true) (fun rung hs hlt => ?_) (fun rung hs heq => ?_)
    (fun rung hs hlt => ?_)
  · rw [Ladder.firstBeyond?, ← List.head?_filter, hf]
    simp
  all_goals
    rw [Bool.eq_iff_iff, beq_iff_eq, scale.rank_gt hs hp]
    simp only [iff_true, iff_false, reduceCtorEq]
    omega

theorem get?_eq (h : Around scale price A M B) (hp : price ∈ S)
    (hr : ladder.rungs = A ++ M ++ B) : ladder.get? price = M.head?.map (·.2) := by
  have hf := h.filter_eq hr (f := fun rung => side.same price rung.1) (a := false) (m := true)
    (b := false) (fun rung hs hlt => ?_) (fun rung hs heq => ?_) (fun rung hs hlt => ?_)
  · rw [Ladder.get?, ← List.head?_filter, hf]
    simp
  all_goals
    rw [Bool.eq_iff_iff, scale.same_iff hp hs]
    simp only [iff_true, iff_false, reduceCtorEq]
    omega

theorem upsertRungs_eq (h : Around scale price A M B) (hp : price ∈ S) (f : Option α → α) :
    Ladder.upsertRungs side price f (A ++ M ++ B) =
      A ++ Ladder.upsertRungs side price f (M ++ B) := by
  have hA := h.before
  clear h
  induction A with
  | nil => rfl
  | cons rung A ih =>
    obtain ⟨hs, hlt⟩ := hA rung List.mem_cons_self
    have hgt : side.rank price rung.1 = .gt := (scale.rank_gt hp hs).mpr hlt
    simp only [List.cons_append, Ladder.upsertRungs, hgt,
      ih fun other hin => hA other (List.mem_cons_of_mem _ hin)]

theorem upsert_new (h : Around scale price A [] B) (hp : price ∈ S)
    (hr : ladder.rungs = A ++ B) (f : Option α → α) :
    (ladder.upsert price f).rungs = A ++ (price, f none) :: B := by
  have hu := h.upsertRungs_eq hp f
  rw [List.append_nil, List.nil_append] at hu
  rw [Ladder.upsert, hr, hu]
  cases B with
  | nil => rfl
  | cons rung B =>
    obtain ⟨hs, hgt⟩ := h.beyond rung List.mem_cons_self
    have hlt : side.rank price rung.1 = .lt := (scale.rank_lt hp hs).mpr hgt
    simp only [Ladder.upsertRungs, hlt]

theorem upsert_known {rung : Price × α} (h : Around scale price A [rung] B) (hp : price ∈ S)
    (hr : ladder.rungs = A ++ rung :: B) (f : Option α → α) :
    (ladder.upsert price f).rungs = A ++ (rung.1, f (some rung.2)) :: B := by
  have hu := h.upsertRungs_eq hp f
  rw [List.append_assoc, List.singleton_append] at hu
  obtain ⟨hs, heq⟩ := h.here rung List.mem_cons_self
  have hsame : side.rank price rung.1 = .eq := (scale.rank_same hp hs).mpr heq.symm
  rw [Ladder.upsert, hr, hu]
  simp only [Ladder.upsertRungs, hsame]

end Around

theorem exists_around (scale : Scale side S) (price : Price) {rungs : List (Price × α)}
    (hS : ∀ rung ∈ rungs, rung.1 ∈ S)
    (hL : rungs.Pairwise fun a b => scale.place a.1 < scale.place b.1) :
    ∃ A M B, rungs = A ++ M ++ B ∧ Around scale price A M B ∧ (M = [] ∨ ∃ rung, M = [rung]) := by
  induction rungs with
  | nil => exact ⟨[], [], [], rfl, ⟨by simp, by simp, by simp⟩, .inl rfl⟩
  | cons rung rest ih =>
    obtain ⟨hlt, hrest⟩ := List.pairwise_cons.mp hL
    obtain ⟨hs, hSrest⟩ := List.forall_mem_cons.mp hS
    rcases lt_trichotomy (scale.place rung.1) (scale.place price) with hp | hp | hp
    · obtain ⟨A, M, B, rfl, hA, hM⟩ := ih hSrest hrest
      exact ⟨rung :: A, M, B, rfl,
        ⟨List.forall_mem_cons.mpr ⟨⟨hs, hp⟩, hA.before⟩, hA.here, hA.beyond⟩, hM⟩
    · refine ⟨[], [rung], rest, rfl, ⟨by simp, by simp [hs, hp], fun other hin => ?_⟩,
        .inr ⟨rung, rfl⟩⟩
      exact ⟨hSrest other hin, hp ▸ hlt other hin⟩
    · refine ⟨[], [], rung :: rest, rfl, ⟨by simp, by simp, ?_⟩, .inl rfl⟩
      exact List.forall_mem_cons.mpr
        ⟨⟨hs, hp⟩, fun other hin => ⟨hSrest other hin, hp.trans (hlt other hin)⟩⟩

namespace Ladder

structure Ordered (scale : Scale side S) (ladder : Ladder side α) : Prop where
  known : ∀ key ∈ ladder.prices, key ∈ S
  strict : ladder.prices.Pairwise fun a b => scale.place a < scale.place b

variable {ladder : Ladder side α} {price : Price} {A B : List (Price × α)} {rung : Price × α}

theorem Ordered.empty : (Ladder.empty : Ladder side α).Ordered scale :=
  ⟨by simp [prices, Ladder.empty], by simp [prices, Ladder.empty]⟩

theorem Ordered.rungs_known (h : ladder.Ordered scale) : ∀ rung ∈ ladder.rungs, rung.1 ∈ S :=
  fun _ hin => h.known _ (List.mem_map_of_mem hin)

theorem Ordered.rungs_strict (h : ladder.Ordered scale) :
    ladder.rungs.Pairwise fun a b => scale.place a.1 < scale.place b.1 := by
  simpa only [prices, List.pairwise_map] using h.strict

theorem Ordered.cases (h : ladder.Ordered scale) (price : Price) :
    (∃ A B, ladder.rungs = A ++ B ∧ Around scale price A [] B) ∨
      ∃ A rung B, ladder.rungs = A ++ rung :: B ∧ Around scale price A [rung] B := by
  obtain ⟨A, M, B, hr, hA, rfl | ⟨rung, rfl⟩⟩ :=
    exists_around scale price h.rungs_known h.rungs_strict
  · exact .inl ⟨A, B, by simpa using hr, hA⟩
  · exact .inr ⟨A, rung, B, by simpa using hr, hA⟩

theorem Ordered.rung_mem (h : ladder.Ordered scale) (hr : ladder.rungs = A ++ rung :: B) :
    rung.1 ∈ S :=
  h.known _ (by simp [prices, hr])

/-- The rungs around a rung of the ladder, be it still there or not. -/
theorem Ordered.around (h : ladder.Ordered scale) (hr : ladder.rungs = A ++ rung :: B) :
    Around scale rung.1 A [rung] B ∧ Around scale rung.1 A [] B := by
  have hS := h.rungs_known
  have hp := h.rungs_strict
  rw [hr] at hp hS
  obtain ⟨-, hB, hAB⟩ := List.pairwise_append.mp hp
  have hb := (List.pairwise_cons.mp hB).1
  have hbefore : ∀ other ∈ A, other.1 ∈ S ∧ scale.place other.1 < scale.place rung.1 :=
    fun other hin => ⟨hS other (by simp [hin]), hAB other hin rung List.mem_cons_self⟩
  have hbeyond : ∀ other ∈ B, other.1 ∈ S ∧ scale.place rung.1 < scale.place other.1 :=
    fun other hin => ⟨hS other (by simp [hin]), hb other hin⟩
  exact ⟨⟨hbefore, by simpa using hS rung (by simp), hbeyond⟩, ⟨hbefore, by simp, hbeyond⟩⟩

theorem Ordered.of_sublist {ladder' : Ladder side α} (h : ladder.Ordered scale)
    (hs : ladder'.rungs.Sublist ladder.rungs) : ladder'.Ordered scale :=
  ⟨fun key hin => h.known key ((hs.map _).subset hin), h.strict.sublist (hs.map _)⟩

theorem Ordered.erase (h : ladder.Ordered scale) (price : Price) :
    (ladder.erase price).Ordered scale :=
  h.of_sublist List.filter_sublist

theorem Ordered.upsert (h : ladder.Ordered scale) (hp : price ∈ S) (f : Option α → α) :
    (ladder.upsert price f).Ordered scale := by
  rcases h.cases price with ⟨A, B, hr, hA⟩ | ⟨A, rung, B, hr, hA⟩
  · have hu := hA.upsert_new hp hr f
    have hk := h.known
    have hst := h.rungs_strict
    rw [prices, hr] at hk
    rw [hr] at hst
    obtain ⟨hsA, hsB, hAB⟩ := List.pairwise_append.mp hst
    constructor
    · intro key hin
      rw [prices, hu] at hin
      simp only [List.map_append, List.map_cons, List.mem_append, List.mem_cons] at hin hk
      rcases hin with hin | rfl | hin
      · exact hk key (.inl hin)
      · exact hp
      · exact hk key (.inr hin)
    · rw [prices, hu, List.pairwise_map]
      refine List.pairwise_append.mpr ⟨hsA, List.pairwise_cons.mpr
        ⟨fun other hin => (hA.beyond other hin).2, hsB⟩, fun other hin next hnext => ?_⟩
      rcases List.mem_cons.mp hnext with rfl | hnext
      · exact (hA.before other hin).2
      · exact hAB other hin next hnext
  · have hprices : (ladder.upsert price f).prices = ladder.prices := by
      simp [prices, hA.upsert_known hp hr f, hr]
    exact ⟨hprices ▸ h.known, hprices ▸ h.strict⟩

theorem Ordered.mem_rungs_upsert (h : ladder.Ordered scale) (hp : price ∈ S) (f : Option α → α)
    (hne : scale.place rung.1 ≠ scale.place price) :
    rung ∈ (ladder.upsert price f).rungs ↔ rung ∈ ladder.rungs := by
  rcases h.cases price with ⟨A, B, hr, ha⟩ | ⟨A, old, B, hr, ha⟩
  · have hnew : rung ≠ (price, f none) := by
      rintro rfl
      exact hne rfl
    simp [ha.upsert_new hp hr f, hr, hnew]
  · have hplace := (ha.here old List.mem_cons_self).2
    have hnew : rung ≠ (old.1, f (some old.2)) := by
      rintro rfl
      exact hne hplace
    have hold : rung ≠ old := by
      rintro rfl
      exact hne hplace
    simp [ha.upsert_known hp hr f, hr, hnew, hold]

theorem Ordered.mem_rungs_erase (h : ladder.Ordered scale) (hp : price ∈ S)
    (hne : scale.place rung.1 ≠ scale.place price) :
    rung ∈ (ladder.erase price).rungs ↔ rung ∈ ladder.rungs := by
  simp only [Ladder.erase, List.mem_filter, Bool.not_eq_true', and_iff_left_iff_imp]
  intro hin
  rw [← Bool.not_eq_true, scale.same_iff hp (h.rungs_known rung hin)]
  exact hne.symm

theorem Ordered.get?_eq_some (h : ladder.Ordered scale) (hp : price ∈ S) {a : α} :
    ladder.get? price = some a ↔
      ∃ key, (key, a) ∈ ladder.rungs ∧ scale.place key = scale.place price := by
  rcases h.cases price with ⟨A, B, hr, hA⟩ | ⟨A, rung, B, hr, hA⟩
  · rw [hA.get?_eq hp (by simpa using hr), hr]
    simp only [List.head?_nil, Option.map_none, reduceCtorEq, false_iff]
    rintro ⟨key, hin, heq⟩
    rcases List.mem_append.mp hin with hin | hin
    · exact (hA.before _ hin).2.ne heq
    · exact (hA.beyond _ hin).2.ne heq.symm
  · rw [hA.get?_eq hp (by simpa using hr), hr]
    simp only [List.head?_cons, Option.map_some, Option.some.injEq]
    constructor
    · rintro rfl
      exact ⟨rung.1, by simp, (hA.here _ List.mem_cons_self).2⟩
    · rintro ⟨key, hin, heq⟩
      rcases List.mem_append.mp hin with hin | hin
      · exact absurd heq (hA.before _ hin).2.ne
      rcases List.mem_cons.mp hin with rfl | hin
      · rfl
      · exact absurd heq.symm (hA.beyond _ hin).2.ne

theorem find?_upsertRungs (scale : Scale side S) {other : Price} (hp : price ∈ S)
    (ho : other ∈ S) (f : Option α → α) {rungs : List (Price × α)}
    (hS : ∀ rung ∈ rungs, rung.1 ∈ S)
    (hL : rungs.Pairwise fun a b => scale.place a.1 < scale.place b.1) :
    ((upsertRungs side price f rungs).find? fun rung => side.same other rung.1).map (·.2) =
      if scale.place other = scale.place price then
        some (f ((rungs.find? fun rung => side.same price rung.1).map (·.2)))
      else (rungs.find? fun rung => side.same other rung.1).map (·.2) := by
  induction rungs with
  | nil =>
    simp only [upsertRungs, List.find?_cons, List.find?_nil, ← scale.same_iff ho hp]
    cases side.same other price <;> rfl
  | cons rung rest ih =>
    obtain ⟨key, a⟩ := rung
    obtain ⟨hs, hSrest⟩ := List.forall_mem_cons.mp hS
    obtain ⟨hlt, hrest⟩ := List.pairwise_cons.mp hL
    have hop := scale.same_iff ho hp
    have hok := scale.same_iff ho hs
    have hpk := scale.same_iff hp hs
    cases hc : side.rank price key with
    | lt =>
      have hplt := (scale.rank_lt hp hs).mp hc
      have hnone : ((key, a) :: rest).find? (fun rung => side.same price rung.1) = none := by
        refine List.find?_eq_none.mpr fun next hin => ?_
        rw [scale.same_iff hp (hS next hin)]
        rcases List.mem_cons.mp hin with rfl | hin
        · exact hplt.ne
        · exact (hplt.trans (hlt next hin)).ne
      simp only [upsertRungs, hc, hnone, List.find?_cons (a := (price, f none)), ← hop]
      cases side.same other price <;> rfl
    | eq =>
      have heq := (scale.rank_same hp hs).mp hc
      have hsame : side.same price key = true := hpk.mpr heq
      simp only [upsertRungs, hc, List.find?_cons, hsame, heq, ← hok]
      cases side.same other key <;> rfl
    | gt =>
      have hgt := (scale.rank_gt hp hs).mp hc
      have hfar : side.same price key = false :=
        Bool.eq_false_iff.mpr fun hsame => hgt.ne' (hpk.mp hsame)
      simp only [upsertRungs, hc, List.find?_cons, hfar]
      cases hk : side.same other key with
      | false => exact ih hSrest hrest
      | true =>
        have := hok.mp hk
        rw [if_neg (by omega)]

theorem Ordered.get?_upsert (h : ladder.Ordered scale) {other : Price} (hp : price ∈ S)
    (ho : other ∈ S) (f : Option α → α) :
    (ladder.upsert price f).get? other =
      if scale.place other = scale.place price then some (f (ladder.get? price))
      else ladder.get? other :=
  find?_upsertRungs scale hp ho f h.rungs_known h.rungs_strict

theorem Ordered.get?_erase (h : ladder.Ordered scale) {other : Price} (hp : price ∈ S)
    (ho : other ∈ S) :
    (ladder.erase price).get? other =
      if scale.place other = scale.place price then none else ladder.get? other := by
  ext a
  rw [(h.erase price).get?_eq_some ho]
  simp only [Ladder.erase, List.mem_filter, Bool.not_eq_true']
  split_ifs with heq
  · rw [iff_false]
    rintro ⟨key, ⟨hin, hfar⟩, hkey⟩
    have hsame := (scale.same_iff hp (h.rungs_known _ hin)).mpr (hkey.trans heq).symm
    exact absurd hsame (by simp [hfar])
  · rw [h.get?_eq_some ho]
    refine exists_congr fun key => ⟨fun hk => ⟨hk.1.1, hk.2⟩, fun hk => ⟨⟨hk.1, ?_⟩, hk.2⟩⟩
    rw [← Bool.not_eq_true, scale.same_iff hp (h.rungs_known _ hk.1)]
    exact fun hpk => heq (hk.2.symm.trans hpk.symm)

end Ladder

def BestFirst (scale : Scale side S) (priceOf : α → Price) (values : List α) : Prop :=
  values.Pairwise fun a b => scale.place (priceOf a) < scale.place (priceOf b)

variable {priceOf : α → Price}

theorem eq_of_pairwise_lt {rank : α → Int} {values values' : List α}
    (h : values.Pairwise fun a b => rank a < rank b)
    (h' : values'.Pairwise fun a b => rank a < rank b) (hmem : ∀ a, a ∈ values ↔ a ∈ values') :
    values = values' := by
  have hirr : Std.Irrefl fun a b : α => rank a < rank b := ⟨fun a => lt_irrefl _⟩
  have hanti : Std.Antisymm fun a b : α => rank a < rank b :=
    ⟨fun a b hab hba => absurd hab hba.asymm⟩
  exact List.Pairwise.eq_of_mem_iff h h' hmem

theorem BestFirst.eq_of_mem_iff {values values' : List α} (h : BestFirst scale priceOf values)
    (h' : BestFirst scale priceOf values') (hmem : ∀ a, a ∈ values ↔ a ∈ values') :
    values = values' :=
  eq_of_pairwise_lt h h' hmem

theorem BestFirst.eq_of_place {values : List α} (h : BestFirst scale priceOf values) {a b : α}
    (ha : a ∈ values) (hb : b ∈ values) (hab : scale.place (priceOf a) = scale.place (priceOf b)) :
    a = b := by
  induction values with
  | nil => cases ha
  | cons c rest ih =>
    obtain ⟨hlt, hrest⟩ := List.pairwise_cons.mp h
    rcases List.mem_cons.mp ha with rfl | hra <;> rcases List.mem_cons.mp hb with rfl | hrb
    · rfl
    · exact absurd hab (hlt b hrb).ne
    · exact absurd hab (hlt a hra).ne'
    · exact ih hrest hra hrb

theorem BestFirst.countP_le_one {values : List α} (h : BestFirst scale priceOf values)
    (hS : ∀ a ∈ values, priceOf a ∈ S) {price : Price} (hp : price ∈ S) :
    (values.countP fun a => side.same price (priceOf a)) ≤ 1 := by
  induction values with
  | nil => exact Nat.zero_le 1
  | cons a rest ih =>
    obtain ⟨hlt, hrest⟩ := List.pairwise_cons.mp h
    obtain ⟨ha, hSrest⟩ := List.forall_mem_cons.mp hS
    rw [List.countP_cons]
    split_ifs with hsame
    · have hplace := (scale.same_iff hp ha).mp hsame
      have hnone : (rest.countP fun a => side.same price (priceOf a)) = 0 := by
        refine List.countP_eq_zero.mpr fun b hb => ?_
        rw [scale.same_iff hp (hSrest b hb), hplace]
        exact (hlt b hb).ne
      rw [hnone]
    · exact ih hrest hSrest

namespace Ladder

/-- In order, each value under a key at the place of its own price. -/
structure Filed (scale : Scale side S) (priceOf : α → Price) (ladder : Ladder side α) : Prop
    extends Ordered scale ladder where
  own : ∀ rung ∈ ladder.rungs,
    priceOf rung.2 ∈ S ∧ scale.place (priceOf rung.2) = scale.place rung.1

variable {ladder : Ladder side α} {price : Price}

theorem Filed.empty : (Ladder.empty : Ladder side α).Filed scale priceOf :=
  ⟨Ordered.empty, by simp [Ladder.empty]⟩

theorem Filed.known_of_mem (h : ladder.Filed scale priceOf) {a : α} (ha : a ∈ ladder.values) :
    priceOf a ∈ S := by
  obtain ⟨rung, hin, rfl⟩ := List.mem_map.mp ha
  exact (h.own rung hin).1

theorem Filed.bestFirst (h : ladder.Filed scale priceOf) :
    BestFirst scale priceOf ladder.values := by
  rw [BestFirst, values, List.pairwise_map]
  refine h.rungs_strict.imp_of_mem fun ha hb hlt => ?_
  rwa [(h.own _ ha).2, (h.own _ hb).2]

theorem Filed.get?_eq_some (h : ladder.Filed scale priceOf) (hp : price ∈ S) {a : α} :
    ladder.get? price = some a ↔
      a ∈ ladder.values ∧ scale.place (priceOf a) = scale.place price := by
  rw [h.toOrdered.get?_eq_some hp]
  constructor
  · rintro ⟨key, hin, heq⟩
    exact ⟨List.mem_map_of_mem hin, (h.own _ hin).2.trans heq⟩
  · rintro ⟨ha, heq⟩
    obtain ⟨rung, hin, rfl⟩ := List.mem_map.mp ha
    exact ⟨rung.1, hin, (h.own _ hin).2.symm.trans heq⟩

theorem Filed.contains_iff (h : ladder.Filed scale priceOf) (hp : price ∈ S) :
    ladder.contains price = true ↔
      ∃ a ∈ ladder.values, scale.place (priceOf a) = scale.place price := by
  simp only [contains, Option.isSome_iff_exists, h.get?_eq_some hp]

theorem Filed.mem_values (h : ladder.Filed scale priceOf) {a : α} (hp : priceOf a ∈ S) :
    a ∈ ladder.values ↔ ladder.get? (priceOf a) = some a := by
  rw [h.get?_eq_some hp]
  exact (and_iff_left rfl).symm

theorem Filed.erase (h : ladder.Filed scale priceOf) (price : Price) :
    (ladder.erase price).Filed scale priceOf :=
  ⟨h.toOrdered.erase price, fun rung hin => h.own rung (List.mem_of_mem_filter hin)⟩

theorem Filed.mem_erase (h : ladder.Filed scale priceOf) (hp : price ∈ S) {a : α} :
    a ∈ (ladder.erase price).values ↔
      a ∈ ladder.values ∧ scale.place (priceOf a) ≠ scale.place price := by
  constructor
  · intro ha
    have hs := (h.erase price).known_of_mem ha
    have hg := ((h.erase price).mem_values hs).mp ha
    rw [h.toOrdered.get?_erase hp hs] at hg
    split_ifs at hg with heq
    exact ⟨(h.mem_values hs).mpr hg, heq⟩
  · rintro ⟨ha, hne⟩
    have hs := h.known_of_mem ha
    rw [(h.erase price).mem_values hs, h.toOrdered.get?_erase hp hs, if_neg hne]
    exact (h.mem_values hs).mp ha

theorem Filed.upsert (h : ladder.Filed scale priceOf) (hp : price ∈ S) {f : Option α → α}
    (hf : ∀ o : Option α,
      (∀ a ∈ o, priceOf a ∈ S ∧ scale.place (priceOf a) = scale.place price) →
        priceOf (f o) ∈ S ∧ scale.place (priceOf (f o)) = scale.place price) :
    (ladder.upsert price f).Filed scale priceOf := by
  refine ⟨h.toOrdered.upsert hp f, fun other hin => ?_⟩
  have hown := h.own
  rcases h.cases price with ⟨A, B, hr, hA⟩ | ⟨A, rung, B, hr, hA⟩
  · rw [hA.upsert_new hp hr f] at hin
    rw [hr] at hown
    rcases List.mem_append.mp hin with hin | hin
    · exact hown other (List.mem_append_left B hin)
    rcases List.mem_cons.mp hin with rfl | hin
    · exact hf none (by simp)
    · exact hown other (List.mem_append_right A hin)
  · rw [hA.upsert_known hp hr f] at hin
    rw [hr] at hown
    have hkey := (hA.here rung List.mem_cons_self).2
    rcases List.mem_append.mp hin with hin | hin
    · exact hown other (List.mem_append_left _ hin)
    rcases List.mem_cons.mp hin with rfl | hin
    · obtain ⟨hs, hplace⟩ := hown rung (by simp)
      have hsome := hf (some rung.2) (by simpa using ⟨hs, hplace.trans hkey⟩)
      exact ⟨hsome.1, hsome.2.trans hkey.symm⟩
    · exact hown other (List.mem_append_right A (List.mem_cons_of_mem rung hin))

theorem Filed.insert (h : ladder.Filed scale priceOf) {a : α} (hp : priceOf a ∈ S) :
    (ladder.insert (priceOf a) a).Filed scale priceOf :=
  h.upsert hp fun _ _ => ⟨hp, rfl⟩

theorem Filed.mem_insert (h : ladder.Filed scale priceOf) {a b : α} (hp : priceOf a ∈ S) :
    b ∈ (ladder.insert (priceOf a) a).values ↔
      b = a ∨ b ∈ ladder.values ∧ scale.place (priceOf b) ≠ scale.place (priceOf a) := by
  have hget : ∀ {b : α}, priceOf b ∈ S → (b ∈ (ladder.insert (priceOf a) a).values ↔
      (if scale.place (priceOf b) = scale.place (priceOf a) then some a
        else ladder.get? (priceOf b)) = some b) := by
    intro b hs
    rw [(h.insert hp).mem_values hs, Ladder.insert, h.toOrdered.get?_upsert hp hs]
  constructor
  · intro hb
    have hs := (h.insert hp).known_of_mem hb
    rw [hget hs] at hb
    split_ifs at hb with heq
    · exact .inl (Option.some.inj hb).symm
    · exact .inr ⟨(h.mem_values hs).mpr hb, heq⟩
  · rintro (rfl | ⟨hb, hne⟩)
    · rw [hget hp, if_pos rfl]
    · have hs := h.known_of_mem hb
      rw [hget hs, if_neg hne]
      exact (h.mem_values hs).mp hb

end Ladder

end MarketDepth
