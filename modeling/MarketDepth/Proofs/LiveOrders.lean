import Mathlib.Algebra.BigOperators.Group.List.Basic
import Mathlib.Data.List.Nodup
import MarketDepth.Proofs.NetDeltas
import MarketDepth.Proofs.WholeSizes

/-! The live orders of a stream of reports, and what rests at a price among them. A report takes the
place of the one before it on the same order, so a total loses what that order had there and gains
what it has now. -/

namespace MarketDepth

/-- The last word on each order, unless that word is its removal. -/
def live : List Report → List Resting
  | [] => []
  | report :: later =>
    if report.isRemoval || later.any (·.index == report.index) then live later
    else report.resting :: live later

def without (index : Int64) (orders : List Resting) : List Resting :=
  orders.filter (·.index != index)

theorem mem_live {reports : List Report} {order : Resting} (h : order ∈ live reports) :
    ∃ report ∈ reports, report.isRemoval = false ∧ report.resting = order := by
  induction reports with
  | nil => cases h
  | cons report later ih =>
    unfold live at h
    split_ifs at h with hout
    · obtain ⟨r, hr, hkept⟩ := ih h
      exact ⟨r, List.mem_cons_of_mem _ hr, hkept⟩
    · simp only [Bool.or_eq_true, not_or] at hout
      rcases List.mem_cons.mp h with rfl | h
      · exact ⟨report, List.mem_cons_self, by simpa using hout.1, rfl⟩
      · obtain ⟨r, hr, hkept⟩ := ih h
        exact ⟨r, List.mem_cons_of_mem _ hr, hkept⟩

/-- The orders as a report leaves them. -/
def amend (orders : List Resting) (report : Report) : List Resting :=
  without report.index orders ++ if report.isRemoval then [] else [report.resting]

theorem live_concat (reports : List Report) (last : Report) :
    live (reports ++ [last]) = without last.index (live reports) ++
      if last.isRemoval then [] else [last.resting] := by
  induction reports with
  | nil => cases h : last.isRemoval <;> simp [live, without, h]
  | cons report later ih =>
    rw [List.cons_append, live, ih, List.any_append, live]
    by_cases hsame : last.index = report.index
    · by_cases hout : (report.isRemoval || later.any (·.index == report.index)) = true
      · simp [hout, hsame]
      · simp [hout, hsame, without, Report.resting]
    · have hlast : (last.index == report.index) = false := beq_false_of_ne hsame
      have hkeep : (report.resting.index != last.index) = true := bne_iff_ne.mpr (Ne.symm hsame)
      by_cases hout : (report.isRemoval || later.any (·.index == report.index)) = true
      · simp [hout, hlast]
      · simp [hout, hlast, without, hkeep]

theorem live_append (seen batch : List Report) : live (seen ++ batch) = batch.foldl amend (live seen) := by
  induction batch generalizing seen with
  | nil => rw [List.append_nil, List.foldl_nil]
  | cons report rest ih =>
    rw [List.append_cons, ih, live_concat, List.foldl_cons, amend]

theorem amend_distinct {orders : List Resting} (hd : (orders.map Resting.index).Nodup)
    (report : Report) : ((amend orders report).map Resting.index).Nodup := by
  have hkept : ((without report.index orders).map Resting.index).Nodup :=
    hd.sublist (List.filter_sublist.map _)
  unfold amend
  split_ifs with hout
  · rwa [List.append_nil]
  · rw [List.map_append, List.nodup_append_comm]
    refine List.nodup_cons.mpr ⟨fun hin => ?_, hkept⟩
    obtain ⟨order, horder, hindex⟩ := List.mem_map.mp hin
    exact bne_iff_ne.mp (List.mem_filter.mp horder).2 hindex

theorem foldl_amend_distinct {orders : List Resting} (hd : (orders.map Resting.index).Nodup)
    (batch : List Report) : ((batch.foldl amend orders).map Resting.index).Nodup := by
  induction batch generalizing orders with
  | nil => exact hd
  | cons report rest ih => exact ih (amend_distinct hd report)

theorem length_foldl_amend_le (orders : List Resting) (batch : List Report) :
    (batch.foldl amend orders).length ≤ orders.length + batch.length := by
  induction batch generalizing orders with
  | nil => exact le_rfl
  | cons report rest ih =>
    have hone : (amend orders report).length ≤ orders.length + 1 := by
      unfold amend
      rw [List.length_append]
      refine Nat.add_le_add (List.length_filter_le _ _) ?_
      split_ifs <;> simp
    have hrest := ih (amend orders report)
    rw [List.foldl_cons, List.length_cons]
    omega

theorem live_distinct (reports : List Report) : ((live reports).map Resting.index).Nodup := by
  induction reports with
  | nil => exact List.nodup_nil
  | cons report later ih =>
    unfold live
    split_ifs with hout
    · exact ih
    · refine List.nodup_cons.mpr ⟨fun hin => hout ?_, ih⟩
      obtain ⟨order, horder, hindex⟩ := List.mem_map.mp hin
      obtain ⟨r, hr, -, rfl⟩ := mem_live horder
      rw [Bool.or_eq_true, List.any_eq_true]
      exact .inr ⟨r, hr, beq_iff_eq.mpr hindex⟩

theorem length_live_le (reports : List Report) : (live reports).length ≤ reports.length := by
  induction reports with
  | nil => exact le_rfl
  | cons report later ih =>
    unfold live
    split_ifs
    · exact ih.trans (Nat.le_succ _)
    · exact Nat.succ_le_succ ih

def Resting.standsAt (side : Side) (price : Price) (order : Resting) : Bool :=
  order.interest.side == side && order.price.any (side.same price)

def sumAt (worth : Resting → Int) (side : Side) (price : Price) (orders : List Resting) : Int :=
  ((orders.filter (Resting.standsAt side price)).map worth).sum

def totalAt (side : Side) (price : Price) (orders : List Resting) : Int :=
  ((orders.filter (Resting.standsAt side price)).map fun order => units order.size).sum

/-- The exact sum of the sizes at a price, in steps. -/
def volumeAt (side : Side) (price : Price) (orders : List Resting) : Int :=
  sumAt (fun order => steps order.size) side price orders

section

variable {worth : Resting → Int} {side : Side} {price : Price} {orders : List Resting}

@[simp]
theorem sumAt_nil : sumAt worth side price [] = 0 := rfl

theorem sumAt_cons (order : Resting) : sumAt worth side price (order :: orders) =
    (if order.standsAt side price then worth order else 0) + sumAt worth side price orders := by
  unfold sumAt
  by_cases h : order.standsAt side price = true
  · simp [h]
  · simp [h]

theorem sumAt_append (orders' : List Resting) : sumAt worth side price (orders ++ orders') =
    sumAt worth side price orders + sumAt worth side price orders' := by
  simp [sumAt]

theorem sumAt_perm {others : List Resting} (h : orders.Perm others) :
    sumAt worth side price orders = sumAt worth side price others :=
  ((h.filter _).map _).sum_eq

theorem natAbs_sumAt_le {most : Nat} (h : ∀ order ∈ orders, (worth order).natAbs ≤ most) :
    (sumAt worth side price orders).natAbs ≤ orders.length * most := by
  induction orders with
  | nil => simp
  | cons order rest ih =>
    obtain ⟨hle, hrest⟩ := List.forall_mem_cons.mp h
    have hsum := ih hrest
    rw [sumAt_cons, List.length_cons, Nat.succ_mul]
    split_ifs <;> omega

theorem sumAt_mul {worth' : Resting → Int} {k : Int}
    (h : ∀ order ∈ orders, worth order = worth' order * k) :
    sumAt worth side price orders = sumAt worth' side price orders * k := by
  induction orders with
  | nil => simp
  | cons order rest ih =>
    obtain ⟨hhead, hrest⟩ := List.forall_mem_cons.mp h
    rw [sumAt_cons, sumAt_cons, ih hrest, hhead, Int.add_mul]
    split_ifs <;> simp

theorem sumAt_nonneg (h : ∀ order ∈ orders, 0 < worth order) : 0 ≤ sumAt worth side price orders := by
  induction orders with
  | nil => exact le_rfl
  | cons order rest ih =>
    obtain ⟨hpos, hrest⟩ := List.forall_mem_cons.mp h
    have hsum := ih hrest
    rw [sumAt_cons]
    split_ifs <;> omega

theorem sumAt_pos_iff (h : ∀ order ∈ orders, 0 < worth order) :
    0 < sumAt worth side price orders ↔ ∃ order ∈ orders, order.standsAt side price = true := by
  induction orders with
  | nil => simp
  | cons order rest ih =>
    obtain ⟨hpos, hrest⟩ := List.forall_mem_cons.mp h
    have hsum : 0 ≤ sumAt worth side price rest := sumAt_nonneg hrest
    rw [sumAt_cons, List.exists_mem_cons_iff, ← ih hrest]
    by_cases hs : order.standsAt side price = true
    · simp only [hs, if_true, true_or, iff_true]
      omega
    · simp only [hs, Bool.false_eq_true, if_false, false_or, Int.zero_add]

theorem without_of_absent {index : Int64} (h : ∀ order ∈ orders, order.index ≠ index) :
    without index orders = orders :=
  List.filter_eq_self.mpr fun order hin => bne_iff_ne.mpr (h order hin)

theorem split_at_index (hd : (orders.map Resting.index).Nodup) (index : Int64) :
    (orders.find? (·.index == index) = none ∧ without index orders = orders) ∨
      ∃ before order after, orders = before ++ order :: after ∧
        orders.find? (·.index == index) = some order ∧ without index orders = before ++ after := by
  cases h : orders.find? (·.index == index) with
  | none =>
    refine .inl ⟨rfl, without_of_absent fun order hin heq => ?_⟩
    exact List.find?_eq_none.mp h order hin (beq_iff_eq.mpr heq)
  | some order =>
    obtain ⟨hindex, before, after, rfl, -⟩ := List.find?_eq_some_iff_append.mp h
    obtain rfl := beq_iff_eq.mp hindex
    rw [List.map_append, List.map_cons, List.nodup_middle, List.nodup_cons, List.mem_append,
      not_or] at hd
    refine .inr ⟨before, order, after, rfl, rfl, ?_⟩
    have hb := without_of_absent fun o ho heq => hd.1.1 (List.mem_map.mpr ⟨o, ho, heq⟩)
    have ha := without_of_absent fun o ho heq => hd.1.2 (List.mem_map.mpr ⟨o, ho, heq⟩)
    unfold without at hb ha ⊢
    rw [List.filter_append, hb, List.filter_cons_of_neg (by simp), ha]

theorem sumAt_without (hd : (orders.map Resting.index).Nodup) {index : Int64} {order : Resting}
    (h : orders.find? (·.index == index) = some order) : sumAt worth side price orders =
      sumAt worth side price (without index orders) +
        if order.standsAt side price then worth order else 0 := by
  rcases split_at_index hd index with ⟨hnone, -⟩ | ⟨before, found, after, rfl, hsome, hrest⟩
  · cases h.symm.trans hnone
  · obtain rfl := Option.some.inj (hsome.symm.trans h)
    rw [hrest, sumAt_append, sumAt_cons, sumAt_append]
    omega

theorem sumAt_without_le (hd : (orders.map Resting.index).Nodup)
    (h : ∀ order ∈ orders, 0 < worth order) (index : Int64) :
    sumAt worth side price (without index orders) ≤ sumAt worth side price orders := by
  cases hf : orders.find? (·.index == index) with
  | none =>
    have hself : without index orders = orders := without_of_absent fun order hin heq =>
      List.find?_eq_none.mp hf order hin (beq_iff_eq.mpr heq)
    rw [hself]
  | some order =>
    have hpos := h order (List.mem_of_find?_eq_some hf)
    rw [sumAt_without hd hf]
    split_ifs <;> omega

end

theorem volumeAt_eq_totalAt {orders : List Resting}
    (h : ∀ order ∈ orders, ∃ n : Int, Whole n order.size) (side : Side) (price : Price) :
    volumeAt side price orders = totalAt side price orders * 2 ^ 1074 := by
  refine sumAt_mul fun order hin => ?_
  obtain ⟨n, hw⟩ := h order hin
  rw [hw.units, (Whole.counts_iff.mp hw).steps]

theorem natAbs_totalAt_le_of_length {orders : List Resting} {most count : Nat}
    (h : ∀ order ∈ orders, ∃ n : Int, n.natAbs ≤ most ∧ Whole n order.size)
    (hlength : orders.length ≤ count) (side : Side) (price : Price) :
    (totalAt side price orders).natAbs ≤ count * most := by
  have hunits : ∀ order ∈ orders, (units order.size).natAbs ≤ most := by
    intro order hin
    obtain ⟨n, hle, hw⟩ := h order hin
    rwa [hw.units]
  exact (natAbs_sumAt_le hunits).trans (Nat.mul_le_mul_right most hlength)

/-- Live sizes are whole numbers, none of them above a bound. -/
def WholeUpTo (most : Nat) (reports : List Report) : Prop :=
  ∀ report ∈ reports, report.isRemoval = false → ∃ n : Int, n.natAbs ≤ most ∧ Whole n report.size

namespace WholeUpTo

variable {most : Nat} {reports moment rest : List Report} {orders : List Resting}

theorem exists_whole (h : WholeUpTo most reports) (hsplit : reports = moment ++ rest)
    (hsub : orders.Sublist (live moment)) :
    ∀ order ∈ orders, ∃ n : Int, n.natAbs ≤ most ∧ Whole n order.size := by
  intro order hin
  obtain ⟨report, hr, hout, rfl⟩ := mem_live (hsub.subset hin)
  exact h report (hsplit ▸ List.mem_append_left rest hr) hout

theorem natAbs_totalAt_le (h : WholeUpTo most reports) (hsplit : reports = moment ++ rest)
    (hsub : orders.Sublist (live moment)) (side : Side) (price : Price) :
    (totalAt side price orders).natAbs ≤ reports.length * most := by
  refine natAbs_totalAt_le_of_length (h.exists_whole hsplit hsub) ?_ side price
  rw [hsplit, List.length_append]
  exact (hsub.length_le.trans (length_live_le moment)).trans (Nat.le_add_right _ _)

end WholeUpTo

/-- Sizes that are positive multiples of two to some power of the steps. -/
def Sized (grain : Nat) (orders : List Resting) : Prop :=
  ∀ order ∈ orders, ∃ n : Int, 0 < n ∧ Counts (n * 2 ^ grain) order.size

namespace Sized

variable {grain : Nat} {orders : List Resting}

theorem without (h : Sized grain orders) (index : Int64) : Sized grain (without index orders) :=
  fun order hin => h order (List.mem_of_mem_filter hin)

theorem steps_pos (h : Sized grain orders) : ∀ order ∈ orders, 0 < steps order.size := by
  intro order hin
  obtain ⟨n, hn, hc⟩ := h order hin
  rw [hc.steps]
  exact Int.mul_pos hn (pow_pos (by decide) grain)

/-- A volume is so many of the grain as its sizes are together. -/
theorem volumeAt_eq (h : Sized grain orders) (side : Side) (price : Price) :
    volumeAt side price orders =
      sumAt (fun order => steps order.size / 2 ^ grain) side price orders * 2 ^ grain := by
  refine sumAt_mul fun order hin => ?_
  obtain ⟨n, hn, hc⟩ := h order hin
  have hpow : (2 : Int) ^ grain ≠ 0 := pow_ne_zero grain (by decide)
  rw [hc.steps, Int.mul_ediv_cancel n hpow]

theorem whole (h : Sized 1074 orders) :
    ∀ order ∈ orders, ∃ n : Int, Whole n order.size := by
  intro order hin
  obtain ⟨n, -, hc⟩ := h order hin
  exact ⟨n, Whole.counts_iff.mpr hc⟩

end Sized

theorem find?_of_mem {orders : List Resting} (hd : (orders.map Resting.index).Nodup)
    {order : Resting} (hin : order ∈ orders) : orders.find? (·.index == order.index) = some order := by
  cases hfind : orders.find? (·.index == order.index) with
  | none => exact absurd (beq_self_eq_true _) (List.find?_eq_none.mp hfind order hin)
  | some found =>
    have hsame : found.index = order.index := by simpa using List.find?_some hfind
    rw [List.inj_on_of_nodup_map hd (List.mem_of_find?_eq_some hfind) hin hsame]

theorem perm_of_find?_eq {orders others : List Resting} (hd : (orders.map Resting.index).Nodup)
    (hd' : (others.map Resting.index).Nodup)
    (h : ∀ index, orders.find? (·.index == index) = others.find? (·.index == index)) :
    orders.Perm others := by
  refine (List.perm_ext_iff_of_nodup hd.of_map hd'.of_map).mpr fun order => ?_
  refine ⟨fun hin => ?_, fun hin => ?_⟩
  · exact List.mem_of_find?_eq_some ((h _).symm.trans (find?_of_mem hd hin))
  · exact List.mem_of_find?_eq_some ((h _).trans (find?_of_mem hd' hin))

namespace Ledger

structure Remembers (orders : List Resting) (ledger : Ledger) : Prop where
  get? : ∀ index, ledger.get? index = orders.find? (·.index == index)
  size : ledger.size = orders.length

variable {orders : List Resting} {ledger : Ledger}

theorem remembers_empty : Ledger.empty.Remembers [] :=
  ⟨get?_empty, rfl⟩

theorem find?_without (index other : Int64) : (without index orders).find? (·.index == other) =
    if index = other then none else orders.find? (·.index == other) := by
  rw [without, List.find?_filter]
  split_ifs with h
  · rw [List.find?_eq_none]
    rintro order - hin
    simp [h] at hin
  · congr 1
    funext order
    by_cases ho : order.index = other
    · simp [ho, Ne.symm h]
    · simp [ho]

theorem length_without (hd : (orders.map Resting.index).Nodup) (index : Int64) :
    (without index orders).length =
      if (orders.find? (·.index == index)).isSome then orders.length - 1 else orders.length := by
  rcases split_at_index hd index with ⟨hnone, hself⟩ | ⟨before, order, after, rfl, hsome, hrest⟩
  · simp [hnone, hself]
  · simp [hsome, hrest]

theorem Remembers.without_of_get? (h : ledger.Remembers orders) {index : Int64}
    (hget : ledger.get? index = none) : without index orders = orders := by
  rw [h.get?, List.find?_eq_none] at hget
  exact without_of_absent fun order hin heq => hget order hin (beq_iff_eq.mpr heq)

theorem Remembers.erase (h : ledger.Remembers orders) (hd : (orders.map Resting.index).Nodup)
    (index : Int64) : (ledger.erase index).Remembers (without index orders) := by
  constructor
  · intro other
    rw [find?_without, ← h.get?, get?_erase]
  · have hs : (ledger.erase index).size =
        if (ledger.get? index).isSome then ledger.size - 1 else ledger.size := by
      simp [Ledger.erase, Ledger.size, Ledger.get?, Std.TreeMap.size_erase]
    rw [hs, h.get?, h.size, length_without hd]

theorem Remembers.insert (h : ledger.Remembers orders) (hd : (orders.map Resting.index).Nodup)
    (order : Resting) :
    (ledger.insert order).Remembers (without order.index orders ++ [order]) := by
  constructor
  · intro other
    rw [List.find?_append, find?_without, ← h.get?, get?_insert]
    by_cases ho : order.index = other
    · simp [ho]
    · simp [ho]
  · have hs : (ledger.insert order).size =
        if (ledger.get? order.index).isSome then ledger.size else ledger.size + 1 := by
      simp [Ledger.insert, Ledger.size, Ledger.get?, Std.TreeMap.size_insert]
    rw [hs, h.get?, h.size, List.length_append, length_without hd]
    split_ifs with hsome
    · have hpos : orders ≠ [] := by rintro rfl; cases hsome
      have hlen := List.length_pos_iff.mpr hpos
      rw [List.length_singleton]
      omega
    · rfl

end Ledger

end MarketDepth
