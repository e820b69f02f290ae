import Mathlib.Data.Finset.Card
import MarketDepth.Proofs.LastWords
import MarketDepth.Proofs.LedgerTotals

/-! What a batch leaves in the ledger. The last report on an order decides its entry. A removal is
ignored where the order is gone already, by the report before it on the same order or, without one, by
the ledger. -/

namespace MarketDepth

variable {batch : List Report}

theorem Report.price_of_price? (report : Report) : report.price?.map Price.value =
    if report.price.isNaN then none else some report.price := by
  unfold price? Price.ofFloat?
  split_ifs with hnumber hnan hnan
  · rw [hnumber] at hnan
    cases hnan
  · rfl
  · rfl
  · exact absurd (Bool.eq_false_of_not_eq_true hnan) hnumber

namespace Ledger

/-- The orders that are live, by index. -/
def indices (ledger : Ledger) : Finset Int64 := ledger.orders.keys.toFinset

theorem mem_indices {ledger : Ledger} {index : Int64} :
    index ∈ ledger.indices ↔ (ledger.get? index).isSome = true := by
  rw [indices, List.mem_toFinset, Std.TreeMap.mem_keys, Std.TreeMap.mem_iff_isSome_getElem?, get?]

theorem card_indices (ledger : Ledger) : ledger.indices.card = ledger.size := by
  rw [indices, List.toFinset_card_of_nodup Std.TreeMap.nodup_keys, Std.TreeMap.length_keys, size]

/-- Going from one ledger to another, the orders that became live come on top of those there were, and
those that ceased to be live go. -/
theorem size_add_card_sdiff (before after : Ledger) :
    after.size + (before.indices \ after.indices).card =
      before.size + (after.indices \ before.indices).card := by
  rw [← card_indices, ← card_indices, Nat.add_comm, Finset.card_sdiff_add_card, Nat.add_comm,
    Finset.card_sdiff_add_card, Finset.union_comm]

/-- A removal of an order that is gone when it comes, some reports after the ledger was as it is. -/
def idle (ledger : Ledger) (earlier : List Report) (report : Report) : Bool :=
  report.isRemoval && match lastOn report.index earlier with
    | some last => last.isRemoval
    | none => (ledger.get? report.index).isNone

end Ledger

namespace Netting

theorem get?_add (net : Netting) (report : Report) (index : Int64) :
    (net.add report).ledger.get? index =
      if report.index = index then report.left? else net.ledger.get? index := by
  have hresting : report.resting.index = report.index := rfl
  rcases net.add_cases report with
    ⟨hget, hout, hadd⟩ | ⟨-, hout, hadd⟩ | ⟨order, -, hout, hadd⟩ | ⟨order, -, hout, hadd⟩
  · rw [hadd, Report.left?, hout, if_pos rfl]
    split_ifs with hindex
    · exact hindex ▸ hget
    · rfl
  · rw [hadd, Report.left?, hout, ledger_book, Ledger.get?_insert, hresting]
    rfl
  · rw [hadd, Report.left?, hout, Ledger.get?_erase]
    rfl
  · rw [hadd, Report.left?, hout, ledger_book, ledger_withdraw, Ledger.get?_insert, hresting]
    rfl

theorem get?_foldl (net : Netting) (batch : List Report) (index : Int64) :
    (batch.foldl add net).ledger.get? index =
      (lastOn index batch).elim (net.ledger.get? index) Report.left? := by
  induction batch using List.reverseRecOn with
  | nil => rfl
  | append_singleton earlier last ih =>
    rw [List.foldl_concat, get?_add, ih, lastOn_append, lastOn_singleton]
    split_ifs <;> rfl

theorem isNone_foldl (net : Netting) (earlier : List Report) (report : Report) :
    (report.isRemoval && ((earlier.foldl add net).ledger.get? report.index).isNone) =
      net.ledger.idle earlier report := by
  rw [get?_foldl, Ledger.idle]
  cases lastOn report.index earlier with
  | none => rfl
  | some last => cases hout : last.isRemoval <;> simp [Report.left?, hout]

theorem ignored_foldl (net : Netting) (batch : List Report) : (batch.foldl add net).ignored =
    net.ignored + batch.zipIdx.countP fun entry => net.ledger.idle (batch.take entry.2) entry.1 := by
  induction batch using List.reverseRecOn with
  | nil => rfl
  | append_singleton earlier last ih =>
    -- The reports before the last one see the same reports before them as they did without it.
    have hearlier : (earlier.zipIdx.countP fun entry =>
          net.ledger.idle ((earlier ++ [last]).take entry.2) entry.1) =
        earlier.zipIdx.countP fun entry => net.ledger.idle (earlier.take entry.2) entry.1 := by
      refine List.countP_congr fun entry hin => ?_
      have hlt := (List.mem_zipIdx hin).2.1
      rw [List.take_append_of_le_length (by omega)]
    rw [List.foldl_concat, ignored_add, ih, isNone_foldl, List.zipIdx_append, List.countP_append,
      hearlier, Nat.add_assoc]
    cases hidle : net.ledger.idle earlier last <;> simp [hidle]

end Netting

namespace Ledger

/-- A batch leaves the entries of the orders that it does not mention, and of every other order what the
last report on it says. The removals of orders that are gone when they come are those that count as
ignored. -/
theorem netBatch_entries (ledger : Ledger) (hne : batch ≠ []) :
    ∃ after deltas, ledger.netBatch batch = .ok (after, deltas) ∧
      (∀ index, lastOn index batch = none → after.get? index = ledger.get? index) ∧
      (∀ index last, lastOn index batch = some last → last.isRemoval = true →
        after.get? index = none) ∧
      (∀ index last, lastOn index batch = some last → last.isRemoval = false →
        ∃ order, after.get? index = some order ∧ order.index = index ∧
          order.price.map Price.value = (if last.price.isNaN then none else some last.price) ∧
          order.size = last.size ∧ order.interest = last.interest ∧ order.time = last.time) ∧
      deltas.ignored = (batch.zipIdx.countP fun (report, position) =>
        ledger.idle (batch.take position) report) ∧
      after.size + (ledger.indices \ after.indices).card =
        ledger.size + (after.indices \ ledger.indices).card := by
  have hget : ∀ index, (ledger.net batch).1.get? index =
      (lastOn index batch).elim (ledger.get? index) Report.left? :=
    Netting.get?_foldl { ledger } batch
  refine ⟨(ledger.net batch).1, (ledger.net batch).2, ?_, fun index hnone => ?_,
    fun index last hlast hout => ?_, fun index last hlast hout => ?_, ?_, size_add_card_sdiff _ _⟩
  · rw [netBatch, if_neg (by simpa using hne)]
  · rw [hget, hnone, Option.elim_none]
  · rw [hget, hlast, Option.elim_some, Report.left?, hout, if_pos rfl]
  · refine ⟨last.resting, ?_, ?_, last.price_of_price?, rfl, rfl, rfl⟩
    · rw [hget, hlast, Option.elim_some, Report.left?, hout, if_neg Bool.false_ne_true]
    · have hfound := List.find?_some hlast
      exact beq_iff_eq.mp hfound
  · exact (Netting.ignored_foldl { ledger } batch).trans (Nat.zero_add _)

/-- The buyer is removed twice and comes back without a price, and the seller goes by a size of zero. -/
def comings : List Report :=
  [.gone 1 1, .gone 1 2, ⟨1, .sell, notANumber, Price.one.value, 3, {}⟩, .gone 3 4,
    ⟨2, .sell, Price.one.value, Price.two.value, 5, {}⟩, ⟨2, .sell, Price.one.value, 0, 6, {}⟩]

theorem netBatch_entries_comings : comings ≠ [] ∧
    ∃ after deltas, pair.netBatch comings = .ok (after, deltas) ∧ deltas.ignored = 2 ∧
      (∃ order, after.get? 1 = some order ∧ order.price.map Price.value = none ∧ order.time = 3) ∧
      after.get? 2 = none ∧ after.get? 3 = none ∧ after.get? 4 = pair.get? 4 := by
  have hne : comings ≠ [] := List.cons_ne_nil _ _
  obtain ⟨after, deltas, hnet, hkept, hgone, hstays, hignored, -⟩ := netBatch_entries pair hne
  have hcount : (comings.zipIdx.countP fun entry =>
      pair.idle (comings.take entry.2) entry.1) = 2 := by decide +kernel
  refine ⟨hne, after, deltas, hnet, hignored.trans hcount, ?_, hgone 2 _ rfl (by decide +kernel),
    hgone 3 _ rfl (by decide +kernel), hkept 4 rfl⟩
  obtain ⟨order, hget, -, hprice, -, -, htime⟩ := hstays 1 _ rfl (by decide +kernel)
  exact ⟨order, hget, hprice, htime⟩

end Ledger

end MarketDepth
