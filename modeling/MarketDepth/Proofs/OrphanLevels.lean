import MarketDepth.Proofs.BookTotals

/-! Levels without orders. A level goes when its last order does only if the sizes that came sum up
exactly; a sum that was rounded can leave a residue at a price where no order stands any more. -/

namespace MarketDepth

variable {S : Set Price} {scale : ∀ side, Scale side S} {orders : List Resting}

namespace Ledger

/-- A live order of the ledger stands at the price. -/
def Holds (ledger : Ledger) (side : Side) (price : Price) : Prop :=
  ∃ index order, ledger.get? index = some order ∧ order.standsAt side price = true

end Ledger

namespace Book

variable {depth grain : Nat} {ladders : ∀ side, Ladder side Level} {book : Book} {side : Side}

theorem Keeps.get?_eq_none_iff (h : book.Keeps scale depth ladders orders) (ho : Exact grain S orders)
    {price : Price} (hp : price ∈ S) : (book.on side).get? price = none ↔
      ¬ ∃ order ∈ orders, order.standsAt side price = true := by
  rw [h.shaped.window, ← sumAt_pos_iff ho.sized.steps_pos, Int.not_lt]
  constructor
  · exact (h.levels side).absent price hp
  · intro hnone
    rw [Option.eq_none_iff_forall_ne_some]
    intro level hget
    exact ((h.levels side).present price hp level hget).1.not_ge hnone

theorem Keeps.holds_iff (h : book.Keeps scale depth ladders orders)
    (hd : (orders.map Resting.index).Nodup) {price : Price} : book.ledger.Holds side price ↔
      ∃ order ∈ orders, order.standsAt side price = true := by
  constructor
  · rintro ⟨index, order, hget, hstands⟩
    rw [h.ledger.get?] at hget
    exact ⟨order, List.mem_of_find?_eq_some hget, hstands⟩
  · rintro ⟨order, hin, hstands⟩
    exact ⟨order.index, order, (h.ledger.get? _).trans (find?_of_mem hd hin), hstands⟩

theorem Keeps.isEmpty (h : book.Keeps scale depth ladders orders) (ho : Exact grain S orders)
    (hnone : book.orderCount = 0) (side : Side) : (book.on side).isEmpty = true := by
  have horders : orders = [] := List.length_eq_zero_iff.mp (h.ledger.size.symm.trans hnone)
  subst horders
  have hfiled := h.shaped.filed side
  have hvalues : (book.on side).levels.values = [] := by
    refine List.eq_nil_iff_forall_not_mem.mpr fun level hin => ?_
    rw [h.shaped.window] at hin
    have hp : level.price ∈ S := hfiled.known_of_mem hin
    have hget : (book.on side).get? level.price = some level := by
      rw [h.shaped.window]
      exact (hfiled.get?_eq_some hp).mpr ⟨hin, rfl⟩
    have habsent : (book.on side).get? level.price = none :=
      (h.get?_eq_none_iff ho hp).mpr (by simp)
    cases habsent.symm.trans hget
  exact List.isEmpty_iff.mpr (List.map_eq_nil_iff.mp hvalues)

/-- As long as sizes sum up exactly, there is a level at just the prices at which a live order stands,
and none at all once no order is live. -/
theorem run_no_orphans (symbol : Symbol) (source : Source) (depth : Nat)
    (batches : List (List Report × Bool)) (hS : Unchained (pricesOf batches))
    (hG : Grained grain batches) :
    let book := (Book.empty symbol source depth).run batches
    (∀ side, ∀ price ∈ pricesOf batches,
      (book.on side).get? price = none ↔ ¬ book.ledger.Holds side price) ∧
    (book.orderCount = 0 → ∀ side, (book.on side).isEmpty = true) := by
  have scale : ∀ side, Scale side (pricesOf batches) := fun side => (hS.scale side).some
  have hstart : (Book.empty symbol source depth).Keeps scale depth (fun _ => .empty) [] :=
    keeps_empty symbol source depth
  obtain ⟨ladders, hkeeps⟩ := hstart.run (reported_pricesOf batches) fun seen hm => hG.exact hm
  refine ⟨fun side price hp => ?_, fun hcount => hkeeps.isEmpty hG.exact_last hcount⟩
  rw [hkeeps.holds_iff hG.exact_last.distinct]
  exact hkeeps.get?_eq_none_iff hG.exact_last hp

/-- A bid of three quarters and one of a half at one price, then both are gone. -/
def quarters : List (List Report × Bool) :=
  [([⟨1, .buy, Price.one.value, Float.ofBits 0x3FE8000000000000, 0, {}⟩], false),
    ([⟨2, .buy, Price.one.value, Float.ofBits 0x3FE0000000000000, 0, {}⟩], false),
    ([.gone 1 1], false), ([.gone 2 1], false)]

theorem grained_quarters : Grained 1072 quarters := by
  have hthree : Counts (3 * 2 ^ 1072) (Float.ofBits 0x3FE8000000000000) :=
    ⟨by decide, by decide +kernel⟩
  have htwo : Counts (2 * 2 ^ 1072) (Float.ofBits 0x3FE0000000000000) :=
    ⟨by decide, by decide +kernel⟩
  have hgone : ∀ index, (Report.gone index 1).isRemoval = true := fun _ => by
    simp [Report.isRemoval, Report.gone, Flags.isRemoval, Flags.has, Flags.removal]
  refine grained_of_few (by decide) (by decide) 3 ?_ (by decide)
  intro batch hbatch report hreport hout
  simp only [quarters, List.mem_cons, List.not_mem_nil, or_false] at hbatch
  rcases hbatch with rfl | rfl | rfl | rfl <;> obtain rfl := List.mem_singleton.mp hreport
  · exact ⟨3, by decide, by decide, hthree⟩
  · exact ⟨2, by decide, by decide, htwo⟩
  · cases (hgone 1).symm.trans hout
  · cases (hgone 2).symm.trans hout

theorem run_no_orphans_quarters : Unchained (pricesOf quarters) ∧ Grained 1072 quarters ∧
    ((Book.empty ⟨"X"⟩ ⟨"Y"⟩ 1).run quarters).orderCount = 0 ∧
    ∀ side, (((Book.empty ⟨"X"⟩ ⟨"Y"⟩ 1).run quarters).on side).isEmpty = true := by
  have hS : Unchained (pricesOf quarters) := unchained_pricesOf (by decide)
  have hcount : ((Book.empty ⟨"X"⟩ ⟨"Y"⟩ 1).run quarters).orderCount = 0 := by decide +kernel
  exact ⟨hS, grained_quarters, hcount,
    (run_no_orphans ⟨"X"⟩ ⟨"Y"⟩ 1 quarters hS grained_quarters).2 hcount⟩

/-- A bid of 100.1 and one of 0.7 at one price, then both are gone. -/
def tenths : List (List Report × Bool) :=
  [([⟨1, .buy, Price.one.value, Float.ofBits 0x4059066666666666, 0, {}⟩], false),
    ([⟨2, .buy, Price.one.value, Float.ofBits 0x3FE6666666666666, 0, {}⟩], false),
    ([.gone 1 1], false), ([.gone 2 1], false)]

/-- What was lost when 0.7 was added to 100.1 is left when both are taken back. -/
theorem run_orphan_tenths : Unchained (pricesOf tenths) ∧
    (∀ batch ∈ tenths, ∀ report ∈ batch.1, report.isRemoval = false →
      0 < report.size ∧ report.size.isFinite = true) ∧
    ((Book.empty ⟨"X"⟩ ⟨"Y"⟩ 0).run tenths).orderCount = 0 ∧
    (((Book.empty ⟨"X"⟩ ⟨"Y"⟩ 0).run tenths).on .bid).get? .one ≠ none := by
  refine ⟨unchained_pricesOf (by decide), by decide +kernel, by decide +kernel, ?_⟩
  rw [Option.ne_none_iff_isSome]
  decide +kernel

end Book

end MarketDepth
