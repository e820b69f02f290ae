import MarketDepth.Proofs.Conservation

/-! Net deltas conserve size. What a batch nets at a price is what the total of the orders there gains
from the ledger before the batch to the ledger after it, and its time is that of the last report with a
hand in it. -/

namespace MarketDepth

variable {S : Set Price} {ledger : Ledger} {batch : List Report}

namespace Ledger

/-- Every order is kept under its own index. -/
def Keyed (ledger : Ledger) : Prop :=
  ∀ index order, ledger.get? index = some order → order.index = index

theorem keyed_empty : Ledger.empty.Keyed := by
  intro index order hget
  rw [get?_empty] at hget
  cases hget

theorem Keyed.insert (h : ledger.Keyed) (order : Resting) : (ledger.insert order).Keyed := by
  intro index other hget
  rw [get?_insert] at hget
  split_ifs at hget with hindex
  · obtain rfl := Option.some.inj hget
    exact hindex
  · exact h index other hget

theorem Keyed.erase (h : ledger.Keyed) (index : Int64) : (ledger.erase index).Keyed := by
  intro other order hget
  rw [get?_erase] at hget
  split_ifs at hget
  exact h other order hget

theorem Keyed.add {net : Netting} (h : net.ledger.Keyed) (report : Report) :
    (net.add report).ledger.Keyed := by
  rcases net.add_cases report with
    ⟨-, -, hadd⟩ | ⟨-, -, hadd⟩ | ⟨order, -, -, hadd⟩ | ⟨order, -, -, hadd⟩
  · rw [hadd]
    exact h
  · rw [hadd, Netting.ledger_book]
    exact h.insert _
  · rw [hadd]
    exact h.erase _
  · rw [hadd, Netting.ledger_book, Netting.ledger_withdraw]
    exact h.insert _

theorem Keyed.foldl {net : Netting} (h : net.ledger.Keyed) (batch : List Report) :
    (batch.foldl Netting.add net).ledger.Keyed := by
  induction batch generalizing net with
  | nil => exact h
  | cons report rest ih => exact ih (h.add report)

theorem Keyed.net (h : ledger.Keyed) (batch : List Report) : (ledger.net batch).1.Keyed := by
  have hstart : ({ ledger } : Netting).ledger.Keyed := h
  exact hstart.foldl batch

/-- The live orders. -/
def restings (ledger : Ledger) : List Resting := ledger.orders.toList.map (·.2)

/-- The sum of the sizes that rest at a price. -/
def totalAt (ledger : Ledger) (side : Side) (price : Price) : Int :=
  MarketDepth.totalAt side price ledger.restings

theorem mem_restings_of_get? {index : Int64} {order : Resting} (h : ledger.get? index = some order) :
    order ∈ ledger.restings :=
  List.mem_map.mpr ⟨(index, order), Std.TreeMap.mem_toList_iff_getElem?_eq_some.mpr h, rfl⟩

theorem Keyed.get?_of_mem (h : ledger.Keyed) {order : Resting} (hin : order ∈ ledger.restings) :
    ledger.get? order.index = some order := by
  obtain ⟨⟨index, found⟩, hentry, rfl⟩ := List.mem_map.mp hin
  have hget : ledger.get? index = some found := Std.TreeMap.mem_toList_iff_getElem?_eq_some.mp hentry
  rwa [h index found hget]

theorem Keyed.distinct (h : ledger.Keyed) : (ledger.restings.map Resting.index).Nodup := by
  rw [restings, List.map_map, List.Nodup, List.pairwise_map]
  refine Std.TreeMap.distinct_keys_toList.imp_of_mem fun {a b} ha hb hne heq => hne ?_
  have hindex : ∀ entry ∈ ledger.orders.toList, entry.2.index = entry.1 := fun entry hin =>
    h entry.1 entry.2 (Std.TreeMap.mem_toList_iff_getElem?_eq_some.mp hin)
  rw [← hindex a ha, ← hindex b hb]
  exact Std.compare_eq_iff_eq.mpr heq

theorem Keyed.remembers (h : ledger.Keyed) : ledger.Remembers ledger.restings := by
  refine ⟨fun index => ?_, ?_⟩
  · cases hget : ledger.get? index with
    | none =>
      refine (List.find?_eq_none.mpr fun order hin hindex => ?_).symm
      have hsome := h.get?_of_mem hin
      rw [beq_iff_eq.mp hindex, hget] at hsome
      cases hsome
    | some order =>
      have hfound := find?_of_mem h.distinct (mem_restings_of_get? hget)
      rw [h index order hget] at hfound
      exact hfound.symm
  · rw [restings, List.length_map, Std.TreeMap.length_toList, Ledger.size]

/-- A ledger holds the orders it remembers and no other. -/
theorem Keyed.perm (h : ledger.Keyed) {orders : List Resting} (hr : ledger.Remembers orders)
    (hd : (orders.map Resting.index).Nodup) : ledger.restings.Perm orders :=
  perm_of_find?_eq h.distinct hd fun index =>
    (h.remembers.get? index).symm.trans (hr.get? index)

theorem Keyed.perm_net (h : ledger.Keyed) (batch : List Report) :
    (ledger.net batch).1.restings.Perm (batch.foldl amend ledger.restings) := by
  have hstart : ({ ledger } : Netting).ledger.Remembers ledger.restings := h.remembers
  exact (h.net batch).perm (Netting.remembers_foldl hstart h.distinct batch)
    (foldl_amend_distinct h.distinct batch)

/-- The report takes from the price what its order had there, or adds to it what it has now. -/
def touches (ledger : Ledger) (side : Side) (price : Price) (report : Report) : Bool :=
  (ledger.get? report.index).any (Resting.standsAt side price) ||
    !report.isRemoval && report.resting.standsAt side price

/-- The reports with a hand in what a batch nets at a price. -/
def touching (side : Side) (price : Price) : Ledger → List Report → List Report
  | _, [] => []
  | ledger, report :: rest =>
    (if ledger.touches side price report then [report] else []) ++
      touching side price (ledger.net [report]).1 rest

end Ledger

namespace Netting

variable {scale : ∀ side, Scale side S} {net : Netting}

theorem ledger_add (net : Netting) (report : Report) :
    (net.add report).ledger = (net.ledger.net [report]).1 := by
  have hadd : (net.ledger.net [report]).1 = (Netting.add { ledger := net.ledger } report).ledger := rfl
  rw [hadd]
  unfold Netting.add
  cases net.ledger.get? report.index with
  | none => cases report.isRemoval <;> simp
  | some order => cases report.isRemoval <;> simp

theorem on_book_of_unpriced (net : Netting) {report : Report} (h : report.price? = none) (side : Side) :
    (net.book report).on side = net.on side := by
  unfold book
  rw [h]
  cases side <;> rfl

theorem on_withdraw_of_unpriced (net : Netting) {order : Resting} (h : order.price = none) (time : Int64)
    (side : Side) : (net.withdraw order time).on side = net.on side := by
  unfold withdraw
  rw [h]
  cases side <;> rfl

theorem on_add_of_unpriced {report : Report} (hnow : report.price? = none)
    (hbefore : ∀ order, net.ledger.get? report.index = some order → order.price = none)
    (side : Side) : (net.add report).on side = net.on side := by
  rcases net.add_cases report with
    ⟨-, -, hadd⟩ | ⟨-, -, hadd⟩ | ⟨order, hget, -, hadd⟩ | ⟨order, hget, -, hadd⟩
  · rw [hadd]
    cases side <;> rfl
  · rw [hadd, on_book_of_unpriced _ hnow]
  · have hout := net.on_withdraw_of_unpriced (hbefore order hget) report.time side
    rw [hadd, ← hout]
    cases side <;> rfl
  · rw [hadd, on_book_of_unpriced _ hnow, on_withdraw_of_unpriced _ (hbefore order hget)]

theorem Sound.time_contribute (h : net.Sound scale) (order : Resting)
    (hp : ∀ price ∈ order.price, price ∈ S) (size : Float) (time : Int64) (side : Side)
    {price : Price} (hin : price ∈ S) :
    (((net.contribute order.interest order.price size time).on side).get? price).map Delta.time =
      if order.standsAt side price then some time
      else ((net.on side).get? price).map Delta.time := by
  by_cases hside : order.interest.side = side
  · subst hside
    cases hprice : order.price with
    | none => simp [Netting.contribute, Resting.standsAt, hprice]
    | some other =>
      have hstands : order.standsAt order.interest.side price = true ↔
          (scale order.interest.side).place price = (scale order.interest.side).place other := by
        rw [← (scale order.interest.side).same_iff hin (hp other hprice)]
        simp [Resting.standsAt, hprice]
      rw [contribute_here, (h.filed _).toOrdered.get?_upsert (hp other hprice) hin]
      simp only [← hstands]
      split_ifs
      · cases (net.on order.interest.side).get? other <;> rfl
      · rfl
  · rw [contribute_there net hside]
    simp [Resting.standsAt, hside]

theorem Sound.time_add (h : net.Sound scale) {report : Report}
    (hp : ∀ price ∈ report.price?, price ∈ S) (side : Side) {price : Price} (hin : price ∈ S) :
    (((net.add report).on side).get? price).map Delta.time =
      if net.ledger.touches side price report then some report.time
      else ((net.on side).get? price).map Delta.time := by
  have hbook : ∀ {net : Netting}, net.Sound scale →
      (((net.book report).on side).get? price).map Delta.time =
        if report.resting.standsAt side price then some report.time
        else ((net.on side).get? price).map Delta.time := fun {net} hs => by
    have hc := hs.time_contribute report.resting hp report.size report.time side hin
    cases side
    · exact hc
    · exact hc
  unfold Ledger.touches
  rcases net.add_cases report with
    ⟨hget, hout, hadd⟩ | ⟨hget, hout, hadd⟩ | ⟨order, hget, hout, hadd⟩ | ⟨order, hget, hout, hadd⟩
  · simp only [hadd, hget, hout, Option.any_none, Bool.not_true, Bool.false_and, Bool.or_self]
    cases side <;> rfl
  · simp only [hadd, hget, hout, Option.any_none, Bool.not_false, Bool.true_and, Bool.false_or]
    exact hbook h
  · simp only [hget, hout, Option.any_some, Bool.not_true, Bool.false_and, Bool.or_false]
    rw [hadd]
    have hout := h.time_contribute order (h.ledger report.index order hget) (-order.size)
      report.time side hin
    cases side
    · exact hout
    · exact hout
  · have hwithdrawn := h.time_contribute order (h.ledger report.index order hget) (-order.size)
      report.time side hin
    simp only [hadd, hget, hout, Option.any_some, Bool.not_false, Bool.true_and]
    rw [hbook (h.withdraw hget report.time), Netting.withdraw, hwithdrawn]
    cases report.resting.standsAt side price <;> cases order.standsAt side price <;> rfl

theorem Sound.time_foldl (h : net.Sound scale) {batch : List Report} (hp : Reported S batch)
    (side : Side) {price : Price} (hin : price ∈ S) :
    (((batch.foldl Netting.add net).on side).get? price).map Delta.time =
      ((net.ledger.touching side price batch).getLast?.map Report.time).or
        (((net.on side).get? price).map Delta.time) := by
  induction batch generalizing net with
  | nil => rfl
  | cons report rest ih =>
    obtain ⟨hr, hrest⟩ := List.forall_mem_cons.mp hp
    rw [List.foldl_cons, ih (h.add hr) hrest, h.time_add hr side hin, ledger_add,
      Ledger.touching, List.getLast?_append]
    cases ((net.ledger.net [report]).1.touching side price rest).getLast? with
    | some last => rfl
    | none => split_ifs <;> rfl

end Netting

theorem mem_foldl_amend {orders : List Resting} {order : Resting}
    (h : order ∈ batch.foldl amend orders) :
    order ∈ orders ∨ ∃ report ∈ batch, report.isRemoval = false ∧ report.resting = order := by
  induction batch generalizing orders with
  | nil => exact .inl h
  | cons report rest ih =>
    rcases ih h with hin | ⟨other, hother, hkept⟩
    · unfold amend at hin
      rcases List.mem_append.mp hin with hin | hin
      · exact .inl (List.mem_of_mem_filter hin)
      · split_ifs at hin with hout
        · cases hin
        · exact .inr ⟨report, List.mem_cons_self, by simpa using hout, (List.mem_singleton.mp hin).symm⟩
    · exact .inr ⟨other, List.mem_cons_of_mem _ hother, hkept⟩

theorem totalAt_perm {orders others : List Resting} (h : orders.Perm others) (side : Side)
    (price : Price) : totalAt side price orders = totalAt side price others :=
  sumAt_perm h

namespace Ledger

/-- What a price gains from one ledger to another. -/
def gain (before after : Ledger) (side : Side) (price : Price) : Int :=
  after.totalAt side price - before.totalAt side price

/-- Whole sizes with exact sums: what a price has gained since the batch began is always a number that a
size can be, after each report, and before it while its order is taken out. -/
structure Summable (S : Set Price) (ledger : Ledger) (batch : List Report) : Prop where
  standing : ∀ order ∈ ledger.restings, ∃ n : Int, Whole n order.size
  reported : ∀ report ∈ batch, report.isRemoval = false → ∃ n : Int, Whole n report.size
  opened : ∀ first report rest, batch = first ++ report :: rest → ∀ side, ∀ price ∈ S,
    ∃ size, Whole (ledger.gain ((ledger.net first).1.erase report.index) side price) size
  passed : ∀ first rest, batch = first ++ rest → ∀ side, ∀ price ∈ S,
    ∃ size, Whole (ledger.gain (ledger.net first).1 side price) size

theorem Summable.whole (h : ledger.Summable S batch) {first rest : List Report}
    (hsplit : batch = first ++ rest) :
    ∀ order ∈ first.foldl amend ledger.restings, ∃ n : Int, Whole n order.size := by
  intro order hin
  rcases mem_foldl_amend hin with hin | ⟨report, hr, hout, rfl⟩
  · exact h.standing order hin
  · exact h.reported report (hsplit ▸ List.mem_append_left rest hr) hout

theorem change_eq_gain (hstanding : ∀ order ∈ ledger.restings, ∃ n : Int, Whole n order.size)
    {after : Ledger} {orders : List Resting} (hafter : ∀ order ∈ orders, ∃ n : Int, Whole n order.size)
    (hperm : after.restings.Perm orders) (side : Side) (price : Price) :
    change ledger.restings orders side price = ledger.gain after side price * 2 ^ 1074 := by
  rw [change, volumeAt_eq_totalAt hafter, volumeAt_eq_totalAt hstanding, ← Int.sub_mul, gain,
    Ledger.totalAt, Ledger.totalAt, totalAt_perm hperm]

theorem reckoned_of_gain (hstanding : ∀ order ∈ ledger.restings, ∃ n : Int, Whole n order.size)
    {after : Ledger} {orders : List Resting} (hafter : ∀ order ∈ orders, ∃ n : Int, Whole n order.size)
    (hperm : after.restings.Perm orders)
    (h : ∀ side, ∀ price ∈ S, ∃ size, Whole (ledger.gain after side price) size) :
    Reckoned S ledger.restings orders := by
  intro side price hp
  obtain ⟨size, hw⟩ := h side price hp
  rw [change_eq_gain hstanding hafter hperm]
  exact hw.sharp

theorem Keyed.perm_erase (h : ledger.Keyed) {orders : List Resting}
    (hperm : ledger.restings.Perm orders) (index : Int64) :
    (ledger.erase index).restings.Perm (without index orders) := by
  have hd := h.distinct
  have hkept : ((without index ledger.restings).map Resting.index).Nodup :=
    hd.sublist (List.filter_sublist.map _)
  exact ((h.erase index).perm (h.remembers.erase hd index) hkept).trans (hperm.filter _)

theorem Summable.tallies (scale : ∀ side, Scale side S) (hkeyed : ledger.Keyed)
    (hknown : ledger.Known S) (hp : Reported S batch) (h : ledger.Summable S batch) :
    (batch.foldl Netting.add { ledger }).Tallies scale ledger.restings
      (batch.foldl amend ledger.restings) := by
  refine (Netting.tallies_start scale hknown hkeyed.remembers).foldl hkeyed.distinct hp ?_ ?_ ?_
  · intro first rest hsplit order hin
    obtain ⟨n, hw⟩ := h.whole hsplit order hin
    exact hw.finite
  · intro first report rest hsplit
    refine reckoned_of_gain h.standing (fun order hin => ?_)
      ((hkeyed.net first).perm_erase (hkeyed.perm_net first) report.index)
      (h.opened first report rest hsplit)
    exact h.whole hsplit order (List.mem_of_mem_filter hin)
  · intro first rest hsplit
    exact reckoned_of_gain h.standing (h.whole hsplit) (hkeyed.perm_net first)
      (h.passed first rest hsplit)

theorem net_concat_of_unpriced (ledger : Ledger) {first : List Report} {report : Report}
    (hnow : report.price? = none)
    (hbefore : ∀ order, (ledger.net first).1.get? report.index = some order → order.price = none)
    (side : Side) :
    (ledger.net (first ++ [report])).2.on side = (ledger.net first).2.on side := by
  rw [Ledger.net, Ledger.net, Netting.deltas_on, Netting.deltas_on, List.foldl_concat,
    Netting.on_add_of_unpriced hnow hbefore]

theorem summable_of_few (hkeyed : ledger.Keyed) (most : Nat)
    (hstanding : ∀ order ∈ ledger.restings, ∃ n : Int, n.natAbs ≤ most ∧ Whole n order.size)
    (hreported : ∀ report ∈ batch, report.isRemoval = false →
      ∃ n : Int, n.natAbs ≤ most ∧ Whole n report.size)
    (hfew : 2 * ((ledger.size + batch.length) * most) < 2 ^ 53) : ledger.Summable S batch := by
  have hbound : ∀ {first rest orders}, batch = first ++ rest →
      orders.Sublist (first.foldl amend ledger.restings) → ∀ side price,
      (MarketDepth.totalAt side price orders).natAbs ≤ (ledger.size + batch.length) * most := by
    intro first rest orders hsplit hsub
    refine natAbs_totalAt_le_of_length (fun order hin => ?_) ?_
    · rcases mem_foldl_amend (hsub.subset hin) with hold | ⟨report, hr, hout, rfl⟩
      · exact hstanding order hold
      · exact hreported report (hsplit ▸ List.mem_append_left rest hr) hout
    · rw [hkeyed.remembers.size, hsplit, List.length_append, ← Nat.add_assoc]
      exact (hsub.length_le.trans (length_foldl_amend_le _ first)).trans (Nat.le_add_right _ _)
  have hgain : ∀ {first rest orders} {after : Ledger}, batch = first ++ rest →
      orders.Sublist (first.foldl amend ledger.restings) → after.restings.Perm orders →
      ∀ side price, ∃ size, Whole (ledger.gain after side price) size := by
    intro first rest orders after hsplit hsub hperm side price
    have hbefore := hbound (List.nil_append batch).symm (List.Sublist.refl _) side price
    have hafter := hbound hsplit hsub side price
    rw [← totalAt_perm hperm] at hafter
    refine Whole.exists_of_natAbs_lt ?_
    simp only [gain, Ledger.totalAt, List.foldl_nil] at hbefore ⊢
    omega
  refine ⟨fun order hin => (hstanding order hin).imp fun _ => And.right,
    fun report hin hout => (hreported report hin hout).imp fun _ => And.right, ?_, ?_⟩
  · intro first report rest hsplit side price _
    exact hgain hsplit List.filter_sublist
      ((hkeyed.net first).perm_erase (hkeyed.perm_net first) report.index) side price
  · intro first rest hsplit side price _
    exact hgain hsplit (List.Sublist.refl _) (hkeyed.perm_net first) side price

/-- What a batch nets, side by side: the prices where a total has changed, best first and each of them once,
with what was gained there and the time of the last report with a hand in it. A report that neither finds
nor leaves a price changes nothing of this. -/
theorem net_conserves (hS : Unchained S) (hkeyed : ledger.Keyed) (hknown : ledger.Known S)
    (hp : Reported S batch) (hne : batch ≠ []) (h : ledger.Summable S batch) :
    ∃ after deltas, ledger.netBatch batch = .ok (after, deltas) ∧ ∀ side,
      (deltas.on side).Pairwise (fun a b => side.rank a.price b.price = .lt) ∧
      (∀ price ∈ S, (deltas.on side).countP (fun delta => side.same price delta.price) =
        if ledger.gain after side price = 0 then 0 else 1) ∧
      (∀ delta ∈ deltas.on side, Whole (ledger.gain after side delta.price) delta.size ∧
        (ledger.touching side delta.price batch).getLast?.map Report.time = some delta.time) ∧
      ∀ first report rest, batch = first ++ report :: rest → report.price? = none →
        (∀ order, (ledger.net first).1.get? report.index = some order → order.price = none) →
          (ledger.net (first ++ [report])).2.on side = (ledger.net first).2.on side := by
  have scale : ∀ side, Scale side S := fun side => (hS.scale side).some
  have hnet := h.tallies scale hkeyed hknown hp
  have hwhole : batch = batch ++ [] := (List.append_nil _).symm
  have hperm := hkeyed.perm_net batch
  refine ⟨(ledger.net batch).1, (ledger.net batch).2, ?_, fun side => ?_⟩
  · rw [netBatch, if_neg (by simpa using hne)]
  have hfiled := hnet.sound.filed side
  have hgathers := hnet.gathers side
  have hchange := change_eq_gain h.standing (h.whole hwhole) hperm side
  have hzero : ∀ price, change ledger.restings (batch.foldl amend ledger.restings) side price = 0 ↔
      ledger.gain (ledger.net batch).1 side price = 0 := fun price => by
    rw [hchange, Int.mul_eq_zero, or_iff_left (pow_ne_zero _ (by decide))]
  have hsharp := fun price (hin : price ∈ S) => (h.passed batch [] hwhole side price hin).elim
    fun size hw => hchange price ▸ hw.sharp
  -- A delta is what has been gathered at its own price and at every price equal to it.
  have hmem : ∀ delta, delta ∈ (ledger.net batch).2.on side ↔
      delta ∈ ((batch.foldl Netting.add { ledger }).on side).values ∧
        negligible delta.size = false := by
    intro delta
    rw [net, Netting.deltas_on, List.mem_filter, Bool.not_eq_true']
  have hprice : ∀ delta ∈ (ledger.net batch).2.on side, delta.price ∈ S := fun delta hin =>
    hfiled.known_of_mem ((hmem delta).mp hin).1
  have hbest : BestFirst (scale side) Delta.price ((ledger.net batch).2.on side) := by
    rw [net, Netting.deltas_on]
    exact hfiled.bestFirst.sublist List.filter_sublist
  refine ⟨?_, fun price hin => ?_, fun delta hin => ?_, fun first report rest _ hnow hbefore => ?_⟩
  · exact hbest.imp_of_mem fun {a b} ha hb hlt =>
      ((scale side).rank_lt (hprice a ha) (hprice b hb)).mpr hlt
  · split_ifs with hgain
    · refine List.countP_eq_zero.mpr fun delta hdelta hsame => ?_
      obtain ⟨hvalue, hkeep⟩ := (hmem delta).mp hdelta
      have hplace := ((scale side).same_iff hin (hprice delta hdelta)).mp hsame
      have hc := hgathers.present price hin delta ((hfiled.get?_eq_some hin).mpr ⟨hvalue, hplace.symm⟩)
      rw [(hc.negligible_iff (hsharp price hin)).mpr ((hzero price).mpr hgain)] at hkeep
      cases hkeep
    · refine le_antisymm (hbest.countP_le_one hprice hin) (List.countP_pos_iff.mpr ?_)
      by_contra hnone
      refine hgain ((hzero price).mp (hgathers.unmoved hfiled hin (hsharp price hin) ?_))
      intro delta hdelta hplace
      have hout : delta ∈ (ledger.net batch).2.on side := by
        rwa [net, Netting.deltas_on]
      exact hnone ⟨delta, hout, ((scale side).same_iff hin (hprice delta hout)).mpr hplace.symm⟩
  · have hget := (hfiled.mem_values (hprice delta hin)).mp ((hmem delta).mp hin).1
    have hstart : Netting.Sound scale { ledger } := Netting.sound_start hknown
    have htime := hstart.time_foldl hp side (hprice delta hin)
    have hempty : ((Netting.on { ledger } side).get? delta.price).map Delta.time = none := by
      cases side <;> rfl
    rw [hget, hempty, Option.or_none] at htime
    refine ⟨Whole.counts_iff.mpr ?_, htime.symm⟩
    rw [← hchange]
    exact hgathers.present delta.price (hprice delta hin) delta hget
  · exact net_concat_of_unpriced ledger hnow hbefore side

/-- A buyer at one and a seller who has named no price yet. -/
def pair : Ledger :=
  (Ledger.empty.insert ⟨1, some .one, Price.two.value, .buy, 0⟩).insert
    ⟨2, none, Price.one.value, .sell, 0⟩

/-- The buyer moves and then turns seller, the other seller names a price and leaves, and a new buyer comes. -/
def dealings : List Report :=
  [⟨1, .buy, Price.two.value, Price.two.value, 1, {}⟩,
    ⟨2, .sell, Price.one.value, Price.one.value, 2, {}⟩,
    ⟨1, .sell, Price.two.value, Price.one.value, 3, {}⟩, .gone 2 4,
    ⟨3, .buy, Price.one.value, Price.one.value, 5, {}⟩]

theorem net_conserves_dealings :
    let S := {price | price ∈ [Price.one, Price.two]}
    let marks := fun delta : Delta => (totalKey delta.price.value, delta.time)
    Unchained S ∧ pair.Keyed ∧ pair.Known S ∧ Reported S dealings ∧ dealings ≠ [] ∧
      pair.Summable S dealings ∧
      ∃ after deltas, pair.netBatch dealings = .ok (after, deltas) ∧
        deltas.asks.map marks = [(totalKey Price.two.value, 3)] ∧
        deltas.bids.map marks = [(totalKey Price.one.value, 5)] ∧
        ∀ side, ∀ delta ∈ deltas.on side, Whole (pair.gain after side delta.price) delta.size := by
  intro S marks
  have hkeyed : pair.Keyed := (keyed_empty.insert _).insert _
  have hknown : pair.Known S := by
    refine (known_empty.insert ?_).insert ?_
    · rintro price hprice
      obtain rfl := Option.some.inj hprice
      simp [S]
    · rintro price hprice
      cases hprice
  have hp : Reported S dealings := by
    have hone : Price.ofFloat? Price.one.value = some .one := rfl
    have htwo : Price.ofFloat? Price.two.value = some .two := rfl
    have hnone : Price.ofFloat? notANumber = none := rfl
    intro report hin price hprice
    simp only [dealings, List.mem_cons, List.not_mem_nil, or_false] at hin
    rcases hin with rfl | rfl | rfl | rfl | rfl
    all_goals simp_all [Report.price?, Report.gone, S]
  have hsummable : pair.Summable S dealings := by
    refine summable_of_few hkeyed 2 (fun order hin => ?_) (fun report hin hout => ?_) (by decide)
    · have hall : pair.All fun order => ∃ n : Int, n.natAbs ≤ 2 ∧ Whole n order.size :=
        (all_empty.insert ⟨2, by decide, Whole.two⟩).insert ⟨1, by decide, Whole.one⟩
      exact hall order.index order (hkeyed.get?_of_mem hin)
    · simp only [dealings, List.mem_cons, List.not_mem_nil, or_false] at hin
      rcases hin with rfl | rfl | rfl | rfl | rfl
      · exact ⟨2, by decide, Whole.two⟩
      · exact ⟨1, by decide, Whole.one⟩
      · exact ⟨1, by decide, Whole.one⟩
      · cases hout
      · exact ⟨1, by decide, Whole.one⟩
  obtain ⟨after, deltas, hnet, hdeltas⟩ :=
    net_conserves unchained_one_two hkeyed hknown hp (by decide) hsummable
  have hresult : (after, deltas) = pair.net dealings := (Except.ok.inj hnet).symm
  refine ⟨unchained_one_two, hkeyed, hknown, hp, by decide, hsummable, after, deltas, hnet, ?_, ?_,
    fun side delta hin => ((hdeltas side).2.2.1 delta hin).1⟩
  · rw [show deltas = (pair.net dealings).2 from congrArg Prod.snd hresult]
    decide +kernel
  · rw [show deltas = (pair.net dealings).2 from congrArg Prod.snd hresult]
    decide +kernel

end Ledger

end MarketDepth
