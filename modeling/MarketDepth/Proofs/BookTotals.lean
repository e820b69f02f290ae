import Mathlib.Data.List.Induction
import MarketDepth.Proofs.BookShape
import MarketDepth.Proofs.Conservation
import MarketDepth.Proofs.WindowRuns

/-! The book against its live orders. Orders are forgotten at a fresh batch and replaced one by one
after it; the ledger remembers just the live ones, and the levels are the totals of their prices. -/

namespace MarketDepth

variable {S : Set Price} {scale : ∀ side, Scale side S}

def sinceFresh (batches : List (List Report × Bool)) : List Report :=
  batches.foldl (fun seen batch => (if batch.2 then [] else seen) ++ batch.1) []

theorem sinceFresh_concat (batches : List (List Report × Bool)) (reports : List Report)
    (fresh : Bool) : sinceFresh (batches ++ [(reports, fresh)]) =
      (if fresh then [] else sinceFresh batches) ++ reports := by
  rw [sinceFresh, List.foldl_append]
  rfl

theorem mem_sinceFresh {batches : List (List Report × Bool)} {report : Report}
    (h : report ∈ sinceFresh batches) : ∃ batch ∈ batches, report ∈ batch.1 := by
  induction batches using List.reverseRecOn with
  | nil => cases h
  | append_singleton batches batch ih =>
    obtain ⟨reports, fresh⟩ := batch
    rw [sinceFresh_concat] at h
    rcases List.mem_append.mp h with hold | hnew
    · cases fresh with
      | true => cases hold
      | false =>
        obtain ⟨batch, hin, hr⟩ := ih hold
        exact ⟨batch, List.mem_append_left _ hin, hr⟩
    · exact ⟨_, List.mem_append_right _ List.mem_cons_self, hnew⟩

/-- What is known at some moment of a run, which may be in the middle of a batch. -/
def Moment (batches : List (List Report × Bool)) (seen : List Report) : Prop :=
  ∃ history reports more fresh rest, batches = history ++ (reports ++ more, fresh) :: rest ∧
    seen = sinceFresh (history ++ [(reports, fresh)])

theorem Moment.mono {batches : List (List Report × Bool)} {seen : List Report}
    (h : Moment batches seen) (later : List (List Report × Bool)) :
    Moment (batches ++ later) seen := by
  obtain ⟨history, reports, more, fresh, rest, rfl, rfl⟩ := h
  exact ⟨history, reports, more, fresh, rest ++ later, by simp, rfl⟩

theorem Moment.mem {batches : List (List Report × Bool)} {seen : List Report} {report : Report}
    (h : Moment batches seen) (hr : report ∈ seen) : ∃ batch ∈ batches, report ∈ batch.1 := by
  obtain ⟨history, reports, more, fresh, rest, rfl, rfl⟩ := h
  obtain ⟨batch, hin, hb⟩ := mem_sinceFresh hr
  rcases List.mem_append.mp hin with hold | hnew
  · exact ⟨batch, List.mem_append_left _ hold, hb⟩
  · obtain rfl := List.mem_singleton.mp hnew
    exact ⟨_, List.mem_append_right _ List.mem_cons_self, List.mem_append_left _ hb⟩

/-- Live sizes are positive whole numbers and their sums at a price never reach two to the power of
53, so sizes add up without loss. -/
structure Lossless (batches : List (List Report × Bool)) : Prop where
  sizes : ∀ batch ∈ batches, ∀ report ∈ batch.1, report.isRemoval = false →
    ∃ n : Int, 0 < n ∧ Whole n report.size
  sums : ∀ seen, Moment batches seen → ∀ side, ∀ price ∈ Book.pricesOf batches,
    totalAt side price (live seen) < 2 ^ 53

/-- Live sizes are positive multiples of one grain, no finer than the tolerance, and their sums at a price
never reach two to the power of 53 of it. -/
structure Grained (grain : Nat) (batches : List (List Report × Bool)) : Prop where
  tolerable : 1022 ≤ grain
  finite : grain ≤ 2045
  sizes : ∀ batch ∈ batches, ∀ report ∈ batch.1, report.isRemoval = false →
    ∃ n : Int, 0 < n ∧ Counts (n * 2 ^ grain) report.size
  sums : ∀ seen, Moment batches seen → ∀ side, ∀ price ∈ Book.pricesOf batches,
    volumeAt side price (live seen) < 2 ^ 53 * 2 ^ grain

namespace Grained

variable {grain : Nat} {batches : List (List Report × Bool)} {seen : List Report}

theorem exact (h : Grained grain batches) (hm : Moment batches seen) :
    Exact grain (Book.pricesOf batches) (live seen) := by
  refine ⟨h.tolerable, h.finite, live_distinct seen, fun order hin => ?_, h.sums seen hm⟩
  obtain ⟨report, hr, hout, rfl⟩ := mem_live hin
  obtain ⟨batch, hbatch, hrb⟩ := hm.mem hr
  exact h.sizes batch hbatch report hrb hout

theorem exact_last (h : Grained grain batches) :
    Exact grain (Book.pricesOf batches) (live (sinceFresh batches)) := by
  rcases List.eq_nil_or_concat batches with rfl | ⟨history, ⟨reports, fresh⟩, rfl⟩
  · exact Exact.nil h.tolerable h.finite
  · rw [List.concat_eq_append] at h ⊢
    exact h.exact ⟨history, reports, [], fresh, [], by rw [List.append_nil], rfl⟩

end Grained

theorem Lossless.grained {batches : List (List Report × Bool)} (h : Lossless batches) :
    Grained 1074 batches := by
  refine ⟨by decide, by decide, fun batch hb report hr hout => ?_, fun seen hm side price hp => ?_⟩
  · obtain ⟨n, hn, hw⟩ := h.sizes batch hb report hr hout
    exact ⟨n, hn, Whole.counts_iff.mp hw⟩
  · have hwhole : ∀ order ∈ live seen, ∃ n : Int, Whole n order.size := by
      intro order hin
      obtain ⟨report, hr, hout, rfl⟩ := mem_live hin
      obtain ⟨batch, hbatch, hrb⟩ := hm.mem hr
      obtain ⟨n, -, hw⟩ := h.sizes batch hbatch report hrb hout
      exact ⟨n, hw⟩
    rw [volumeAt_eq_totalAt hwhole, ← unit_eq]
    exact Int.mul_lt_mul_of_pos_right (h.sums seen hm side price hp) unit_pos

theorem Lossless.exact {batches : List (List Report × Bool)} (h : Lossless batches)
    {seen : List Report} (hm : Moment batches seen) :
    Exact 1074 (Book.pricesOf batches) (live seen) :=
  h.grained.exact hm

theorem Lossless.exact_last {batches : List (List Report × Bool)} (h : Lossless batches) :
    Exact 1074 (Book.pricesOf batches) (live (sinceFresh batches)) :=
  h.grained.exact_last

def reportCount (batches : List (List Report × Bool)) : Nat :=
  (batches.map fun batch => batch.1.length).sum

theorem length_sinceFresh_le (batches : List (List Report × Bool)) :
    (sinceFresh batches).length ≤ reportCount batches := by
  induction batches using List.reverseRecOn with
  | nil => exact le_rfl
  | append_singleton batches batch ih =>
    obtain ⟨reports, fresh⟩ := batch
    have hcount : reportCount (batches ++ [(reports, fresh)]) =
        reportCount batches + reports.length := by simp [reportCount]
    rw [sinceFresh_concat, List.length_append, hcount]
    cases fresh with
    | true => simp
    | false => exact Nat.add_le_add_right ih _

/-- There are never more live orders than reports. -/
theorem Moment.natAbs_sumAt_le {batches : List (List Report × Bool)} {seen : List Report}
    (hm : Moment batches seen) {worth : Resting → Int} {most : Nat}
    (h : ∀ batch ∈ batches, ∀ report ∈ batch.1, report.isRemoval = false →
      (worth report.resting).natAbs ≤ most) (side : Side) (price : Price) :
    (sumAt worth side price (live seen)).natAbs ≤ reportCount batches * most := by
  have hlive : ∀ order ∈ live seen, (worth order).natAbs ≤ most := by
    intro order hin
    obtain ⟨report, hr, hout, rfl⟩ := mem_live hin
    obtain ⟨batch, hbatch, hrb⟩ := hm.mem hr
    exact h batch hbatch report hrb hout
  have hlength : (live seen).length ≤ reportCount batches := by
    obtain ⟨history, reports, more, fresh, rest, rfl, rfl⟩ := hm
    refine (length_live_le _).trans ((length_sinceFresh_le _).trans ?_)
    simp [reportCount]
    omega
  exact (MarketDepth.natAbs_sumAt_le hlive).trans (Nat.mul_le_mul_right most hlength)

theorem lossless_of_few {batches : List (List Report × Bool)} (most : Nat)
    (hsizes : ∀ batch ∈ batches, ∀ report ∈ batch.1, report.isRemoval = false →
      ∃ n : Int, 0 < n ∧ n ≤ most ∧ Whole n report.size)
    (hfew : reportCount batches * most < 2 ^ 53) : Lossless batches := by
  refine ⟨fun batch hb report hr hout => ?_, fun seen hm side price _ => ?_⟩
  · obtain ⟨n, hn, -, hw⟩ := hsizes batch hb report hr hout
    exact ⟨n, hn, hw⟩
  · have hsum : (totalAt side price (live seen)).natAbs ≤ reportCount batches * most := by
      refine hm.natAbs_sumAt_le (fun batch hb report hr hout => ?_) side price
      obtain ⟨n, hn, hle, hw⟩ := hsizes batch hb report hr hout
      have hunits : units report.resting.size = n := hw.units
      omega
    omega

theorem grained_of_few {grain : Nat} (hlo : 1022 ≤ grain) (hhi : grain ≤ 2045)
    {batches : List (List Report × Bool)} (most : Nat)
    (hsizes : ∀ batch ∈ batches, ∀ report ∈ batch.1, report.isRemoval = false →
      ∃ n : Int, 0 < n ∧ n ≤ most ∧ Counts (n * 2 ^ grain) report.size)
    (hfew : reportCount batches * most < 2 ^ 53) : Grained grain batches := by
  refine ⟨hlo, hhi, fun batch hb report hr hout => ?_, fun seen hm side price _ => ?_⟩
  · obtain ⟨n, hn, -, hc⟩ := hsizes batch hb report hr hout
    exact ⟨n, hn, hc⟩
  · have hsum : (volumeAt side price (live seen)).natAbs ≤
        reportCount batches * (most * 2 ^ grain) := by
      refine hm.natAbs_sumAt_le (fun batch hb report hr hout => ?_) side price
      obtain ⟨n, hn, hle, hc⟩ := hsizes batch hb report hr hout
      have hsteps : steps report.resting.size = n * 2 ^ grain := hc.steps
      rw [hsteps, Int.natAbs_mul, Int.natAbs_pow]
      exact Nat.mul_le_mul_right _ (by omega)
    have hlt : reportCount batches * (most * 2 ^ grain) < 2 ^ 53 * 2 ^ grain := by
      rw [← Nat.mul_assoc]
      exact Nat.mul_lt_mul_of_pos_right hfew (Nat.two_pow_pos grain)
    calc volumeAt side price (live seen) ≤ (volumeAt side price (live seen)).natAbs := Int.le_natAbs
      _ < (2 ^ 53 * 2 ^ grain : Nat) := Int.ofNat_lt.mpr (hsum.trans_lt hlt)
      _ = 2 ^ 53 * 2 ^ grain := by push_cast; rfl

namespace Book

variable {depth : Nat} {ladders : ∀ side, Ladder side Level} {book : Book} {orders : List Resting}
  {seen reports : List Report}

structure Keeps (scale : ∀ side, Scale side S) (depth : Nat) (ladders : ∀ side, Ladder side Level)
    (orders : List Resting) (book : Book) : Prop where
  shaped : book.Shaped scale depth ladders
  ledger : book.ledger.Remembers orders
  levels : ∀ side, (ladders side).Stocks S orders

theorem keeps_empty (symbol : Symbol) (source : Source) (depth : Nat) :
    (Book.empty symbol source depth).Keeps scale depth (fun _ => .empty) [] :=
  ⟨shaped_empty symbol source depth, Ledger.remembers_empty, fun _ => Ladder.stocks_empty⟩

theorem Keeps.clear (h : book.Keeps scale depth ladders orders) :
    book.clear.Keeps scale depth (fun _ => .empty) [] :=
  ⟨h.shaped.clear, Ledger.remembers_empty, fun _ => Ladder.stocks_empty⟩

theorem Keeps.update (h : book.Keeps scale depth ladders (live seen)) (hp : Reported S reports)
    (hc : Clear S seen reports) :
    (book.update reports).1.Keeps scale depth
        (fun side => Window.settle (ladders side) ((book.ledger.net reports).2.on side))
        (live (seen ++ reports)) ∧
      ((∀ side, ∀ price ∈ S, 0 ≤ volumeAt side price (live (seen ++ reports))) →
        ∀ side, ∀ delta ∈ (book.ledger.net reports).2.on side, (book.on side).Covers delta) := by
  have htallies := Netting.tallies_net scale h.shaped.ledger h.ledger hp hc.reckonable
  have hend := hc.passed reports [] (List.append_nil _).symm
  have hsettle := fun side => (h.levels side).settle (h.shaped.filed side) (htallies.gathers side)
    (htallies.sound.filed side) (hc.solvent side) (hend side) (hc.held side)
    (Netting.deltas_on _ side)
  refine ⟨⟨(h.shaped.update hp).1, htallies.ledger, fun side => (hsettle side).1⟩, ?_⟩
  intro hsolvent side delta hin
  have hcovers := (hsettle side).2 (hsolvent side) delta hin
  rw [h.shaped.window]
  exact ⟨hcovers.unknown, hcovers.known⟩

theorem Keeps.base (h : book.Keeps scale depth ladders (live seen)) (fresh : Bool) :
    ∃ ladders, (book.base fresh).Keeps scale depth ladders (live (if fresh then [] else seen)) := by
  cases fresh with
  | true => exact ⟨_, h.clear⟩
  | false => exact ⟨_, h⟩

theorem Keeps.step (h : book.Keeps scale depth ladders (live seen)) (hp : Reported S reports)
    (fresh : Bool) (hc : Clear S (if fresh then [] else seen) reports) :
    ∃ ladders, (book.process reports fresh).1.Keeps scale depth ladders
      (live ((if fresh then [] else seen) ++ reports)) := by
  obtain ⟨ladders, hbase⟩ := h.base fresh
  rcases book.process_cases reports fresh with ⟨rfl, hon, hledger, -⟩ | ⟨hbook, -⟩
  · rw [List.append_nil]
    exact ⟨ladders, hbase.shaped.congr hon hledger, hledger ▸ hbase.ledger, hbase.levels⟩
  · rw [hbook]
    exact ⟨_, (hbase.update hp hc).1⟩

theorem Keeps.run_of_clear {start : Book} {batches : List (List Report × Bool)}
    (h : start.Keeps scale depth ladders []) (hp : ∀ batch ∈ batches, Reported S batch.1)
    (hc : ∀ history reports fresh rest, batches = history ++ (reports, fresh) :: rest →
      Clear S (if fresh then [] else sinceFresh history) reports) :
    ∃ ladders, (start.run batches).Keeps scale depth ladders (live (sinceFresh batches)) := by
  induction batches using List.reverseRecOn with
  | nil => exact ⟨ladders, h⟩
  | append_singleton batches batch ih =>
    obtain ⟨reports, fresh⟩ := batch
    obtain ⟨hpast, hlast⟩ := List.forall_mem_append.mp hp
    obtain ⟨ladders', hkeeps⟩ := ih hpast fun history reports fresh rest hsplit =>
      hc history reports fresh (rest ++ _) (by rw [hsplit, List.append_assoc, List.cons_append])
    rw [run_concat, sinceFresh_concat]
    exact hkeeps.step (hlast _ List.mem_cons_self) fresh (hc batches reports fresh [] rfl)

theorem Keeps.process (h : book.Keeps scale depth ladders (live seen)) (hp : Reported S reports)
    (fresh : Bool) (ho : ∀ first rest, reports = first ++ rest →
      Exact 1074 S (live ((if fresh then [] else seen) ++ first))) :
    (∃ ladders, (book.process reports fresh).1.Keeps scale depth ladders
        (live ((if fresh then [] else seen) ++ reports))) ∧
      ∀ side, ∀ delta ∈ ((book.base fresh).ledger.net reports).2.on side,
        ((book.base fresh).on side).Covers delta := by
  have hc := Exact.clear ho
  obtain ⟨_, hbase⟩ := h.base fresh
  refine ⟨h.step hp fresh hc, (hbase.update hp hc).2 fun side price _ => ?_⟩
  exact sumAt_nonneg (ho reports [] (List.append_nil _).symm).sized.steps_pos

theorem Keeps.run {start : Book} {grain : Nat} {batches : List (List Report × Bool)}
    (h : start.Keeps scale depth ladders []) (hp : ∀ batch ∈ batches, Reported S batch.1)
    (ho : ∀ seen, Moment batches seen → Exact grain S (live seen)) :
    ∃ ladders, (start.run batches).Keeps scale depth ladders (live (sinceFresh batches)) := by
  refine h.run_of_clear hp fun history reports fresh rest hsplit => ?_
  have hexact : ∀ first more, reports = first ++ more →
      Exact grain S (live ((if fresh then [] else sinceFresh history) ++ first)) := by
    intro first more hmore
    rw [← sinceFresh_concat]
    exact ho _ ⟨history, first, more, fresh, rest, by rw [hsplit, hmore], rfl⟩
  exact Exact.clear hexact

/-- Levels, best first, that are the totals of the orders standing at their prices. -/
structure Aggregates (side : Side) (orders : List Resting) (levels : List Level) : Prop where
  backed : ∀ level ∈ levels, ∃ order ∈ orders, order.standsAt side level.price = true
  listed : ∀ order ∈ orders, order.interest.side = side → ∀ price ∈ order.price,
    ∃ level ∈ levels, side.same price level.price = true
  size : ∀ level ∈ levels, Whole (totalAt side level.price orders) level.size
  ranked : Ranked side levels

theorem Keeps.aggregates (h : book.Keeps scale depth ladders orders) (ho : Exact 1074 S orders)
    (hS : ∀ order ∈ orders, ∀ price ∈ order.price, price ∈ S) (side : Side) :
    Aggregates side orders (book.on side).levels.values := by
  have hfiled := h.shaped.filed side
  have hlevels : (book.on side).levels = ladders side := by rw [h.shaped.window]; rfl
  rw [hlevels]
  have hown : ∀ level ∈ (ladders side).values, 0 < volumeAt side level.price orders ∧
      Counts (volumeAt side level.price orders) level.size := by
    intro level hin
    have hp := hfiled.known_of_mem hin
    exact (h.levels side).present level.price hp level ((hfiled.get?_eq_some hp).mpr ⟨hin, rfl⟩)
  refine ⟨fun level hin => ?_, fun order hin hside price hprice => ?_, fun level hin => ?_, ?_⟩
  · exact (sumAt_pos_iff ho.sized.steps_pos).mp (hown level hin).1
  · have hp := hS order hin price hprice
    have hsame : side.same price price = true := ((scale side).same_iff hp hp).mpr rfl
    have hstands : order.standsAt side price = true := by
      have hsome : order.price = some price := hprice
      simp [Resting.standsAt, hside, hsome, hsame]
    have hpos : 0 < volumeAt side price orders :=
      (sumAt_pos_iff ho.sized.steps_pos).mpr ⟨order, hin, hstands⟩
    cases hget : (ladders side).get? price with
    | none =>
      have hzero := (h.levels side).absent price hp hget
      omega
    | some level =>
      obtain ⟨hmem, hplace⟩ := (hfiled.get?_eq_some hp).mp hget
      exact ⟨level, hmem, ((scale side).same_iff hp (hfiled.known_of_mem hmem)).mpr hplace.symm⟩
  · have hcount := (hown level hin).2
    rw [volumeAt_eq_totalAt ho.sized.whole] at hcount
    exact Whole.counts_iff.mpr hcount
  · exact hfiled.bestFirst.ranked fun _ hin => hfiled.known_of_mem hin

/-- After any batches the book counts the live orders, stores on each side the totals of their
prices and shows the best of them, and no delta on the way asked for more than there was. -/
theorem run_aggregates (symbol : Symbol) (source : Source) (depth : Nat)
    (batches : List (List Report × Bool)) (hS : Unchained (pricesOf batches))
    (hL : Lossless batches) :
    let start := Book.empty symbol source depth
    let book := start.run batches
    let orders := live (sinceFresh batches)
    book.orderCount = orders.length ∧
    (∀ side, Aggregates side orders (book.on side).levels.values ∧
      book.visible.on side = shown depth (book.on side).levels.values) ∧
    ∀ history reports fresh rest, batches = history ++ (reports, fresh) :: rest →
      let base := (start.run history).base fresh
      ∀ side, ∀ delta ∈ (base.ledger.net reports).2.on side, (base.on side).Covers delta := by
  have scale : ∀ side, Scale side (pricesOf batches) := fun side => (hS.scale side).some
  have hp := reported_pricesOf batches
  have hstart : (Book.empty symbol source depth).Keeps scale depth (fun _ => .empty) [] :=
    keeps_empty symbol source depth
  have hpast : ∀ {history later}, batches = history ++ later →
      ∃ ladders, ((Book.empty symbol source depth).run history).Keeps scale depth ladders
        (live (sinceFresh history)) := by
    rintro history later rfl
    exact hstart.run (List.forall_mem_append.mp hp).1 fun seen hm => hL.exact (hm.mono later)
  obtain ⟨ladders, hkeeps⟩ := hpast (List.append_nil batches).symm
  intro start book orders
  refine ⟨hkeeps.ledger.size, fun side => ⟨hkeeps.aggregates hL.exact_last ?_ side, ?_⟩, ?_⟩
  · intro order hin price hprice
    obtain ⟨report, hr, -, rfl⟩ := mem_live hin
    obtain ⟨batch, hbatch, hrb⟩ := mem_sinceFresh hr
    exact hp batch hbatch report hrb price hprice
  · rw [hkeeps.shaped.visible_on, hkeeps.shaped.window]
    rfl
  · intro history reports fresh rest hsplit
    obtain ⟨_, hhistory⟩ := hpast hsplit
    have hreports : Reported (pricesOf batches) reports :=
      hp (reports, fresh) (hsplit ▸ List.mem_append_right _ List.mem_cons_self)
    refine (hhistory.process hreports fresh fun first more hmore => ?_).2
    rw [← sinceFresh_concat]
    exact hL.exact ⟨history, first, more, fresh, rest, by rw [hsplit, hmore], rfl⟩

theorem lossless_session : Lossless session := by
  have hgone : (Report.gone 1 1).isRemoval = true := by decide
  refine lossless_of_few 2 ?_ (by decide)
  intro batch hbatch report hreport hout
  simp only [session, List.mem_cons, List.not_mem_nil, or_false] at hbatch
  rcases hbatch with rfl | rfl
  · simp only [List.mem_cons, List.not_mem_nil, or_false] at hreport
    rcases hreport with rfl | rfl
    · exact ⟨2, by decide, by decide, Whole.two⟩
    · exact ⟨1, by decide, by decide, Whole.one⟩
  · simp only [List.mem_cons, List.not_mem_nil, or_false] at hreport
    obtain rfl := hreport
    cases hgone.symm.trans hout

theorem run_aggregates_session : Unchained (pricesOf session) ∧ Lossless session ∧
    ((Book.empty ⟨"X"⟩ ⟨"Y"⟩ 1).run session).orderCount = 1 ∧
    ∀ side, Aggregates side (live (sinceFresh session))
      (((Book.empty ⟨"X"⟩ ⟨"Y"⟩ 1).run session).on side).levels.values := by
  obtain ⟨hcount, hsides, -⟩ :=
    run_aggregates ⟨"X"⟩ ⟨"Y"⟩ 1 session unchained_session lossless_session
  exact ⟨unchained_session, lossless_session, hcount.trans (by decide), fun side => (hsides side).1⟩

end Book

end MarketDepth
