import MarketDepth.Proofs.BookTotals
import MarketDepth.Proofs.Recasting

/-! The last word on each order. What a batch says of an order before that cancels out, and in which
turn it speaks of different orders does not matter: the live orders are the same in the end, and so are
the changes of their totals. Only times can tell. -/

namespace MarketDepth

variable {S : Set Price}

def lastOn (index : Int64) (reports : List Report) : Option Report :=
  reports.reverse.find? (·.index == index)

theorem lastOn_append (index : Int64) (reports later : List Report) :
    lastOn index (reports ++ later) = (lastOn index later).or (lastOn index reports) := by
  rw [lastOn, List.reverse_append, List.find?_append, lastOn, lastOn]

theorem lastOn_singleton (index : Int64) (report : Report) :
    lastOn index [report] = if report.index = index then some report else none := by
  by_cases h : report.index = index <;> simp [lastOn, h]

theorem ne_nil_of_lastOn_eq {first second : List Report} (hne : first ≠ [])
    (h : ∀ index, lastOn index first = lastOn index second) : second ≠ [] := by
  rintro rfl
  rcases List.eq_nil_or_concat first with rfl | ⟨reports, last, rfl⟩
  · exact hne rfl
  · have hsome := h last.index
    rw [List.concat_eq_append, lastOn_append, lastOn_singleton, if_pos rfl] at hsome
    cases hsome

/-- The order as the report leaves it, if it leaves one. -/
def Report.left? (report : Report) : Option Resting :=
  if report.isRemoval then none else some report.resting

theorem find?_live (reports : List Report) (index : Int64) :
    (live reports).find? (·.index == index) = (lastOn index reports).bind Report.left? := by
  induction reports using List.reverseRecOn with
  | nil => rfl
  | append_singleton reports last ih =>
    rw [live_concat, List.find?_append, Ledger.find?_without, ih, lastOn_append, lastOn_singleton]
    by_cases hindex : last.index = index
    · cases hout : last.isRemoval <;> simp [hindex, hout, Report.left?, Report.resting]
    · cases hout : last.isRemoval <;> simp [hindex, Report.resting]

theorem live_perm_of_lastOn_eq (seen : List Report) {first second : List Report}
    (h : ∀ index, lastOn index first = lastOn index second) :
    (live (seen ++ first)).Perm (live (seen ++ second)) := by
  refine perm_of_find?_eq (live_distinct _) (live_distinct _) fun index => ?_
  rw [find?_live, find?_live, lastOn_append, lastOn_append, h]

theorem change_eq_of_perm {before after after' : List Resting} (h : after.Perm after') :
    change before after = change before after' := by
  funext side price
  have hvolume : volumeAt side price after = volumeAt side price after' := sumAt_perm h
  rw [change, change, hvolume]

theorem reckonable_of_few {seen batch : List Report} (most : Nat)
    (h : WholeUpTo most (seen ++ batch)) (hfew : 2 * ((seen ++ batch).length * most) < 2 ^ 53) :
    Reckonable S seen batch := by
  have hmoment : ∀ {first rest}, batch = first ++ rest → seen ++ batch = (seen ++ first) ++ rest :=
    fun hsplit => by rw [hsplit, List.append_assoc]
  have hreckoned : ∀ {first rest}, batch = first ++ rest → ∀ {orders},
      orders.Sublist (live (seen ++ first)) → Reckoned S (live seen) orders := by
    intro first rest hsplit orders hsub
    have hbefore := h.exists_whole rfl (List.Sublist.refl _)
    have hafter := h.exists_whole (hmoment hsplit) hsub
    refine reckoned_of_whole (fun order hin => (hbefore order hin).imp fun _ => And.right)
      (fun order hin => (hafter order hin).imp fun _ => And.right) fun side price _ => ?_
    have hearlier := h.natAbs_totalAt_le rfl (List.Sublist.refl _) side price
    have hlater := h.natAbs_totalAt_le (hmoment hsplit) hsub side price
    omega
  refine ⟨fun first rest hsplit order hin => ?_,
    fun first report rest hsplit => hreckoned hsplit List.filter_sublist,
    fun first rest hsplit => hreckoned hsplit (List.Sublist.refl _)⟩
  obtain ⟨n, -, hw⟩ := h.exists_whole (hmoment hsplit) (List.Sublist.refl _) order hin
  exact hw.finite

theorem reckonable_of_one_two {seen batch : List Report}
    (h : ∀ report ∈ seen ++ batch, report.isRemoval = true ∨
      totalKey report.size = totalKey Price.one.value ∨
        totalKey report.size = totalKey Price.two.value)
    (hfew : 2 * ((seen ++ batch).length * 2) < 2 ^ 53) : Reckonable S seen batch := by
  refine reckonable_of_few 2 (fun report hin hout => ?_) hfew
  rcases h report hin with hgone | hsize | hsize
  · cases hgone.symm.trans hout
  · exact ⟨1, by decide, totalKey_injective hsize ▸ Whole.one⟩
  · exact ⟨2, by decide, totalKey_injective hsize ▸ Whole.two⟩

theorem Apart.eq_of_place (hS : Apart S) {side : Side} (scale : Scale side S) {a b : Price}
    (ha : a ∈ S) (hb : b ∈ S) (h : scale.place a = scale.place b) : a = b := by
  have hrank := (scale.rank_same ha hb).mpr h
  cases side with
  | ask => exact hS a ha b hb hrank
  | bid => exact (hS b hb a ha hrank).symm

/-- Levels and deltas with nothing known of their times. -/
def untimed (side : Side) : Recasting side side := ⟨id, fun _ => 0, fun _ _ => rfl⟩

namespace Ladder.Gathers

variable {side : Side} {scale : Scale side S} {ladder ladder' : Ladder side Delta}
  {change : Price → Int}

theorem untimed_mem (h : ladder.Gathers S change) (h' : ladder'.Gathers S change) (hS : Apart S)
    (hL : ladder.Filed scale Delta.price) (hL' : ladder'.Filed scale Delta.price)
    (hsharp : ∀ price ∈ S, Sharp (change price)) {delta : Delta} (hin : delta ∈ ladder.values)
    (hkeep : negligible delta.size = false) :
    ∃ other ∈ ladder'.values, negligible other.size = false ∧
      (untimed side).delta other = (untimed side).delta delta := by
  have hp := hL.known_of_mem hin
  have hc := h.present delta.price hp delta ((hL.get?_eq_some hp).mpr ⟨hin, rfl⟩)
  have hmoved : change delta.price ≠ 0 := fun hzero => by
    rw [(hc.negligible_iff (hsharp _ hp)).mpr hzero] at hkeep
    cases hkeep
  -- A change other than zero is the count of one size only, so both ladders hold the same size.
  cases hget : ladder'.get? delta.price with
  | none => exact absurd (h'.absent delta.price hp hget) hmoved
  | some other =>
    obtain ⟨hin', hplace⟩ := (hL'.get?_eq_some hp).mp hget
    have hsize : other.size = delta.size := (h'.present delta.price hp other hget).eq hc hmoved
    have hprice : other.price = delta.price :=
      hS.eq_of_place scale (hL'.known_of_mem hin') hp hplace
    exact ⟨other, hin', by rw [hsize, hkeep], by rw [Recasting.delta, hprice, hsize]; rfl⟩

theorem untimed_eq (h : ladder.Gathers S change) (h' : ladder'.Gathers S change) (hS : Apart S)
    (hL : ladder.Filed scale Delta.price) (hL' : ladder'.Filed scale Delta.price)
    (hsharp : ∀ price ∈ S, Sharp (change price)) :
    (ladder.values.filter fun delta => !negligible delta.size).map (untimed side).delta =
      (ladder'.values.filter fun delta => !negligible delta.size).map (untimed side).delta := by
  have hsorted : ∀ {ladder : Ladder side Delta}, ladder.Filed scale Delta.price →
      ((ladder.values.filter fun delta => !negligible delta.size).map (untimed side).delta).Pairwise
        fun a b => scale.place a.price < scale.place b.price := fun hL =>
    List.pairwise_map.mpr (hL.bestFirst.sublist List.filter_sublist)
  refine eq_of_pairwise_lt (hsorted hL) (hsorted hL') fun recast => ?_
  simp only [List.mem_map, List.mem_filter, Bool.not_eq_true']
  constructor
  · rintro ⟨delta, ⟨hin, hkeep⟩, rfl⟩
    obtain ⟨other, hin', hkeep', heq⟩ := h.untimed_mem h' hS hL hL' hsharp hin hkeep
    exact ⟨other, ⟨hin', hkeep'⟩, heq⟩
  · rintro ⟨delta, ⟨hin, hkeep⟩, rfl⟩
    obtain ⟨other, hin', hkeep', heq⟩ := h'.untimed_mem h hS hL' hL hsharp hin hkeep
    exact ⟨other, ⟨hin', hkeep'⟩, heq⟩

end Ladder.Gathers

theorem Ledger.net_last_words {ledger : Ledger} {seen first second : List Report} (hS : Apart S)
    (hknown : ledger.Known S) (h : ledger.Remembers (live seen)) (hp : Reported S first)
    (hp' : Reported S second) (hr : Reckonable S seen first) (hr' : Reckonable S seen second)
    (hlast : ∀ index, lastOn index first = lastOn index second) :
    (∀ index, (ledger.net first).1.get? index = (ledger.net second).1.get? index) ∧
    (ledger.net first).1.size = (ledger.net second).1.size ∧
    ∀ side, ((ledger.net first).2.on side).map (untimed side).delta =
      ((ledger.net second).2.on side).map (untimed side).delta := by
  have scale : ∀ side, Scale side S := fun side => (hS.unchained.scale side).some
  have hnet := Netting.tallies_net scale hknown h hp hr
  have hnet' := Netting.tallies_net scale hknown h hp' hr'
  have hperm := live_perm_of_lastOn_eq seen hlast
  refine ⟨fun index => ?_, ?_, fun side => ?_⟩
  · refine (hnet.ledger.get? index).trans (Eq.trans ?_ (hnet'.ledger.get? index).symm)
    rw [find?_live, find?_live, lastOn_append, lastOn_append, hlast]
  · exact hnet.ledger.size.trans (hperm.length_eq.trans hnet'.ledger.size.symm)
  -- Both batches lead to the same live orders, so they have gathered the same change.
  · have hgathers := hnet'.gathers side
    rw [← change_eq_of_perm hperm] at hgathers
    rw [Ledger.net, Ledger.net, Netting.deltas_on, Netting.deltas_on]
    exact (hnet.gathers side).untimed_eq hgathers hS (hnet.sound.filed side)
      (hnet'.sound.filed side) (hr.passed first [] (List.append_nil _).symm side)

theorem Window.apply_untimed {side : Side} (window : Window side) {deltas others : List Delta}
    (h : deltas.map (untimed side).delta = others.map (untimed side).delta) :
    (untimed side).state (window.apply deltas) = (untimed side).state (window.apply others) := by
  rw [← Recasting.apply_window, h, Recasting.apply_window]

/-- The price and the size of each level of a side, best first. -/
def Levels.quotes (levels : Levels) (side : Side) : List (Price × Float) :=
  (levels.on side).map fun level => (level.price, level.size)

theorem Levels.quotes_of_untimed {levels others : Levels}
    (h : ∀ side, (levels.on side).map (untimed side).level =
      (others.on side).map (untimed side).level) : levels.quotes = others.quotes := by
  funext side
  have hquote : ∀ levels : Levels, levels.quotes side =
      ((levels.on side).map (untimed side).level).map fun level => (level.price, level.size) := by
    intro levels
    rw [List.map_map]
    rfl
  rw [hquote, hquote, h]

theorem ChangeSet.quotes_of_untimed {asks asks' : SideChanges .ask} {bids bids' : SideChanges .bid}
    (hasks : (untimed .ask).changes asks = (untimed .ask).changes asks')
    (hbids : (untimed .bid).changes bids = (untimed .bid).changes bids') :
    let changes := ChangeSet.ofSides asks bids
    let changes' := ChangeSet.ofSides asks' bids'
    changes.additions.quotes = changes'.additions.quotes ∧
      changes.updates.quotes = changes'.updates.quotes ∧
      changes.removals.quotes = changes'.removals.quotes := by
  have hvalues : ∀ {side : Side} {ladder ladder' : Ladder side Level},
      (untimed side).ladder (untimed side).level ladder =
        (untimed side).ladder (untimed side).level ladder' →
      ladder.values.map (untimed side).level = ladder'.values.map (untimed side).level := by
    intro side ladder ladder' h
    rw [← Recasting.values_ladder, h, Recasting.values_ladder]
  refine ⟨Levels.quotes_of_untimed fun side => ?_, Levels.quotes_of_untimed fun side => ?_,
    Levels.quotes_of_untimed fun side => ?_⟩
  · cases side
    · exact hvalues (congrArg SideChanges.additions hasks)
    · exact hvalues (congrArg SideChanges.additions hbids)
  · cases side
    · exact hvalues (congrArg SideChanges.updates hasks)
    · exact hvalues (congrArg SideChanges.updates hbids)
  · cases side
    · exact hvalues (congrArg SideChanges.removals hasks)
    · exact hvalues (congrArg SideChanges.removals hbids)

namespace Book

theorem remembers_run (symbol : Symbol) (source : Source) (depth : Nat)
    (batches : List (List Report × Bool)) :
    ((Book.empty symbol source depth).run batches).ledger.Remembers
      (live (sinceFresh batches)) := by
  induction batches using List.reverseRecOn with
  | nil => exact Ledger.remembers_empty
  | append_singleton batches batch ih =>
    obtain ⟨reports, fresh⟩ := batch
    have hbase : (((Book.empty symbol source depth).run batches).base fresh).ledger.Remembers
        (live (if fresh then [] else sinceFresh batches)) := by
      cases fresh with
      | true => exact Ledger.remembers_empty
      | false => exact ih
    rw [run_concat, sinceFresh_concat]
    rcases process_cases ((Book.empty symbol source depth).run batches) reports fresh with
      ⟨rfl, -, hledger, -⟩ | ⟨hbook, -⟩
    · rwa [hledger, List.append_nil]
    · rw [hbook]
      exact Netting.remembers_net hbase reports

theorem process_of_ne_nil (book : Book) {reports : List Report} (h : reports ≠ []) :
    (book.process reports false).1 = (book.update reports).1 ∧
      (book.process reports false).2.notice =
        some (.changed (book.update reports).2.1 (book.update reports).1.visible) := by
  rcases book.process_cases reports false with ⟨hnil, -⟩ | ⟨hbook, hnotice⟩
  · exact absurd hnil h
  · exact ⟨hbook, hnotice⟩

theorem update_untimed (book : Book) {first second : List Report}
    (h : ∀ side, ((book.ledger.net first).2.on side).map (untimed side).delta =
      ((book.ledger.net second).2.on side).map (untimed side).delta) :
    let one := book.update first
    let other := book.update second
    (∀ side, (untimed side).window (one.1.on side) = (untimed side).window (other.1.on side)) ∧
      one.2.1.additions.quotes = other.2.1.additions.quotes ∧
      one.2.1.updates.quotes = other.2.1.updates.quotes ∧
      one.2.1.removals.quotes = other.2.1.removals.quotes := by
  have hstate := fun side => (book.on side).apply_untimed (h side)
  refine ⟨fun side => ?_, ?_⟩
  · rw [update_on, update_on]
    exact congrArg Prod.fst (hstate side)
  · exact ChangeSet.quotes_of_untimed (congrArg Prod.snd (hstate .ask))
      (congrArg Prod.snd (hstate .bid))

theorem quotes_visible_of_untimed {book other : Book}
    (h : ∀ side, (untimed side).window (book.on side) = (untimed side).window (other.on side)) :
    book.visible.quotes = other.visible.quotes := by
  refine Levels.quotes_of_untimed fun side => ?_
  rw [visible_on_eq, visible_on_eq, ← Recasting.visible_window, h, Recasting.visible_window]

/-- From wherever a book can be, two batches that end with the same report on each order lead to the
same ledger, which holds these reports, and, times apart, to the same levels and the same changes. -/
theorem process_last_words (symbol : Symbol) (source : Source) (depth : Nat)
    (history : List (List Report × Bool)) {first second : List Report} (hne : first ≠ [])
    (hlast : ∀ index, lastOn index first = lastOn index second) (hS : Apart S)
    (hp : ∀ batch ∈ history ++ [(first, false), (second, false)], Reported S batch.1)
    (hr : Reckonable S (sinceFresh history) first)
    (hr' : Reckonable S (sinceFresh history) second) :
    let book := (Book.empty symbol source depth).run history
    let one := book.process first false
    let other := book.process second false
    (∀ index, one.1.ledger.get? index =
      (lastOn index (sinceFresh history ++ first)).bind Report.left?) ∧
    (∀ index, one.1.ledger.get? index = other.1.ledger.get? index) ∧
    one.1.orderCount = other.1.orderCount ∧
    one.1.visible.quotes = other.1.visible.quotes ∧
    (∀ side, (one.1.on side).size = (other.1.on side).size) ∧
    ∃ changes changes', one.2.notice = some (.changed changes one.1.visible) ∧
      other.2.notice = some (.changed changes' other.1.visible) ∧
      changes.additions.quotes = changes'.additions.quotes ∧
      changes.updates.quotes = changes'.updates.quotes ∧
      changes.removals.quotes = changes'.removals.quotes := by
  intro book one other
  have scale : ∀ side, Scale side S := fun side => (hS.unchained.scale side).some
  obtain ⟨hpast, hboth⟩ := List.forall_mem_append.mp hp
  have hp1 : Reported S first := hboth (first, false) (by simp)
  have hp2 : Reported S second := hboth (second, false) (by simp)
  have hne' : second ≠ [] := ne_nil_of_lastOn_eq hne hlast
  have hstart : (Book.empty symbol source depth).Shaped scale depth fun _ => .empty :=
    shaped_empty symbol source depth
  obtain ⟨ladders, hshaped⟩ := hstart.run hpast
  have hremembers : book.ledger.Remembers (live (sinceFresh history)) :=
    remembers_run symbol source depth history
  have hlive : ∀ index, (book.update first).1.ledger.get? index =
      (lastOn index (sinceFresh history ++ first)).bind Report.left? := by
    intro index
    rw [← find?_live]
    exact (Netting.remembers_net hremembers first).get? index
  obtain ⟨hget, hsize, hdeltas⟩ :=
    book.ledger.net_last_words hS hshaped.ledger hremembers hp1 hp2 hr hr' hlast
  obtain ⟨hwindows, hchanges⟩ := book.update_untimed hdeltas
  obtain ⟨hone, hnotice⟩ := book.process_of_ne_nil hne
  obtain ⟨hother, hnotice'⟩ := book.process_of_ne_nil hne'
  have hsizes : ∀ side,
      ((book.update first).1.on side).size = ((book.update second).1.on side).size := by
    intro side
    rw [← Recasting.size_window, hwindows, Recasting.size_window]
  refine ⟨?_, ?_, ?_, ?_, ?_, (book.update first).2.1, (book.update second).2.1, ?_, ?_, hchanges⟩
  all_goals simp only [one, other, hone, hother]
  · exact hlive
  · exact hget
  · exact hsize
  · exact quotes_visible_of_untimed hwindows
  · exact hsizes
  · exact hnotice
  · exact hnotice'

/-- An ask moves to one and back to two, and a bid comes in between. -/
def restless : List Report :=
  [⟨2, .sell, Price.one.value, Price.one.value, 1, {}⟩,
    ⟨3, .buy, Price.one.value, Price.one.value, 1, {}⟩,
    ⟨2, .sell, Price.two.value, Price.two.value, 2, {}⟩]

/-- The last words of it, the other way round. -/
def settled : List Report :=
  [⟨2, .sell, Price.two.value, Price.two.value, 2, {}⟩,
    ⟨3, .buy, Price.one.value, Price.one.value, 1, {}⟩]

theorem process_last_words_restless :
    let S := pricesOf (session ++ [(restless, false), (settled, false)])
    let book := (Book.empty ⟨"X"⟩ ⟨"Y"⟩ 1).run session
    restless ≠ [] ∧ (∀ index, lastOn index restless = lastOn index settled) ∧ Apart S ∧
    (∀ batch ∈ session ++ [(restless, false), (settled, false)], Reported S batch.1) ∧
    Reckonable S (sinceFresh session) restless ∧ Reckonable S (sinceFresh session) settled ∧
    (book.process restless false).1.visible.asks.length = 1 ∧
    (book.process restless false).1.visible.quotes =
      (book.process settled false).1.visible.quotes := by
  intro S book
  have hlast : ∀ index, lastOn index restless = lastOn index settled := by
    intro index
    by_cases htwo : (2 : Int64) = index
    · subst htwo
      rfl
    by_cases hthree : (3 : Int64) = index
    · subst hthree
      rfl
    · simp [lastOn, restless, settled, htwo, hthree]
  have hS : Apart S := apart_one_two.mono (pricesOf_subset (by decide))
  have hp := reported_pricesOf (session ++ [(restless, false), (settled, false)])
  have hr : Reckonable S (sinceFresh session) restless :=
    reckonable_of_one_two (by decide) (by decide)
  have hr' : Reckonable S (sinceFresh session) settled :=
    reckonable_of_one_two (by decide) (by decide)
  obtain ⟨-, -, -, hquotes, -⟩ :=
    process_last_words ⟨"X"⟩ ⟨"Y"⟩ 1 session (by decide) hlast hS hp hr hr'
  exact ⟨by decide, hlast, hS, hp, hr, hr', by decide +kernel, hquotes⟩

end Book

end MarketDepth
