import Mathlib.Algebra.Order.BigOperators.Group.List
import Mathlib.Data.Finset.Card
import MarketDepth.Proofs.Percentiles
import MarketDepth.Proofs.Rejections

/-! Accounts of a run: each counter of a live book is a sum over the batches that it took, and the levels
it has announced as added and removed balance with what is shown. -/

namespace MarketDepth

/-- One batch of a run, and the book it comes to. -/
structure Turn where
  before : Book
  reports : List Report
  fresh : Bool

namespace Turn

def after (turn : Turn) : Book := (turn.before.process turn.reports turn.fresh).1

def cycle (turn : Turn) : Cycle := (turn.before.process turn.reports turn.fresh).2

/-- The changes that are announced. -/
def changes (turn : Turn) : ChangeSet :=
  match turn.cycle.notice with
  | some (.changed changes _) => changes
  | _ => {}

/-- An empty batch that is not fresh is passed over in silence. -/
def silent (turn : Turn) : Bool := turn.reports.isEmpty && !turn.fresh

def growth (turn : Turn) : Int := turn.after.visible.size - turn.before.visible.size

end Turn

def Book.turns (book : Book) : List (List Report × Bool) → List Turn
  | [] => []
  | (reports, fresh) :: rest =>
    ⟨book, reports, fresh⟩ :: turns (book.process reports fresh).1 rest

section

variable {side : Side} {S : Set Price} {scale : Scale side S} {before now levels : List Level}
  {touched : Set Int} {changes : SideChanges side}

def places (scale : Scale side S) (levels : List Level) : Finset Int :=
  (levels.map fun level => scale.place level.price).toFinset

theorem BestFirst.card_places (h : BestFirst scale Level.price levels) :
    (places scale levels).card = levels.length := by
  have hnodup : (levels.map fun level => scale.place level.price).Nodup :=
    List.pairwise_map.mpr (h.imp fun hlt => hlt.ne)
  rw [places, List.toFinset_card_of_nodup hnodup, List.length_map]

theorem mem_places {level : Level} :
    scale.place level.price ∈ places scale levels ↔ ¬ Absent scale levels level := by
  rw [not_absent, places, List.mem_toFinset, List.mem_map]

theorem places_eq_sdiff {others kept : List Level}
    (h : ∀ l, l ∈ kept ↔ l ∈ levels ∧ Absent scale others l) :
    places scale kept = places scale levels \ places scale others := by
  ext place
  rw [Finset.mem_sdiff]
  constructor
  · intro hin
    obtain ⟨l, hl, rfl⟩ := List.mem_map.mp (List.mem_toFinset.mp hin)
    obtain ⟨hin, habs⟩ := (h l).mp hl
    exact ⟨mem_places.mpr fun hout => hout l hin rfl, fun hout => mem_places.mp hout habs⟩
  · rintro ⟨hin, hout⟩
    obtain ⟨l, hl, rfl⟩ := List.mem_map.mp (List.mem_toFinset.mp hin)
    have habs : Absent scale others l := not_not.mp fun hno => hout (mem_places.mpr hno)
    exact mem_places.mpr fun hno => hno l ((h l).mpr ⟨hl, habs⟩) rfl

/-- What came into view and what went out of it make up for the difference in number. -/
theorem Tracks.balance (h : Tracks scale before now touched changes)
    (hbefore : BestFirst scale Level.price before) (hnow : BestFirst scale Level.price now) :
    changes.additions.values.length + before.length =
      changes.removals.values.length + now.length := by
  obtain ⟨hadded, -, hremoved⟩ := h.filed
  rw [← hadded.bestFirst.card_places, ← hremoved.bestFirst.card_places, ← hbefore.card_places,
    ← hnow.card_places, places_eq_sdiff h.additions, places_eq_sdiff h.removals]
  have hin := Finset.card_sdiff_add_card (places scale now) (places scale before)
  have hout := Finset.card_sdiff_add_card (places scale before) (places scale now)
  rw [Finset.union_comm] at hout
  omega

end

namespace Turn

variable {S : Set Price} {scale : ∀ side, Scale side S} {depth : Nat}
  {ladders : ∀ side, Ladder side Level} {turn : Turn}

theorem changes_of_fresh (h : turn.fresh = true) : turn.changes = {} := by
  obtain ⟨before, reports, fresh⟩ := turn
  obtain rfl : fresh = true := h
  cases reports <;> rfl

theorem changes_of_silent (h : turn.silent = true) :
    turn.changes = {} ∧ turn.after = turn.before := by
  obtain ⟨before, reports, fresh⟩ := turn
  simp only [silent, Bool.and_eq_true, List.isEmpty_iff, Bool.not_eq_true'] at h
  obtain ⟨rfl, rfl⟩ := h
  exact ⟨rfl, rfl⟩

theorem announces_changes (h : turn.before.Shaped scale depth ladders)
    (hp : Reported S turn.reports) (hfresh : turn.fresh = false) (hsilent : turn.silent = false) :
    Book.Announces scale turn.before.visible turn.after.visible turn.changes := by
  obtain ⟨before, reports, fresh⟩ := turn
  obtain rfl : fresh = false := hfresh
  cases reports with
  | nil => cases hsilent
  | cons report rest => exact (h.process hp false).2.1

/-- A turn adds to what is shown as many levels as it announces more as added than as removed. -/
theorem balance (h : turn.before.Shaped scale depth ladders) (hp : Reported S turn.reports) :
    (turn.changes.additions.size : Int) - turn.changes.removals.size =
      if turn.fresh then 0 else turn.growth := by
  cases hfresh : turn.fresh with
  | true => simp [turn.changes_of_fresh hfresh, Levels.size]
  | false =>
    cases hsilent : turn.silent with
    | true =>
      obtain ⟨hchanges, hafter⟩ := changes_of_silent hsilent
      simp [hchanges, growth, hafter, Levels.size]
    | false =>
      obtain ⟨⟨_, hnow⟩, -⟩ := h.process hp turn.fresh
      have hbefore := h.listed
      have hafter : Book.Listed scale turn.after.visible := hnow.listed
      obtain ⟨asks, bids, _, _, hchanges, hasks, hbids⟩ := announces_changes h hp hfresh hsilent
      have haskBalance := hasks.balance hbefore.asks hafter.asks
      have hbidBalance := hbids.balance hbefore.bids hafter.bids
      simp only [hchanges, ChangeSet.ofSides, growth, Levels.size, Bool.false_eq_true, if_false]
      omega

theorem sum_balance {turns : List Turn}
    (h : ∀ turn ∈ turns, (turn.changes.additions.size : Int) - turn.changes.removals.size =
      if turn.fresh then 0 else turn.growth) :
    (((turns.map fun turn => turn.changes.additions.size).sum : Nat) : Int) -
        ((turns.map fun turn => turn.changes.removals.size).sum : Nat) =
      ((turns.filter fun turn => !turn.fresh).map growth).sum := by
  induction turns with
  | nil => rfl
  | cons turn rest ih =>
    obtain ⟨hturn, hrest⟩ := List.forall_mem_cons.mp h
    have hsum := ih hrest
    simp only [List.map_cons, List.sum_cons, Nat.cast_add, List.filter_cons]
    cases hfresh : turn.fresh with
    | true =>
      rw [hfresh, if_pos rfl] at hturn
      simp only [Bool.not_true, Bool.false_eq_true, if_false]
      omega
    | false =>
      rw [hfresh, if_neg Bool.false_ne_true] at hturn
      simp only [Bool.not_false, if_true, List.map_cons, List.sum_cons]
      omega

end Turn

theorem sum_toNat_eq_countP {α : Type} (p : α → Bool) (as : List α) :
    (as.map fun a => (p a).toNat).sum = as.countP p := by
  induction as with
  | nil => rfl
  | cons a rest ih =>
    rw [List.map_cons, List.sum_cons, List.countP_cons, ih]
    cases p a <;> simp [Nat.add_comm]

namespace Netting

theorem ignored_add_le (net : Netting) (report : Report) :
    (net.add report).ignored ≤ net.ignored + 1 := by
  rw [ignored_add]
  exact Nat.add_le_add_left (Bool.toNat_le _) _

theorem ignored_foldl_le (net : Netting) (reports : List Report) :
    (reports.foldl add net).ignored ≤ net.ignored + reports.length := by
  induction reports generalizing net with
  | nil => exact le_rfl
  | cons report rest ih =>
    have hstep := net.ignored_add_le report
    have hrest := ih (net.add report)
    rw [List.foldl_cons, List.length_cons]
    omega

end Netting

theorem Turn.ignored_le (turn : Turn) : turn.cycle.ignored ≤ turn.reports.length := by
  obtain ⟨before, reports, fresh⟩ := turn
  have hnet : ∀ ledger : Ledger, (ledger.net reports).2.ignored ≤ reports.length :=
    fun ledger => (Netting.ignored_foldl_le { ledger } reports).trans (Nat.zero_add _).le
  cases reports with
  | nil => cases fresh <;> exact le_rfl
  | cons report rest => cases fresh <;> exact hnet _

namespace Book

variable {S : Set Price} {scale : ∀ side, Scale side S} {depth : Nat}
  {ladders : ∀ side, Ladder side Level}

theorem turns_content (book : Book) (batches : List (List Report × Bool)) :
    (book.turns batches).map (fun turn => (turn.reports, turn.fresh)) = batches := by
  induction batches generalizing book with
  | nil => rfl
  | cons batch rest ih => exact congrArg (batch :: ·) (ih _)

/-- What depends on nothing but the batch can be counted on the batches. -/
theorem sum_turns (amount : List Report × Bool → Nat) (book : Book)
    (batches : List (List Report × Bool)) :
    ((book.turns batches).map fun turn => amount (turn.reports, turn.fresh)).sum =
      (batches.map amount).sum := by
  have h := congrArg (fun content => (content.map amount).sum) (book.turns_content batches)
  rwa [List.map_map] at h

theorem sum_ignored_le (book : Book) (batches : List (List Report × Bool)) :
    ((book.turns batches).map fun turn => turn.cycle.ignored).sum ≤
      (batches.map fun batch => batch.1.length).sum := by
  rw [← sum_turns (fun batch => batch.1.length) book batches]
  exact List.sum_le_sum fun turn _ => turn.ignored_le

theorem Shaped.turns {book : Book} {batches : List (List Report × Bool)}
    (h : book.Shaped scale depth ladders) (hp : ∀ batch ∈ batches, Reported S batch.1) :
    ∀ turn ∈ book.turns batches,
      Reported S turn.reports ∧ ∃ ladders, turn.before.Shaped scale depth ladders := by
  induction batches generalizing book ladders with
  | nil => exact fun turn hin => nomatch hin
  | cons batch rest ih =>
    obtain ⟨hb, hrest⟩ := List.forall_mem_cons.mp hp
    obtain ⟨⟨_, hnext⟩, -⟩ := h.process hb batch.2
    exact List.forall_mem_cons.mpr ⟨⟨hb, _, h⟩, ih hnext hrest⟩

theorem sum_growth (book : Book) (batches : List (List Report × Bool)) :
    ((book.turns batches).map Turn.growth).sum =
      ((book.run batches).visible.size : Int) - book.visible.size := by
  induction batches generalizing book with
  | nil => exact (Int.sub_self _).symm
  | cons batch rest ih =>
    have hrest := ih (book.process batch.1 batch.2).1
    have hfirst : Turn.growth ⟨book, batch.1, batch.2⟩ =
        ((book.process batch.1 batch.2).1.visible.size : Int) - book.visible.size := rfl
    have hrun : book.run (batch :: rest) = (book.process batch.1 batch.2).1.run rest := rfl
    rw [turns, List.map_cons, List.sum_cons, hrest, hfirst, hrun]
    omega

theorem version_run (book : Book) (batches : List (List Report × Bool)) :
    (book.run batches).version =
      book.version + (batches.countP fun batch => !(batch.1.isEmpty && !batch.2)).toUInt64 := by
  induction batches generalizing book with
  | nil => simp [run]
  | cons batch rest ih =>
    obtain ⟨reports, fresh⟩ := batch
    have hstep : (book.process reports fresh).1.version =
        book.version + (!(reports.isEmpty && !fresh)).toNat.toUInt64 := by
      cases reports <;> cases fresh <;> simp [process, clear, update]
    have hrun : book.run ((reports, fresh) :: rest) = (book.process reports fresh).1.run rest := rfl
    rw [hrun, ih, hstep, ← sum_toNat_eq_countP, ← sum_toNat_eq_countP, List.map_cons,
      List.sum_cons, UInt64.add_assoc, ← UInt64.ofNat_add]

end Book

namespace LiveBook

variable {τ : Type}

/-- The metrics after a batch: each counter grows by what the turn of the batch comes to. -/
theorem metrics_timed (live : LiveBook τ) (reports : List Report) (fresh : Bool)
    (latency : UInt64) :
    let turn : Turn := ⟨live.book, reports, fresh⟩
    ((live.accept reports fresh).timed latency).metrics =
      { cycles := live.metrics.cycles + 1
        snapshots := live.metrics.snapshots + turn.fresh.toNat.toUInt64
        records := live.metrics.records + turn.reports.length.toUInt64
        ignored := live.metrics.ignored + turn.cycle.ignored.toUInt64
        levelsAdded := live.metrics.levelsAdded + turn.changes.additions.size.toUInt64
        levelsUpdated := live.metrics.levelsUpdated + turn.changes.updates.size.toUInt64
        levelsRemoved := live.metrics.levelsRemoved + turn.changes.removals.size.toUInt64
        latencies := live.metrics.latencies.record latency } := by
  cases reports <;> cases fresh <;>
    simp [accept, Processed.timed, Metrics.recordCycle, Metrics.recordSnapshot,
      Metrics.recordChanges, Turn.cycle, Turn.changes, Book.process, Levels.size]

theorem counter_absorb (count : Metrics → UInt64) (amount : Turn → Nat)
    (hstep : ∀ (live : LiveBook τ) reports fresh,
      count ((live.accept reports fresh).timed 0).metrics =
        count live.metrics + (amount ⟨live.book, reports, fresh⟩).toUInt64)
    (live : LiveBook τ) (batches : List (List Report × Bool)) :
    count (live.absorb batches).1.metrics =
      count live.metrics + ((live.book.turns batches).map amount).sum.toUInt64 := by
  induction batches generalizing live with
  | nil => simp [absorb, Book.turns]
  | cons batch rest ih =>
    obtain ⟨reports, fresh⟩ := batch
    have hrest := ih ((live.accept reports fresh).timed 0)
    rw [hstep, UInt64.add_assoc, ← UInt64.ofNat_add] at hrest
    rwa [Book.turns, List.map_cons, List.sum_cons]

theorem size_latencies_absorb (live : LiveBook τ) (batches : List (List Report × Bool))
    (hpos : 0 < live.metrics.latencies.capacity)
    (h : live.metrics.latencies.size ≤ live.metrics.latencies.capacity) :
    (live.absorb batches).1.metrics.latencies.size =
      min live.metrics.latencies.capacity (live.metrics.latencies.size + batches.length) := by
  induction batches generalizing live with
  | nil => simp [absorb, h]
  | cons batch rest ih =>
    obtain ⟨reports, fresh⟩ := batch
    have hsize := LatencyWindow.size_record hpos h 0
    have hrest := ih ((live.accept reports fresh).timed 0)
    rw [metrics_timed] at hrest
    have hcapacity : (live.metrics.latencies.record 0).capacity = live.metrics.latencies.capacity :=
      rfl
    simp only [hsize, hcapacity] at hrest
    refine (hrest hpos (min_le_left _ _)).trans ?_
    rw [List.length_cons]
    omega

theorem toNat_counter_absorb {live : LiveBook τ} (hnew : live.metrics = .empty)
    (count : Metrics → UInt64) (amount : Turn → Nat) (hzero : count .empty = 0)
    (hstep : ∀ (live : LiveBook τ) reports fresh,
      count ((live.accept reports fresh).timed 0).metrics =
        count live.metrics + (amount ⟨live.book, reports, fresh⟩).toUInt64)
    {batches : List (List Report × Bool)}
    (hfew : ((live.book.turns batches).map amount).sum < 2 ^ 64) :
    (count (live.absorb batches).1.metrics).toNat =
      ((live.book.turns batches).map amount).sum := by
  rw [counter_absorb count amount hstep, hnew, hzero, UInt64.zero_add]
  exact UInt64.toNat_ofNat_of_lt' hfew

theorem counters_absorb {live : LiveBook τ} (hnew : live.metrics = .empty)
    {batches : List (List Report × Bool)} (hcycles : batches.length < 2 ^ 64)
    (hrecords : (batches.map fun batch => batch.1.length).sum < 2 ^ 64)
    (hadded : ((live.book.turns batches).map fun turn => turn.changes.additions.size).sum < 2 ^ 64)
    (hupdated : ((live.book.turns batches).map fun turn => turn.changes.updates.size).sum < 2 ^ 64)
    (hremoved : ((live.book.turns batches).map fun turn => turn.changes.removals.size).sum < 2 ^ 64) :
    let turns := live.book.turns batches
    (live.absorb batches).1.metrics.counters.map (fun counter => (counter.1, counter.2.toNat)) =
      [("cycles_processed", batches.length),
        ("snapshots_applied", batches.countP fun batch => batch.2),
        ("records_processed", (batches.map fun batch => batch.1.length).sum),
        ("records_ignored", (turns.map fun turn => turn.cycle.ignored).sum),
        ("levels_added", (turns.map fun turn => turn.changes.additions.size).sum),
        ("levels_updated", (turns.map fun turn => turn.changes.updates.size).sum),
        ("levels_removed", (turns.map fun turn => turn.changes.removals.size).sum),
        ("cycle_latency_samples", min 1000 batches.length)] := by
  intro turns
  have hlength : (turns.map fun _ => 1).sum = batches.length := by
    simpa using Book.sum_turns (fun _ => 1) live.book batches
  have hfresh : (turns.map fun turn => turn.fresh.toNat).sum =
      batches.countP fun batch => batch.2 := by
    rw [← sum_toNat_eq_countP]
    exact Book.sum_turns (fun batch => batch.2.toNat) live.book batches
  have hreports : (turns.map fun turn => turn.reports.length).sum =
      (batches.map fun batch => batch.1.length).sum :=
    Book.sum_turns (fun batch => batch.1.length) live.book batches
  have hcyclesTotal := toNat_counter_absorb hnew Metrics.cycles (fun _ => 1) rfl
    (fun _ _ _ => by rw [metrics_timed]; rfl) (hlength.trans_lt hcycles)
  have hsnapshotsTotal := toNat_counter_absorb hnew Metrics.snapshots
    (fun turn => turn.fresh.toNat) rfl (fun _ _ _ => by rw [metrics_timed])
    (hfresh.trans_lt (List.countP_le_length.trans_lt hcycles))
  have hrecordsTotal := toNat_counter_absorb hnew Metrics.records
    (fun turn => turn.reports.length) rfl (fun _ _ _ => by rw [metrics_timed])
    (hreports.trans_lt hrecords)
  have hignoredTotal := toNat_counter_absorb hnew Metrics.ignored
    (fun turn => turn.cycle.ignored) rfl (fun _ _ _ => by rw [metrics_timed])
    ((Book.sum_ignored_le live.book batches).trans_lt hrecords)
  have haddedTotal := toNat_counter_absorb hnew Metrics.levelsAdded
    (fun turn => turn.changes.additions.size) rfl (fun _ _ _ => by rw [metrics_timed]) hadded
  have hupdatedTotal := toNat_counter_absorb hnew Metrics.levelsUpdated
    (fun turn => turn.changes.updates.size) rfl (fun _ _ _ => by rw [metrics_timed]) hupdated
  have hremovedTotal := toNat_counter_absorb hnew Metrics.levelsRemoved
    (fun turn => turn.changes.removals.size) rfl (fun _ _ _ => by rw [metrics_timed]) hremoved
  have hempty : live.metrics.latencies = .ofCapacity 1000 := by
    rw [hnew]
    rfl
  have hsamples := size_latencies_absorb live batches (by rw [hempty]; decide)
    (by rw [hempty]; decide)
  have hthousand : (live.absorb batches).1.metrics.latencies.size.toUInt64.toNat =
      min 1000 batches.length := by
    have hcapacity : min (LatencyWindow.ofCapacity 1000).capacity
        ((LatencyWindow.ofCapacity 1000).size + batches.length) = min 1000 batches.length := by
      simp [LatencyWindow.ofCapacity, LatencyWindow.size]
    rw [hsamples, hempty, hcapacity]
    exact UInt64.toNat_ofNat_of_lt' ((min_le_left _ _).trans_lt (by decide))
  simp only [Metrics.counters, List.map_cons, List.map_nil, hcyclesTotal, hsnapshotsTotal,
    hrecordsTotal, hignoredTotal, haddedTotal, hupdatedTotal, hremovedTotal, hthousand]
  rw [← hlength, ← hfresh, ← hreports]

/-- The counters say what a run has come to, batches that were rejected left out: how many batches and
reports it took, how many of them were fresh or ignored, and how many levels it announced. Levels added
and removed balance with the growth of what is shown, which fresh batches do not announce. -/
theorem run_accounts (symbol : Symbol) (source : Source) (depth : Nat) (observers : Observers τ)
    (deliveries : List Delivery) :
    let live : LiveBook τ := { book := .empty symbol source depth, observers }
    let batches := (deliveries.filter live.accepts).map Delivery.content
    let turns := live.book.turns batches
    let last := (live.run deliveries).1
    let added := (turns.map fun turn => turn.changes.additions.size).sum
    let updated := (turns.map fun turn => turn.changes.updates.size).sum
    let removed := (turns.map fun turn => turn.changes.removals.size).sum
    let records := (batches.map fun batch => batch.1.length).sum
    let ignored := (turns.map fun turn => turn.cycle.ignored).sum
    Unchained (Book.pricesOf batches) → batches.length < 2 ^ 64 → records < 2 ^ 64 →
      added < 2 ^ 64 → updated < 2 ^ 64 → removed < 2 ^ 64 →
      last.metrics.counters.map (fun counter => (counter.1, counter.2.toNat)) =
          [("cycles_processed", batches.length),
            ("snapshots_applied", batches.countP fun batch => batch.2),
            ("records_processed", records), ("records_ignored", ignored), ("levels_added", added),
            ("levels_updated", updated), ("levels_removed", removed),
            ("cycle_latency_samples", min 1000 batches.length)] ∧
        ignored ≤ records ∧
        last.book.version.toNat + (batches.countP fun batch => batch.1.isEmpty && !batch.2) =
          batches.length ∧
        (added : Int) - removed =
          ((turns.filter fun turn => !turn.fresh).map Turn.growth).sum ∧
        ((∀ batch ∈ batches, batch.2 = false) → (added : Int) - removed = last.book.visible.size) := by
  intro live batches turns last added updated removed records ignored hS hcycles hrecords hadded
    hupdated hremoved
  obtain ⟨hplain, -, -⟩ := run_absorb live deliveries
  have hnew : live.metrics = .empty := rfl
  have hbook : last.book = live.book.run batches :=
    (congrArg LiveBook.book hplain).trans (book_absorb live.plain batches)
  have hcounters : last.metrics.counters = (live.absorb batches).1.metrics.counters := by
    rw [← Metrics.counters_untimed]
    exact congrArg (fun live : LiveBook τ => live.metrics.counters) hplain
  have hshaped : live.book.Shaped (fun side => (hS.scale side).some) depth fun _ => .empty :=
    Book.shaped_empty symbol source depth
  have hturns := hshaped.turns (Book.reported_pricesOf batches)
  have hbalance := Turn.sum_balance fun turn hin => by
    obtain ⟨hreported, _, hbefore⟩ := hturns turn hin
    exact Turn.balance hbefore hreported
  refine ⟨?_, Book.sum_ignored_le live.book batches, ?_, hbalance, fun hplainly => ?_⟩
  · rw [hcounters]
    exact counters_absorb hnew hcycles hrecords hadded hupdated hremoved
  · have hversion : last.book.version.toNat =
        batches.countP fun batch => !(batch.1.isEmpty && !batch.2) := by
      have hzero : live.book.version = 0 := rfl
      rw [hbook, Book.version_run, hzero, UInt64.zero_add]
      exact UInt64.toNat_ofNat_of_lt' (List.countP_le_length.trans_lt hcycles)
    have hsplit := List.length_eq_countP_add_countP
      (fun batch : List Report × Bool => batch.1.isEmpty && !batch.2) (l := batches)
    rw [hversion, hsplit, Nat.add_comm]
    congr 2
    funext batch
    cases batch.1.isEmpty && !batch.2 <;> rfl
  · have hall : turns.filter (fun turn => !turn.fresh) = turns := by
      refine List.filter_eq_self.mpr fun turn hin => ?_
      have hbatch : (turn.reports, turn.fresh) ∈ batches := by
        rw [← live.book.turns_content batches]
        exact List.mem_map_of_mem hin
      have hfresh : turn.fresh = false := hplainly _ hbatch
      rw [hfresh]
      rfl
    have hstart : live.book.visible.size = 0 := by
      rw [hshaped.visible]
      simp [shown, Levels.size, Ladder.values, Ladder.empty]
    rw [hbalance, hall, Book.sum_growth, hstart, hbook]
    exact Int.sub_zero _

/-- The session of a book, with a batch for another symbol in between. -/
def interrupted (latency : UInt64) : List Delivery :=
  [⟨⟨⟨"X"⟩, ⟨"Y"⟩, .order, [⟨1, .buy, Price.one.value, Price.two.value, 0, {}⟩,
      ⟨2, .sell, Price.two.value, Price.one.value, 0, {}⟩]⟩, true, latency⟩,
    ⟨⟨⟨"Z"⟩, ⟨"Y"⟩, .order, []⟩, true, latency⟩,
    ⟨⟨⟨"X"⟩, ⟨"Y"⟩, .order, [.gone 1 1]⟩, false, latency⟩]

theorem run_accounts_interrupted :
    let live : LiveBook Nat := { book := .empty ⟨"X"⟩ ⟨"Y"⟩ 1 }
    let last := (live.run (interrupted 5)).1
    Unchained (Book.pricesOf Book.session) ∧
      last.metrics.counters.map (fun counter => (counter.1, counter.2.toNat)) =
        [("cycles_processed", 2), ("snapshots_applied", 1), ("records_processed", 3),
          ("records_ignored", 0), ("levels_added", 0), ("levels_updated", 0),
          ("levels_removed", 1), ("cycle_latency_samples", 2)] := by
  intro live last
  have hbatches : ((interrupted 5).filter live.accepts).map Delivery.content = Book.session := by
    simp [interrupted, accepts, objection?, live, Book.empty, Delivery.content, Book.session]
  have hcounted : ((live.book.turns Book.session).map fun turn => turn.changes.additions.size).sum = 0 ∧
      ((live.book.turns Book.session).map fun turn => turn.changes.updates.size).sum = 0 ∧
      ((live.book.turns Book.session).map fun turn => turn.changes.removals.size).sum = 1 ∧
      ((live.book.turns Book.session).map fun turn => turn.cycle.ignored).sum = 0 := by
    decide +kernel
  obtain ⟨hadded, hupdated, hremoved, hignored⟩ := hcounted
  have h := run_accounts ⟨"X"⟩ ⟨"Y"⟩ 1 ({} : Observers Nat) (interrupted 5)
  dsimp only at h
  rw [hbatches, hadded, hupdated, hremoved, hignored] at h
  have hrecords : (Book.session.map fun batch => batch.1.length).sum = 3 := rfl
  have hfresh : (Book.session.countP fun batch => batch.2) = 1 := rfl
  have hlength : Book.session.length = 2 := rfl
  rw [hrecords, hfresh, hlength] at h
  obtain ⟨hcounters, -⟩ := h Book.unchained_session (by decide) (by decide) (by decide)
    (by decide) (by decide)
  exact ⟨Book.unchained_session, hcounters⟩

end LiveBook

end MarketDepth
