import MarketDepth.Proofs.BitOrder
import MarketDepth.Proofs.LedgerEntries

/-! Mirror images. Buyers stand to high prices as sellers stand to low ones, so a book that hears of
buyers for sellers, at negated prices, is the image of the book with its sides exchanged. -/

namespace MarketDepth

theorem near_neg (a b : Float) : near (-a) (-b) = near a b := by
  rw [Bool.eq_iff_iff, near_iff, near_iff, isFinite_float_neg, isFinite_float_neg, steps_neg,
    steps_neg, show -steps a - -steps b = -(steps a - steps b) by omega, Int.natAbs_neg]

namespace Price

def neg (price : Price) : Price := ⟨-price.value, (isNaN_float_neg price.value).trans price.isNumber⟩

theorem compare_neg (a b : Price) : a.neg.compare b.neg = b.compare a := by
  unfold compare
  rw [neg, neg, near_neg, near_comm, totalKey_neg a.isNumber, totalKey_neg b.isNumber]
  split_ifs
  · rfl
  · simp only [Int.compare_eq_ite_lt]
    split_ifs <;> first | rfl | omega

theorem ofFloat?_neg (x : Float) : ofFloat? (-x) = (ofFloat? x).map neg := by
  unfold ofFloat?
  by_cases h : x.isNaN = false
  · rw [dif_pos h, dif_pos ((isNaN_float_neg x).trans h)]
    rfl
  · rw [dif_neg h, dif_neg ((isNaN_float_neg x).symm ▸ h)]
    rfl

end Price

def Side.flip : Side → Side
  | .ask => .bid
  | .bid => .ask

theorem Side.rank_flip (side : Side) (a b : Price) :
    side.flip.rank a.neg b.neg = side.rank a b := by
  cases side with
  | ask => exact Price.compare_neg b a
  | bid => exact Price.compare_neg a b

/-- The other side at negated prices. -/
def reflection (side : Side) : Recasting side side.flip := ⟨Price.neg, id, side.rank_flip⟩

def Interest.flip : Interest → Interest
  | .buy => .sell
  | .sell => .buy
  | .unstated => .unstated

def Level.reflect (level : Level) : Level := { level with price := level.price.neg }

def Levels.reflect (levels : Levels) : Levels where
  asks := levels.bids.map Level.reflect
  bids := levels.asks.map Level.reflect

def ChangeSet.reflect (changes : ChangeSet) : ChangeSet where
  additions := changes.additions.reflect
  updates := changes.updates.reflect
  removals := changes.removals.reflect

def Notice.reflect : Notice → Notice
  | .newBook book => .newBook book.reflect
  | .changed changes book => .changed changes.reflect book.reflect

def Cycle.reflect (cycle : Cycle) : Cycle :=
  { cycle with notice := cycle.notice.map Notice.reflect }

def Resting.reflect (order : Resting) : Resting :=
  { order with price := order.price.map Price.neg, interest := order.interest.flip }

def Report.reflect (report : Report) : Report :=
  { report with price := -report.price, interest := report.interest.flip }

theorem Report.resting_reflect (report : Report) :
    report.reflect.resting = report.resting.reflect := by
  rw [resting, price?, reflect, Price.ofFloat?_neg]
  rfl

def reflectBatch (batch : List Report × Bool) : List Report × Bool :=
  (batch.1.map Report.reflect, batch.2)

/-- Live reports name a side. A removal need not. -/
def Stated (reports : List Report) : Prop :=
  ∀ report ∈ reports, report.isRemoval = false → report.interest ≠ .unstated

namespace Ledger

structure Reflects (ledger image : Ledger) : Prop where
  get? : ∀ index, image.get? index = (ledger.get? index).map Resting.reflect
  stated : ledger.All fun order => order.interest ≠ .unstated

variable {ledger image : Ledger}

theorem reflects_empty : Ledger.empty.Reflects .empty :=
  ⟨fun index => by rw [get?_empty]; rfl, all_empty⟩

theorem Reflects.size (h : ledger.Reflects image) : image.size = ledger.size := by
  rw [← card_indices, ← card_indices]
  congr 1
  ext index
  rw [mem_indices, mem_indices, h.get?, Option.isSome_map]

theorem Reflects.insert (h : ledger.Reflects image) {order : Resting}
    (ho : order.interest ≠ .unstated) :
    (ledger.insert order).Reflects (image.insert order.reflect) := by
  refine ⟨fun index => ?_, h.stated.insert ho⟩
  have hindex : order.reflect.index = order.index := rfl
  rw [get?_insert, get?_insert, hindex, h.get?]
  split_ifs <;> rfl

theorem Reflects.erase (h : ledger.Reflects image) (gone : Int64) :
    (ledger.erase gone).Reflects (image.erase gone) := by
  refine ⟨fun index => ?_, h.stated.erase gone⟩
  rw [get?_erase, get?_erase, h.get?]
  split_ifs <;> rfl

end Ledger

namespace Netting

/-- One netting gathers on each side what the other gathers across from it. -/
structure Reflects (net image : Netting) : Prop where
  ledger : net.ledger.Reflects image.ledger
  gathered : ∀ side,
    image.on side.flip = (reflection side).ladder (reflection side).delta (net.on side)
  ignored : image.ignored = net.ignored

variable {net image : Netting}

theorem reflects_start {ledger image : Ledger} (h : ledger.Reflects image) :
    Reflects { ledger } { ledger := image } := by
  refine ⟨h, fun side => ?_, rfl⟩
  cases side <;> rfl

theorem upsert_gather (side : Side) (ladder : Ladder side Delta) (price : Price) (size : Float)
    (time : Int64) : ((reflection side).ladder (reflection side).delta ladder).upsert price.neg
      (gather price.neg size time) =
    (reflection side).ladder (reflection side).delta
      (ladder.upsert price (gather price size time)) := by
  refine (reflection side).upsert_ladder (reflection side).delta ladder price fun o => ?_
  cases o <;> rfl

theorem Reflects.contribute (h : net.Reflects image) {interest : Interest}
    (hstated : interest ≠ .unstated) (price : Option Price) (size : Float) (time : Int64) :
    (net.contribute interest price size time).Reflects
      (image.contribute interest.flip (price.map Price.neg) size time) := by
  cases price with
  | none => exact h
  | some price =>
    refine ⟨by simpa using h.ledger, fun side => ?_, by simpa using h.ignored⟩
    have hhere := upsert_gather side (net.on side) price size time
    rw [← h.gathered] at hhere
    cases interest with
    | unstated => exact absurd rfl hstated
    | buy =>
      cases side with
      | ask => exact h.gathered .ask
      | bid => exact hhere
    | sell =>
      cases side with
      | ask => exact hhere
      | bid => exact h.gathered .bid

theorem Reflects.withdraw (h : net.Reflects image) {index : Int64} {order : Resting}
    (hget : net.ledger.get? index = some order) (time : Int64) :
    (net.withdraw order time).Reflects (image.withdraw order.reflect time) :=
  h.contribute (h.ledger.stated index order hget) order.price (-order.size) time

theorem Reflects.book (h : net.Reflects image) {report : Report}
    (hstated : report.interest ≠ .unstated) :
    (net.book report).Reflects (image.book report.reflect) := by
  have hcontribute := h.contribute hstated report.price? report.size report.time
  have hprice : report.price?.map Price.neg = report.reflect.price? :=
    (Price.ofFloat?_neg report.price).symm
  rw [hprice] at hcontribute
  refine ⟨?_, hcontribute.gathered, hcontribute.ignored⟩
  rw [ledger_book, ledger_book, report.resting_reflect]
  exact h.ledger.insert hstated

theorem Reflects.add (h : net.Reflects image) {report : Report}
    (hstated : report.isRemoval = false → report.interest ≠ .unstated) :
    (net.add report).Reflects (image.add report.reflect) := by
  have himage := h.ledger.get? report.index
  have hindex : report.reflect.index = report.index := rfl
  have hremoval : report.reflect.isRemoval = report.isRemoval := rfl
  unfold Netting.add
  rw [hindex, hremoval, himage]
  cases hget : net.ledger.get? report.index with
  | none =>
    cases hout : report.isRemoval with
    | false => exact h.book (hstated hout)
    | true => exact ⟨h.ledger, h.gathered, congrArg (· + 1) h.ignored⟩
  | some order =>
    have hwithdraw := h.withdraw hget report.time
    cases hout : report.isRemoval with
    | false => exact hwithdraw.book (hstated hout)
    | true =>
      exact ⟨hwithdraw.ledger.erase report.index, hwithdraw.gathered, hwithdraw.ignored⟩

theorem Reflects.foldl {reports : List Report} (h : net.Reflects image) (hstated : Stated reports) :
    (reports.foldl Netting.add net).Reflects
      ((reports.map Report.reflect).foldl Netting.add image) := by
  induction reports generalizing net image with
  | nil => exact h
  | cons report rest ih =>
    obtain ⟨hreport, hrest⟩ := List.forall_mem_cons.mp hstated
    exact ih (h.add hreport) hrest

theorem Reflects.deltas (h : net.Reflects image) (side : Side) :
    image.deltas.on side.flip = (net.deltas.on side).map (reflection side).delta := by
  rw [deltas_on, deltas_on, h.gathered, Recasting.values_ladder, List.filter_map]
  rfl

end Netting

theorem ChangeSet.ofSides_reflect (asks : SideChanges .ask) (bids : SideChanges .bid) :
    ofSides ((reflection .bid).changes bids) ((reflection .ask).changes asks) =
      (ofSides asks bids).reflect := by
  have hlevels : ∀ (asks : Ladder .ask Level) (bids : Ladder .bid Level),
      Levels.mk ((reflection .bid).ladder (reflection .bid).level bids).values
        ((reflection .ask).ladder (reflection .ask).level asks).values =
      Levels.reflect ⟨asks.values, bids.values⟩ := fun asks bids =>
    congrArg₂ Levels.mk ((reflection .bid).values_ladder _ bids)
      ((reflection .ask).values_ladder _ asks)
  exact congr (congrArg₂ ChangeSet.mk (hlevels asks.additions bids.additions)
    (hlevels asks.updates bids.updates)) (hlevels asks.removals bids.removals)

namespace Book

/-- The image holds on each side the levels that the book holds across from it. -/
structure Reflects (book image : Book) : Prop where
  ledger : book.ledger.Reflects image.ledger
  window : ∀ side, image.on side.flip = (reflection side).window (book.on side)
  version : image.version = book.version

variable {book image : Book} {reports : List Report}

theorem reflects_empty (symbol : Symbol) (source : Source) (depth : Nat) :
    (Book.empty symbol source depth).Reflects (.empty symbol source depth) := by
  refine ⟨Ledger.reflects_empty, fun side => ?_, rfl⟩
  cases side <;> rfl

theorem Reflects.clear (h : book.Reflects image) : book.clear.Reflects image.clear := by
  refine ⟨Ledger.reflects_empty, fun side => ?_, h.version⟩
  have hclear := congrArg Window.clear (h.window side)
  cases side <;> exact hclear

theorem Reflects.visible (h : book.Reflects image) : image.visible = book.visible.reflect := by
  have hasks := congrArg Window.visible (h.window .bid)
  have hbids := congrArg Window.visible (h.window .ask)
  rw [Recasting.visible_window] at hasks hbids
  exact congrArg₂ Levels.mk hasks hbids

theorem Reflects.stored (h : book.Reflects image) (side : Side) :
    (image.on side.flip).size = (book.on side).size := by
  rw [h.window, Recasting.size_window]

theorem Reflects.update (h : book.Reflects image) (hstated : Stated reports) :
    (book.update reports).1.Reflects (image.update (reports.map Report.reflect)).1 ∧
      (image.update (reports.map Report.reflect)).2 =
        ((book.update reports).2.1.reflect, (book.update reports).2.2) := by
  have hnet := (Netting.reflects_start h.ledger).foldl hstated
  -- A window does no more than rank prices, so it does to the image of the deltas what it does to them.
  have happly : ∀ side, (image.on side.flip).apply
      ((image.ledger.net (reports.map Report.reflect)).2.on side.flip) =
        (reflection side).state ((book.on side).apply ((book.ledger.net reports).2.on side)) := by
    intro side
    rw [h.window, ← Recasting.apply_window]
    exact congrArg _ (hnet.deltas side)
  constructor
  · refine ⟨hnet.ledger, fun side => ?_, congrArg (· + 1) h.version⟩
    rw [update_on, update_on, happly]
    rfl
  · refine Prod.ext ?_ hnet.ignored
    exact (congrArg₂ ChangeSet.ofSides (congrArg Prod.snd (happly .bid))
      (congrArg Prod.snd (happly .ask))).trans (ChangeSet.ofSides_reflect _ _)

theorem Reflects.base (h : book.Reflects image) (fresh : Bool) :
    (book.base fresh).Reflects (image.base fresh) := by
  cases fresh with
  | true => exact h.clear
  | false => exact h

theorem Reflects.process (h : book.Reflects image) (hstated : Stated reports) (fresh : Bool) :
    (book.process reports fresh).1.Reflects
        (image.process (reports.map Report.reflect) fresh).1 ∧
      (image.process (reports.map Report.reflect) fresh).2 =
        (book.process reports fresh).2.reflect := by
  have hbase := h.base fresh
  cases reports with
  | nil =>
    cases fresh with
    | true => exact ⟨⟨hbase.ledger, hbase.window, congrArg (· + 1) hbase.version⟩, rfl⟩
    | false => exact ⟨hbase, rfl⟩
  | cons report rest =>
    obtain ⟨hupdate, hchanges⟩ := hbase.update hstated
    have hvisible := hupdate.visible
    have hset := congrArg Prod.fst hchanges
    have hignored := congrArg Prod.snd hchanges
    cases fresh with
    | true =>
      exact ⟨hupdate, congrArg₂ (fun visible ignored => Cycle.mk (some (.newBook visible)) ignored)
        hvisible hignored⟩
    | false =>
      exact ⟨hupdate, congr (congrArg₂ (fun changes visible ignored =>
        Cycle.mk (some (.changed changes visible)) ignored) hset hvisible) hignored⟩

theorem Reflects.run {batches : List (List Report × Bool)} (h : book.Reflects image)
    (hstated : ∀ batch ∈ batches, Stated batch.1) :
    (book.run batches).Reflects (image.run (batches.map reflectBatch)) := by
  induction batches generalizing book image with
  | nil => exact h
  | cons batch rest ih =>
    obtain ⟨hbatch, hrest⟩ := List.forall_mem_cons.mp hstated
    exact ih (h.process hbatch batch.2).1 hrest

/-- Whatever batches a book has seen and whichever comes next: one that is told of buyers for sellers,
at negated prices, shows and stores the same on the other side, and announces the same across. -/
theorem run_reflect (symbol : Symbol) (source : Source) (depth : Nat)
    (batches : List (List Report × Bool)) (reports : List Report) (fresh : Bool)
    (hstated : ∀ batch ∈ batches ++ [(reports, fresh)], Stated batch.1) :
    let book := (Book.empty symbol source depth).run batches
    let image := (Book.empty symbol source depth).run (batches.map reflectBatch)
    let turn := book.process reports fresh
    let opposite := image.process (reports.map Report.reflect) fresh
    opposite.1.visible.asks = turn.1.visible.bids.map Level.reflect ∧
    opposite.1.visible.bids = turn.1.visible.asks.map Level.reflect ∧
    opposite.1.asks.size = turn.1.bids.size ∧ opposite.1.bids.size = turn.1.asks.size ∧
    opposite.1.orderCount = turn.1.orderCount ∧ opposite.1.version = turn.1.version ∧
    opposite.2.ignored = turn.2.ignored ∧
    opposite.2.notice = turn.2.notice.map Notice.reflect := by
  intro book image turn opposite
  obtain ⟨hearlier, hlast⟩ := List.forall_mem_append.mp hstated
  have hrun : book.Reflects image := (reflects_empty symbol source depth).run hearlier
  obtain ⟨hturn, hcycle⟩ := hrun.process (hlast _ List.mem_cons_self) fresh
  have hasks := congrArg Levels.asks hturn.visible
  have hbids := congrArg Levels.bids hturn.visible
  have hignored := congrArg Cycle.ignored hcycle
  have hnotice := congrArg Cycle.notice hcycle
  exact ⟨hasks, hbids, hturn.stored .bid, hturn.stored .ask, hturn.ledger.size, hturn.version,
    hignored, hnotice⟩

/-- The seller that the session leaves goes, an order goes that is not there, and a buyer comes without
a price. -/
def farewell : List Report := [.gone 2 2, .gone 3 2, ⟨4, .buy, notANumber, 1, 3, {}⟩]

theorem run_reflect_farewell :
    let book := (Book.empty ⟨"X"⟩ ⟨"Y"⟩ 1).run session
    let image := (Book.empty ⟨"X"⟩ ⟨"Y"⟩ 1).run (session.map reflectBatch)
    let turn := book.process farewell false
    let opposite := image.process (farewell.map Report.reflect) false
    (∀ batch ∈ session ++ [(farewell, false)], Stated batch.1) ∧
    turn.1.orderCount = 1 ∧ turn.2.ignored = 1 ∧
    opposite.1.visible.bids = turn.1.visible.asks.map Level.reflect ∧
    opposite.2.ignored = turn.2.ignored ∧
    opposite.2.notice = turn.2.notice.map Notice.reflect := by
  have hstated : ∀ batch ∈ session ++ [(farewell, false)], Stated batch.1 := by
    unfold Stated
    decide +kernel
  obtain ⟨-, hbids, -, -, -, -, hignored, hnotice⟩ :=
    run_reflect ⟨"X"⟩ ⟨"Y"⟩ 1 session farewell false hstated
  exact ⟨hstated, by decide +kernel, by decide +kernel, hbids, hignored, hnotice⟩

end Book

end MarketDepth
