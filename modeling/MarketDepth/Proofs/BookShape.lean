import MarketDepth.Book
import MarketDepth.Proofs.NetDeltas
import MarketDepth.Proofs.WindowChanges

/-! The shape of a book: a window on each side with its mark where it belongs, and a ledger of reported
prices. Every batch keeps it, and announces the way from one visible book to the next. -/

namespace MarketDepth

variable {S : Set Price} {scale : ∀ side, Scale side S}

def Levels.on (levels : Levels) : Side → List Level
  | .ask => levels.asks
  | .bid => levels.bids

namespace Book

def on (book : Book) : (side : Side) → Window side
  | .ask => book.asks
  | .bid => book.bids

structure Shaped (scale : ∀ side, Scale side S) (depth : Nat) (ladders : ∀ side, Ladder side Level)
    (book : Book) : Prop where
  filed : ∀ side, (ladders side).Filed (scale side) Level.price
  window : ∀ side, book.on side = Window.marked depth (ladders side)
  ledger : book.ledger.Known S

def Announces (scale : ∀ side, Scale side S) (before after : Levels) (changes : ChangeSet) :
    Prop :=
  ∃ asks bids touchedAsks touchedBids, changes = .ofSides asks bids ∧
    Tracks (scale .ask) before.asks after.asks touchedAsks asks ∧
    Tracks (scale .bid) before.bids after.bids touchedBids bids

variable {depth : Nat} {ladders : ∀ side, Ladder side Level} {book : Book} {reports : List Report}

theorem shaped_empty (symbol : Symbol) (source : Source) (depth : Nat) :
    (Book.empty symbol source depth).Shaped scale depth fun _ => .empty := by
  refine ⟨fun _ => Ladder.Filed.empty, fun side => ?_, Ledger.known_empty⟩
  cases side <;> exact Window.empty_eq_marked depth

theorem Shaped.clear (h : book.Shaped scale depth ladders) :
    book.clear.Shaped scale depth fun _ => .empty := by
  refine ⟨fun _ => Ladder.Filed.empty, fun side => ?_, Ledger.known_empty⟩
  have hclear : book.clear.on side = (book.on side).clear := by cases side <;> rfl
  rw [hclear, h.window]
  exact Window.empty_eq_marked depth

theorem visible_on_eq (book : Book) (side : Side) :
    book.visible.on side = (book.on side).visible := by
  cases side <;> rfl

theorem Shaped.visible_on (h : book.Shaped scale depth ladders) (side : Side) :
    book.visible.on side = shown depth (ladders side).values := by
  rw [visible_on_eq, h.window, Window.visible_marked (h.filed side).toOrdered]

theorem Shaped.visible (h : book.Shaped scale depth ladders) :
    book.visible = ⟨shown depth (ladders .ask).values, shown depth (ladders .bid).values⟩ := by
  rw [← h.visible_on, ← h.visible_on]
  rfl

theorem update_on (book : Book) (reports : List Report) (side : Side) :
    (book.update reports).1.on side =
      ((book.on side).apply ((book.ledger.net reports).2.on side)).1 := by
  cases side <;> rfl

theorem Shaped.update (h : book.Shaped scale depth ladders) (hp : Reported S reports) :
    (book.update reports).1.Shaped scale depth
        (fun side => Window.settle (ladders side) ((book.ledger.net reports).2.on side)) ∧
      Announces scale book.visible (book.update reports).1.visible (book.update reports).2.1 := by
  obtain ⟨hledger, hnetted⟩ := h.ledger.net scale hp
  have hstage := fun side => Window.apply_marked (h.filed side) (hnetted side) depth
  simp only [← h.window] at hstage
  have hshaped : (book.update reports).1.Shaped scale depth
      (fun side => Window.settle (ladders side) ((book.ledger.net reports).2.on side)) :=
    ⟨fun side => (hstage side).filed, fun side => (update_on book reports side).trans
      (hstage side).window, hledger⟩
  have htracksAsks := (hstage .ask).tracks
  have htracksBids := (hstage .bid).tracks
  rw [h.visible, hshaped.visible]
  exact ⟨hshaped, _, _, _, _, rfl, htracksAsks, htracksBids⟩

structure Listed (scale : ∀ side, Scale side S) (levels : Levels) : Prop where
  asks : BestFirst (scale .ask) Level.price levels.asks
  bids : BestFirst (scale .bid) Level.price levels.bids
  knownAsks : ∀ l ∈ levels.asks, l.price ∈ S
  knownBids : ∀ l ∈ levels.bids, l.price ∈ S

theorem Shaped.listed (h : book.Shaped scale depth ladders) : Listed scale book.visible := by
  rw [h.visible]
  exact ⟨(h.filed .ask).bestFirst.shown depth, (h.filed .bid).bestFirst.shown depth,
    fun _ hl => (h.filed .ask).known_of_mem ((shown_sublist _ _).subset hl),
    fun _ hl => (h.filed .bid).known_of_mem ((shown_sublist _ _).subset hl)⟩

/-- What a notice says of the visible book before a batch and after it. -/
def Tells (scale : ∀ side, Scale side S) (before after : Levels) : Option Notice → Prop
  | none => after = before
  | some (.newBook levels) => levels = after
  | some (.changed changes levels) => Announces scale before after changes ∧ levels = after

def base (book : Book) (fresh : Bool) : Book := if fresh then book.clear else book

/-- A batch is processed from the base of the book: one without reports leaves it there, any other
updates it. -/
theorem process_cases (book : Book) (reports : List Report) (fresh : Bool) :
    (reports = [] ∧ (∀ side, (book.process reports fresh).1.on side = (book.base fresh).on side) ∧
      (book.process reports fresh).1.ledger = (book.base fresh).ledger ∧
      (book.process reports fresh).2.notice = if fresh then some (.newBook .empty) else none) ∨
    ((book.process reports fresh).1 = ((book.base fresh).update reports).1 ∧
      (book.process reports fresh).2.notice = some (
        if fresh then .newBook ((book.base fresh).update reports).1.visible
        else .changed ((book.base fresh).update reports).2.1
          ((book.base fresh).update reports).1.visible)) := by
  cases reports with
  | nil =>
    refine .inl ⟨rfl, fun side => ?_, ?_, ?_⟩
    · cases fresh <;> cases side <;> rfl
    · cases fresh <;> rfl
    · cases fresh <;> rfl
  | cons report rest => cases fresh <;> exact .inr ⟨rfl, rfl⟩

theorem Shaped.base (h : book.Shaped scale depth ladders) (fresh : Bool) :
    (book.base fresh).Shaped scale depth fun side => if fresh then .empty else ladders side := by
  cases fresh with
  | true => exact h.clear
  | false => exact h

theorem Shaped.congr {book' : Book} (h : book.Shaped scale depth ladders)
    (hon : ∀ side, book'.on side = book.on side) (hledger : book'.ledger = book.ledger) :
    book'.Shaped scale depth ladders :=
  ⟨h.filed, fun side => (hon side).trans (h.window side), hledger ▸ h.ledger⟩

theorem Shaped.process (h : book.Shaped scale depth ladders) (hp : Reported S reports)
    (fresh : Bool) : (∃ ladders, (book.process reports fresh).1.Shaped scale depth ladders) ∧
      Tells scale book.visible (book.process reports fresh).1.visible
        (book.process reports fresh).2.notice := by
  have hbase := h.base fresh
  rcases book.process_cases reports fresh with ⟨-, hon, hledger, hnotice⟩ | ⟨hbook, hnotice⟩
  · have hshaped := hbase.congr hon hledger
    refine ⟨⟨_, hshaped⟩, ?_⟩
    rw [hnotice, hshaped.visible]
    cases fresh with
    | true =>
      change Levels.empty = ⟨shown depth [], shown depth []⟩
      rw [shown_nil]
      rfl
    | false => exact h.visible.symm
  · obtain ⟨hupdate, hannounces⟩ := hbase.update hp
    rw [hbook, hnotice]
    refine ⟨⟨_, hupdate⟩, ?_⟩
    cases fresh with
    | true => exact rfl
    | false => exact ⟨hannounces, rfl⟩

def run (book : Book) (batches : List (List Report × Bool)) : Book :=
  batches.foldl (fun book batch => (book.process batch.1 batch.2).1) book

theorem run_concat (book : Book) (batches : List (List Report × Bool)) (reports : List Report)
    (fresh : Bool) :
    book.run (batches ++ [(reports, fresh)]) = ((book.run batches).process reports fresh).1 := by
  rw [Book.run, List.foldl_append]
  rfl

def pricesOf (batches : List (List Report × Bool)) : Set Price :=
  {price | ∃ batch ∈ batches, ∃ report ∈ batch.1, report.price? = some price}

theorem reported_pricesOf (batches : List (List Report × Bool)) :
    ∀ batch ∈ batches, Reported (pricesOf batches) batch.1 :=
  fun batch hin report hr _ hp => ⟨batch, hin, report, hr, hp⟩

theorem Shaped.run {batches : List (List Report × Bool)} (h : book.Shaped scale depth ladders)
    (hp : ∀ batch ∈ batches, Reported S batch.1) :
    ∃ ladders, (book.run batches).Shaped scale depth ladders := by
  induction batches generalizing book ladders with
  | nil => exact ⟨ladders, h⟩
  | cons batch rest ih =>
    obtain ⟨hb, hrest⟩ := List.forall_mem_cons.mp hp
    obtain ⟨⟨ladders', h'⟩, -⟩ := h.process hb batch.2
    exact ih h' hrest

theorem pricesOf_subset {batches : List (List Report × Bool)}
    (h : ∀ batch ∈ batches, ∀ report ∈ batch.1, report.price.isNaN = true ∨
      totalKey report.price = totalKey Price.one.value ∨
        totalKey report.price = totalKey Price.two.value) :
    pricesOf batches ⊆ {price | price ∈ [Price.one, Price.two]} := by
  rintro price ⟨batch, hbatch, report, hreport, hprice⟩
  unfold Report.price? Price.ofFloat? at hprice
  split_ifs at hprice with hnumber
  obtain rfl := Option.some.inj hprice
  rcases h batch hbatch report hreport with hnan | hone | htwo
  · rw [hnan] at hnumber
    cases hnumber
  · simp [totalKey_injective hone]
  · simp [totalKey_injective htwo]

theorem unchained_pricesOf {batches : List (List Report × Bool)}
    (h : ∀ batch ∈ batches, ∀ report ∈ batch.1, report.price.isNaN = true ∨
      totalKey report.price = totalKey Price.one.value ∨
        totalKey report.price = totalKey Price.two.value) : Unchained (pricesOf batches) :=
  unchained_one_two.mono (pricesOf_subset h)

/-- A bid at one and an ask at two, then the bid is gone. -/
def session : List (List Report × Bool) :=
  [([⟨1, .buy, Price.one.value, Price.two.value, 0, {}⟩,
      ⟨2, .sell, Price.two.value, Price.one.value, 0, {}⟩], true),
    ([.gone 1 1], false)]

theorem unchained_session : Unchained (pricesOf session) :=
  unchained_pricesOf (by decide)

end Book

end MarketDepth
