import MarketDepth.Snapshot
import MarketDepth.Window

/-! The book of one symbol and source. A batch is netted against the ledger, its deltas go to the
windows of both sides, and the book says what there is to announce. -/

namespace MarketDepth

structure Book where
  symbol : Symbol
  source : Source
  ledger : Ledger := .empty
  asks : Window .ask
  bids : Window .bid
  /-- Number of batches that led to a notice. -/
  version : UInt64 := 0

inductive Notice where
  | newBook (book : Levels)
  | changed (changes : ChangeSet) (book : Levels)

structure Cycle where
  notice : Option Notice := none
  /-- Removals of orders that were not live. -/
  ignored : Nat := 0

namespace Book

def empty (symbol : Symbol) (source : Source) (depth : Nat) : Book :=
  { symbol, source, asks := .empty depth, bids := .empty depth }

def depth (book : Book) : Nat := book.asks.depth

def visible (book : Book) : Levels := ⟨book.asks.visible, book.bids.visible⟩

def orderCount (book : Book) : Nat := book.ledger.size

def snapshot (book : Book) : Snapshot :=
  .ofLevels book.symbol book.source book.version book.visible

def clear (book : Book) : Book :=
  { book with ledger := .empty, asks := book.asks.clear, bids := book.bids.clear }

def update (book : Book) (reports : List Report) : Book × ChangeSet × Nat :=
  let (ledger, deltas) := book.ledger.net reports
  let (asks, askChanges) := book.asks.apply deltas.asks
  let (bids, bidChanges) := book.bids.apply deltas.bids
  ({ book with ledger, asks, bids, version := book.version + 1 },
    .ofSides askChanges bidChanges, deltas.ignored)

/-- Processes a batch. A fresh one starts from nothing and announces the whole book, even with no
reports in it; any other one announces its changes, and nothing if it is empty. -/
def process (book : Book) (reports : List Report) (fresh : Bool) : Book × Cycle :=
  let book := if fresh then book.clear else book
  if reports.isEmpty then
    if fresh then ({ book with version := book.version + 1 }, { notice := some (.newBook .empty) })
    else (book, {})
  else
    let (book, changes, ignored) := book.update reports
    let notice := if fresh then .newBook book.visible else .changed changes book.visible
    (book, { notice := some notice, ignored })

end Book

end MarketDepth
