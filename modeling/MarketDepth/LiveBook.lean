import MarketDepth.Book
import MarketDepth.Config
import MarketDepth.Feed
import MarketDepth.Metrics

/-! A live book tells observers what it has to announce, and keeps metrics. -/

namespace MarketDepth

inductive BookError where
  | config (error : ConfigError)
  | feed (error : FeedError)
  deriving DecidableEq

def BookError.message : BookError → String
  | .config error => "Config error: " ++ error.message
  | .feed error => "Feed error: " ++ error.message

inductive Announcement where
  | newBook (book : Levels)
  | changes (changes : ChangeSet)
  | bookUpdate (book : Levels)

structure Observers (τ : Type) where
  newBook : Option τ := none
  changes : Option τ := none
  bookUpdate : Option τ := none

/-- Who is told what about a notice. The changes are announced before the book they lead to. -/
def Observers.hear {τ : Type} (observers : Observers τ) : Notice → List (τ × Announcement)
  | .newBook book => (observers.newBook.map fun observer => (observer, .newBook book)).toList
  | .changed changes book =>
    (observers.changes.map fun observer => (observer, .changes changes)).toList
      ++ (observers.bookUpdate.map fun observer => (observer, .bookUpdate book)).toList

structure LiveBook (τ : Type) where
  book : Book
  observers : Observers τ := {}
  metrics : Metrics := .empty
  /-- A call has broken off while it held the lock. -/
  poisoned : Bool := false

namespace LiveBook

variable {τ : Type}

def ofConfig (config : Config) : Except ConfigError (LiveBook τ) := do
  config.validate
  let symbol ← config.symbolId
  let source ← config.sourceId
  return { book := .empty symbol source config.depth.toNat }

structure Processed (τ : Type) where
  live : LiveBook τ
  heard : List (τ × Announcement)
  records : Nat
  ignored : Nat

def accept (live : LiveBook τ) (reports : List Report) (fresh : Bool) : Processed τ :=
  let (book, cycle) := live.book.process reports fresh
  let metrics := if fresh then live.metrics.recordSnapshot else live.metrics
  let metrics := match cycle.notice with
    | some (.changed changes _) => metrics.recordChanges changes
    | _ => metrics
  { live := { live with book, metrics }
    heard := (cycle.notice.map live.observers.hear).getD []
    records := reports.length
    ignored := cycle.ignored }

def Processed.timed (processed : Processed τ) (latency : UInt64) : LiveBook τ :=
  { processed.live with
    metrics := processed.live.metrics.recordCycle processed.records.toUInt64
      processed.ignored.toUInt64 latency }

/-- What a call works on: the live book and who has been told what so far. -/
structure Scene (τ : Type) where
  live : LiveBook τ
  heard : List (τ × Announcement) := []

/-- A call may break off at a broken promise. What it has done by then stays done. -/
abbrev Call (τ α : Type) : Type := ExceptT Breach (StateM (Scene τ)) α

namespace Call

variable {α : Type}

def expect (promise : Bool) (breach : Breach) : Call τ Unit :=
  if promise then pure () else throw breach

/-- Takes the lock for a part of a call, even if an earlier call broke off and left it poisoned. -/
def locked (part : Call τ α) : Call τ α :=
  tryCatch part fun breach => do
    modify fun scene => { scene with live := { scene.live with poisoned := true } }
    throw breach

end Call

/-- Hands the live book a batch, which must be of orders, and of the symbol of the book. Its source
does not matter. -/
def handle (batch : Batch) (fresh : Bool) (latency : UInt64) : Call τ Unit := do
  Call.expect (batch.kind == .order) .unsupportedKind
  Call.locked do
    Call.expect (batch.symbol == (← get).live.book.symbol) .otherSymbol
    modify fun scene =>
      let processed := scene.live.accept batch.reports fresh
      { live := processed.timed latency, heard := scene.heard ++ processed.heard }

/-- What comes of a call: the live book after it, who was told what, and why it broke off, if so. -/
def call (live : LiveBook τ) (batch : Batch) (fresh : Bool) (latency : UInt64) :
    LiveBook τ × List (τ × Announcement) × Option Breach :=
  let (outcome, scene) := (handle batch fresh latency).run { live }
  (scene.live, scene.heard, match outcome with
    | .ok _ => none
    | .error breach => some breach)

end LiveBook

end MarketDepth
