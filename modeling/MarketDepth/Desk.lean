import MarketDepth.LiveBook

/-! A desk has a feed, books with names, and taps, which are bare subscriptions with names. A book
or tap of a name takes the place of the one before it. -/

namespace MarketDepth

inductive Listener where
  /-- Stands for a book as long as there is one of that key, and does nothing after that. -/
  | book (key : Nat)
  | tap (name : String)
  deriving DecidableEq

inductive Sight (τ : Type) where
  | announced (book : String) (observer : τ) (announcement : Announcement)
  | delivered (tap : String) (records : Nat) (fresh : Bool)

inductive ObserverKind where
  | newBook
  | changes
  | bookUpdate
  deriving DecidableEq

def Observers.set {τ : Type} (observers : Observers τ) (kinds : List ObserverKind) (observer : τ) :
    Observers τ where
  newBook := if .newBook ∈ kinds then some observer else observers.newBook
  changes := if .changes ∈ kinds then some observer else observers.changes
  bookUpdate := if .bookUpdate ∈ kinds then some observer else observers.bookUpdate

structure Post (τ : Type) where
  /-- Which one it is of all the books that the desk has ever set up. -/
  key : Nat
  live : LiveBook τ
  subscription : Option Handle := none

structure Desk (τ : Type) where
  feed : Feed Listener := .empty
  books : List (String × Post τ) := []
  taps : List (String × Handle) := []
  /-- Keys are not used twice. -/
  nextKey : Nat := 0

def putEntry {α : Type} (name : String) (a : α) : List (String × α) → List (String × α)
  | [] => [(name, a)]
  | entry :: rest => if entry.1 = name then (name, a) :: rest else entry :: putEntry name a rest

def dropEntry {α : Type} (name : String) (entries : List (String × α)) : List (String × α) :=
  entries.filter fun entry => entry.1 != name

namespace Desk

variable {τ : Type}

def empty : Desk τ := {}

def book? (desk : Desk τ) (name : String) : Option (Post τ) := desk.books.lookup name

def setBook (desk : Desk τ) (name : String) (post : Post τ) : Desk τ :=
  { desk with books := putEntry name post desk.books }

/-- A subscription is closed once; after that the book has none. -/
def closeBook (desk : Desk τ) (name : String) : Desk τ :=
  match desk.book? name with
  | some post =>
    match post.subscription with
    | some handle =>
      let (feed, _) := desk.feed.close handle
      { desk with feed }.setBook name { post with subscription := none }
    | none => desk
  | none => desk

def dropBook (desk : Desk τ) (name : String) : Desk τ :=
  let desk := desk.closeBook name
  { desk with books := dropEntry name desk.books }

def detach (desk : Desk τ) (name : String) (config : Config) : Except BookError (Desk τ) := do
  let live ← (LiveBook.ofConfig config).mapError BookError.config
  let key := desk.nextKey
  return ({ desk with nextKey := key + 1 }.dropBook name).setBook name { key, live }

/-- Sets up a book on the feed. The configuration is checked before the feed; the book that had the
name is dropped after the new one has subscribed. -/
def create (desk : Desk τ) (name : String) (config : Config) : Except BookError (Desk τ) := do
  let live ← (LiveBook.ofConfig config).mapError BookError.config
  let key := desk.nextKey
  let (feed, handle) ← (desk.feed.subscribe live.book.symbol live.book.source
    (.book key)).mapError BookError.feed
  return ({ desk with feed, nextKey := key + 1 }.dropBook name).setBook name
    { key, live, subscription := some handle }

def observe (desk : Desk τ) (name : String) (kinds : List ObserverKind) (observer : τ) : Desk τ :=
  match desk.book? name with
  | some post =>
    let observers := post.live.observers.set kinds observer
    desk.setBook name { post with live := { post.live with observers } }
  | none => desk

def callBook (desk : Desk τ) (name : String) (post : Post τ) (batch : Batch) (fresh : Bool)
    (latency : UInt64) : Desk τ × List (Sight τ) × Option Breach :=
  let (live, heard, breach) := post.live.call batch fresh latency
  (desk.setBook name { post with live },
    heard.map fun (observer, announcement) => .announced name observer announcement, breach)

def process (desk : Desk τ) (name : String) (batch : Batch) (fresh : Bool) (latency : UInt64) :
    Desk τ × List (Sight τ) × Option Breach :=
  match desk.book? name with
  | some post => desk.callBook name post batch fresh latency
  | none => (desk, [], none)

/-- The book of a key, with its name, while it is there. -/
def holder? (desk : Desk τ) (key : Nat) : Option (String × Post τ) :=
  desk.books.find? fun entry => entry.2.key == key

def tell (desk : Desk τ) (batch : Batch) (fresh : Bool) (latency : UInt64) :
    Listener → Desk τ × List (Sight τ) × Option Breach
  | .tap name => (desk, [.delivered name batch.size fresh], none)
  | .book key =>
    match desk.holder? key with
    | some (name, post) => desk.callBook name post batch fresh latency
    | none => (desk, [], none)

/-- Hands a batch to listeners in turn. A call that breaks off stops this. -/
def notify (desk : Desk τ) (batch : Batch) (fresh : Bool) (latency : UInt64) :
    List Listener → Desk τ × List (Sight τ) × Option Breach
  | [] => (desk, [], none)
  | listener :: rest =>
    match desk.tell batch fresh latency listener with
    | (desk, seen, none) =>
      let (desk, more, breach) := notify desk batch fresh latency rest
      (desk, seen ++ more, breach)
    | (desk, seen, some breach) => (desk, seen, some breach)

/-- Publishes a batch on the feed. Answers how many listeners have been handed it. -/
def publish (desk : Desk τ) (batch : Batch) (fresh : Bool) (latency : UInt64) :
    Desk τ × List (Sight τ) × Except Breach Nat :=
  let listeners := desk.feed.listeners batch.symbol batch.source
  match desk.notify batch fresh latency listeners with
  | (desk, seen, none) => (desk, seen, .ok listeners.length)
  | (desk, seen, some breach) => (desk, seen, .error breach)

def shutdown (desk : Desk τ) : Desk τ := { desk with feed := desk.feed.shutdown }

def closeTap (desk : Desk τ) (name : String) : Desk τ :=
  match desk.taps.lookup name with
  | some handle =>
    let (feed, handle) := desk.feed.close handle
    { desk with feed, taps := putEntry name handle desk.taps }
  | none => desk

def dropTap (desk : Desk τ) (name : String) : Desk τ :=
  let desk := desk.closeTap name
  { desk with taps := dropEntry name desk.taps }

/-- Subscribes a tap. The one that had the name is dropped after that. -/
def subscribe (desk : Desk τ) (name : String) (symbol : Symbol) (source : Source) :
    Except FeedError (Desk τ) := do
  let (feed, handle) ← desk.feed.subscribe symbol source (.tap name)
  let desk := { desk with feed }.dropTap name
  return { desk with taps := putEntry name handle desk.taps }

end Desk

end MarketDepth
