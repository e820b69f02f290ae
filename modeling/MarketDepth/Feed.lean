import MarketDepth.Order

/-! A feed hands batches to the listeners of their symbol and source, in the order in which they
subscribed. Once shut down it has no subscriptions and takes no new ones. -/

namespace MarketDepth

inductive FeedError where
  | closed
  deriving DecidableEq

def FeedError.message : FeedError → String
  | .closed => "Feed closed"

structure Subscription (α : Type) where
  id : Nat
  symbol : Symbol
  source : Source
  listener : α

/-- The subscriber's end of a subscription. It knows whether it was closed itself, not whether the feed
was shut down. -/
structure Handle where
  id : Nat
  isOpen : Bool := true
  deriving DecidableEq

structure Feed (α : Type) where
  /-- By ascending id. -/
  subscriptions : List (Subscription α) := []
  /-- Ids are not used twice. -/
  nextId : Nat := 0
  closed : Bool := false

namespace Feed

variable {α : Type}

def empty : Feed α := {}

def subscriberCount (feed : Feed α) : Nat := feed.subscriptions.length

def subscribe (feed : Feed α) (symbol : Symbol) (source : Source) (listener : α) :
    Except FeedError (Feed α × Handle) :=
  if feed.closed then .error .closed
  else
    let id := feed.nextId
    .ok ({ feed with
      subscriptions := feed.subscriptions ++ [{ id, symbol, source, listener }]
      nextId := id + 1 }, { id })

/-- Closes a handle and ends its subscription, if that has not been done before. -/
def close (feed : Feed α) (handle : Handle) : Feed α × Handle :=
  if handle.isOpen then
    ({ feed with subscriptions := feed.subscriptions.filter fun s => s.id != handle.id },
      { handle with isOpen := false })
  else (feed, handle)

def shutdown (feed : Feed α) : Feed α := { feed with subscriptions := [], closed := true }

/-- Who is handed a batch of the symbol and source that is published now. -/
def listeners (feed : Feed α) (symbol : Symbol) (source : Source) : List α :=
  (feed.subscriptions.filter fun s => s.symbol == symbol && s.source == source).map (·.listener)

end Feed

end MarketDepth
