import MarketDepth.LiveBook
import MarketDepth.Replay.Arguments
import MarketDepth.Replay.Recording
import MarketDepth.Replica
import MarketDepth.Wire.Levels

/-! Replaying a recording through a live book: each batch is processed, what the book announces is
written as lines of JSON, and a replica that follows the announcements can be checked against the
book after every batch. -/

namespace MarketDepth.Replay

/-- Why a replay stopped. Lines are counted from one, blank ones too. -/
inductive Failure where
  | config (error : ConfigError)
  | unopened (path : String)
  | malformed (line : Nat) (fault : Json.Fault)
  | misfit (line : Nat) (misfit : Misfit)
  | diverged (line : Nat)

namespace Failure

def onLine (line : Nat) (text : String) : String := "line " ++ toString line ++ ": " ++ text

def message : Failure → String
  | .config error => (BookError.config error).message
  | .unopened path => "opening " ++ path
  | .malformed line _ => onLine line "malformed batch"
  | .misfit line change => onLine line ("change-set does not apply: " ++ change.message)
  | .diverged line => onLine line "mirrored book diverged"

def cause? : Failure → Option String
  | .malformed _ fault => some fault.message
  | _ => none

end Failure

structure Run where
  live : LiveBook Unit
  replica : Replica := .empty
  line : Nat := 0

/-- An announcement as a line of JSON, with keys in alphabetical order. -/
def announce : Announcement → String
  | .newBook book => (Json.record [("book", book.toJson), ("event", .string "new_book")]).text
  | .changes changes =>
    (Json.record [("changes", changes.toSortedJson),
      ("event", .string "incremental_change")]).text
  | .bookUpdate book =>
    (Json.record [("book", book.toJson), ("event", .string "book_update")]).text

def follow (replica : Replica) : Announcement → Replica × Option Misfit
  | .newBook book => (.ofLevels book, none)
  | .changes changes => replica.apply changes
  | .bookUpdate _ => (replica, none)

def followAll (replica : Replica) (heard : List Announcement) : Replica × Option Misfit :=
  heard.foldl (fun state announcement =>
    let (replica, misfit) := follow state.1 announcement
    (replica, state.2.or misfit)) (replica, none)

namespace Run

def start (config : Config) : Except Failure Run := do
  let live : LiveBook Unit ← (LiveBook.ofConfig config).mapError Failure.config
  return { live := { live with observers := ⟨some (), some (), some ()⟩ } }

def read (run : Run) (line : String) : Run × Except Failure (Option Entry) :=
  let run := { run with line := run.line + 1 }
  if isBlank line then (run, .ok none)
  else (run, ((Entry.ofText line).mapError (.malformed run.line)).map some)

/-- Ends the processing of a batch, which took the given time: the lines to write, and what the
check found wrong if it was asked for. -/
def settle (run : Run) (processed : LiveBook.Processed Unit) (verify : Bool) (latency : UInt64) :
    Run × List String × Option Failure :=
  let heard := processed.heard.map (·.2)
  let live := processed.timed latency
  let (replica, misfit) := followAll run.replica heard
  let failure := match misfit with
    | some misfit => some (.misfit run.line misfit)
    | none => if replica.agrees live.book.snapshot then none else some (.diverged run.line)
  ({ run with live, replica }, heard.map announce, if verify then failure else none)

def step (run : Run) (verify : Bool) (latency : UInt64) (line : String) :
    Run × List String × Option Failure :=
  match run.read line with
  | (run, .error failure) => (run, [], some failure)
  | (run, .ok none) => (run, [], none)
  | (run, .ok (some entry)) =>
    run.settle (run.live.accept entry.reports entry.fresh) verify latency

def steps (run : Run) (verify : Bool) (latency : UInt64) :
    List String → Run × List String × Option Failure
  | [] => (run, [], none)
  | line :: rest =>
    match run.step verify latency line with
    | (run, written, some failure) => (run, written, some failure)
    | (run, written, none) =>
      let (run, more, failure) := run.steps verify latency rest
      (run, written ++ more, failure)

end Run

structure Outcome where
  written : List String
  result : Except Failure Metrics

/-- Replays the text of the input, if it can be opened. The configuration is checked first. -/
def replay (args : Arguments) (input : Option String) (latency : UInt64) : Outcome :=
  match Run.start { symbol := args.symbol, source := args.source, depth := args.depth } with
  | .error failure => { written := [], result := .error failure }
  | .ok run =>
    match input with
    | none => { written := [], result := .error (.unopened args.input) }
    | some text =>
      match run.steps args.verify latency (lines text) with
      | (_, written, some failure) => { written, result := .error failure }
      | (run, written, none) => { written, result := .ok run.live.metrics }

end MarketDepth.Replay
