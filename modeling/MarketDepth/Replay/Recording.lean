import MarketDepth.Wire.Order

/-! Recordings: one batch in JSON on each line. -/

namespace MarketDepth.Replay

structure Entry where
  fresh : Bool
  reports : List Report

namespace Entry

structure ReportDraft where
  index : Option Int64 := none
  side : Option Interest := none
  price : Option (Option Float) := none
  size : Option (Option Float) := none
  time : Option Int64 := none
  flags : Option UInt32 := none

/-- A price or size that is null or absent is not a number. -/
def reportForm : Json.Form ReportDraft Report where
  name := "ReplayRecord"
  fields :=
    [.ofOption "index" (·.index) (fun draft index => { draft with index }) Json.toInt64,
      .ofOption "side" (·.side) (fun draft side => { draft with side }) Interest.ofJson,
      .ofOption "price" (·.price) (fun draft price => { draft with price })
        (Json.toOption Json.toFloat),
      .ofOption "size" (·.size) (fun draft size => { draft with size })
        (Json.toOption Json.toFloat),
      .ofOption "time" (·.time) (fun draft time => { draft with time }) Json.toInt64,
      .ofOption "flags" (·.flags) (fun draft flags => { draft with flags }) Json.toUInt32]
  draft := {}
  build := fun absence draft => do
    let index ← absence.require 0 "index" draft.index
    let price ← absence.allow 2 "price" draft.price
    let size ← absence.allow 3 "size" draft.size
    return {
      index
      interest := draft.side.getD .unstated
      price := price.getD notANumber
      size := size.getD notANumber
      time := draft.time.getD 0
      flags := ⟨draft.flags.getD 0⟩ }

structure Draft where
  fresh : Option Bool := none
  reports : Option (List Report) := none

def form : Json.Form Draft Entry where
  name := "ReplayBatch"
  fields :=
    [.ofOption "new_snapshot" (·.fresh) (fun draft fresh => { draft with fresh }) Json.toBool,
      .ofOption "records" (·.reports) (fun draft reports => { draft with reports })
        (Json.toList reportForm.read)]
  draft := {}
  build := fun absence draft => do
    let reports ← absence.require 1 "records" draft.reports
    return { fresh := draft.fresh.getD false, reports }

def ofText (text : String) : Except Json.Fault Entry := Json.parse form.read text

end Entry

def dropReturn : List Char → List Char
  | '\r' :: line => line
  | line => line

/-- Cuts a text at its newlines. The line in hand is reversed. -/
def cutLines : List Char → List Char → List (List Char)
  | line, [] => if line.isEmpty then [] else [line.reverse]
  | line, '\n' :: rest => (dropReturn line).reverse :: cutLines [] rest
  | line, c :: rest => cutLines (c :: line) rest

/-- The lines of a text. A line ends with a newline, with a carriage return before it or not; after
the last newline there is a line only if there is text. -/
def lines (text : String) : List String := (cutLines [] text.toList).map String.ofList

end MarketDepth.Replay
