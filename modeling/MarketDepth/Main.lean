import MarketDepth.Replay.Run

/-! The command that replays a recording. Announcements go to standard output, everything else to
standard error. -/

open MarketDepth MarketDepth.Replay

def metricsText (entries : List (String × UInt64)) : String :=
  let sorted := entries.mergeSort fun a b => a.1 ≤ b.1
  let member (entry : String × UInt64) : String :=
    "  " ++ (Json.string entry.1).text ++ ": " ++ toString entry.2
  "\x7b\n" ++ ",\n".intercalate (sorted.map member) ++ "\n\x7d"

def fail (failure : Failure) : IO UInt32 := do
  IO.eprintln ("Error: " ++ failure.message)
  if let some cause := failure.cause? then
    IO.eprintln ("\nCaused by:\n    " ++ cause)
  return 1

partial def replayLines (input : IO.FS.Stream) (verify : Bool) (run : Run) : IO UInt32 := do
  let line ← input.getLine
  if line.isEmpty then
    match run.live.metrics.report with
    | .ok entries => IO.eprintln (metricsText entries)
    | .error breach => IO.eprintln breach.message
    return 0
  match run.read line with
  | (_, .error failure) => fail failure
  | (run, .ok none) => replayLines input verify run
  | (run, .ok (some entry)) =>
    let started ← IO.monoNanosNow
    let processed := run.live.accept entry.reports entry.fresh
    let heard := processed.heard.length
    let stopped ← IO.monoNanosNow
    let elapsed := if heard = 0 then 0 else stopped - started
    let (run, written, failure) := run.settle processed verify elapsed.toUInt64
    for text in written do
      IO.println text
    match failure with
    | some failure => fail failure
    | none => replayLines input verify run

def main (args : List String) : IO UInt32 := do
  match Arguments.ofList args with
  | none =>
    IO.eprintln Arguments.usage
    return 2
  | some args =>
    match Run.start { symbol := args.symbol, source := args.source, depth := args.depth } with
    | .error failure => fail failure
    | .ok run =>
      if args.input = "-" then replayLines (← IO.getStdin) args.verify run
      else
        match ← (IO.FS.Handle.mk args.input .read).toBaseIO with
        | .ok handle => replayLines (.ofHandle handle) args.verify run
        | .error error =>
          let code ← fail (.unopened args.input)
          IO.eprintln ("\nCaused by:\n    " ++ toString error)
          return code
