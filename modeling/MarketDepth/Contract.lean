/-! Contracts: what a caller promises and never sees reported as an ordinary error. -/

namespace MarketDepth

/-- A broken promise of the caller. -/
inductive Breach where
  | blankSymbol
  | blankSource
  | emptyBatch
  | unsupportedKind
  | otherSymbol
  | sumOverflow
  deriving DecidableEq

def Breach.message : Breach → String
  | .blankSymbol => "Symbol must not be empty"
  | .blankSource => "SourceId must not be empty"
  | .emptyBatch => "order batch must not be empty"
  | .unsupportedKind => "unsupported record kind"
  | .otherSymbol => "batch for another symbol"
  | .sumOverflow => "attempt to add with overflow"

end MarketDepth
