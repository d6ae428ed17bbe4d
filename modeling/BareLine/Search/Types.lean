import BareLine.Basic
import BareLine.Lib.Scalars

/-!
# Queries and outcomes of a search

The vocabulary the search crate shares: a text is its Unicode scalars, ranges are byte
offsets into it, and a search ends complete or names what stopped it.
-/

namespace BareLine.Search

open Lib
open String (utf8Len)

abbrev Text := List Char

/-- `RegexLimitKind` -/
inductive RegexLimitKind where
  | time
  | backtracking
  | depth
  | memory
  | engine
  deriving DecidableEq, Repr

/-- `Completeness` -/
inductive Completeness where
  | complete
  | cancelled
  | resultLimit
  | unsupported
  | unsupportedStreaming
  | regexLimit (kind : RegexLimitKind)
  | invalidQuery
  deriving DecidableEq, Repr

/-- `SearchMode` -/
inductive SearchMode where
  | literal
  | extended
  | regex
  deriving DecidableEq, Repr

/-- `Case` -/
inductive Case where
  | sensitive
  | folded
  deriving DecidableEq, Repr

/-- `SearchQuery` -/
structure SearchQuery where
  pattern : Text
  mode : SearchMode
  case : Case
  wholeWord : Bool
  selection : Option Range
  resultsRamBytes : Nat
  countBeyondLimit : Bool
  dotMatchesNewline : Bool
  deriving DecidableEq, Repr

/-- `MAX_PATTERN_BYTES` -/
def MAX_PATTERN_BYTES : Nat := 64 * 1024

end BareLine.Search
