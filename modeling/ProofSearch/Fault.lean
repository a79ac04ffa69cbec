import ProofSearch.Datum.Basic
import ProofSearch.Text.Numeral

/-! # Faults

Every way a request can fail, by its cause. `message?` has the wording, for the causes that have one. -/

namespace ProofSearch

inductive Fault
  /-- The item, as written, is no judgment. -/
  | notJudgment (item : String)
  | queryNotJudgment (query : String)
  | badDepth (depth : Datum)
  | badRounds (rounds : Datum)
  | badArities (arities : List Datum)
  | noTypes
  | badMode (mode : Datum)
  /-- What is taken apart has too few or too many parts. -/
  | tooFewParts (expected count : Nat)
  | tooManyParts (expected : Nat)
  /-- A value that is neither a text nor a tuple has no encoding. -/
  | noEncoding (value : Datum)
  | noDecoding (data : Datum)
  | unknownDomain (name : Datum) (known : List String)
  | missingKey (key : String)
  /-- A value of the wrong kind. -/
  | mismatch
  /-- A value without the operation asked of it. -/
  | unsupported
  /-- An item with fewer parts than asked for. -/
  | outOfRange
  | malformedFile
  /-- A whole number of that many digits, which is more than are read. -/
  | tooManyDigits (count : Nat)
  | missingFile
  /-- The path leads to a directory where a file is asked for. -/
  | isDirectory
  /-- The path goes on below a file. -/
  | notDirectory
  | nameTooLong
  /-- A path holds the null character. -/
  | nullInPath
  /-- The work would never end. -/
  | endless

namespace Fault

def message? : Fault → Option String
  | notJudgment item => some ("not a typed judgment: " ++ item)
  | queryNotJudgment query => some ("query must be a typed judgment, got " ++ query)
  | badDepth d => some ("depth must be a non-negative int, got " ++ d.literal)
  | badRounds r => some ("rounds must be a non-negative int, got " ++ r.literal)
  | badArities as => some ("arities must be positive, got " ++ (Datum.tuple as).literal)
  | noTypes => some "arrow() needs at least one type"
  | badMode m => some ("mode must be 'unify' or 'instance', got " ++ m.literal)
  | tooFewParts k n =>
    some ("not enough values to unpack (expected " ++ toString k ++ ", got " ++ toString n ++ ")")
  | tooManyParts k => some ("too many values to unpack (expected " ++ toString k ++ ")")
  | noEncoding x => some ("cannot serialize term component: " ++ x.literal)
  | noDecoding x => some ("unknown term encoding: " ++ x.literal)
  | unknownDomain name known =>
    some ("unknown domain " ++ name.literal ++ "; choose from " ++ ", ".intercalate known)
  | missingKey key => some key
  | tooManyDigits n =>
    some ("Exceeds the limit (" ++ toString Text.digitLimit ++
      " digits) for integer string conversion: value has " ++ toString n ++
      " digits; use sys.set_int_max_str_digits() to increase the limit")
  | nullInPath => some "embedded null byte"
  | mismatch | unsupported | outOfRange | malformedFile | missingFile | isDirectory | notDirectory
  | nameTooLong | endless => none

end Fault
end ProofSearch
