import ProofSearch.Datum.Basic

/-! # Writing JSON

Text is written as it is but for quotes, backslashes and control characters. A value goes on one line,
or with each element on a line of its own, two spaces further in than what holds it. -/

namespace ProofSearch.Json

def writtenChar (c : Char) : List Char :=
  match c with
  | '"' => ['\\', '"']
  | '\\' => ['\\', '\\']
  | '\n' => ['\\', 'n']
  | '\r' => ['\\', 'r']
  | '\t' => ['\\', 't']
  | '\x08' => ['\\', 'b']
  | '\x0c' => ['\\', 'f']
  | c => if c.toNat < 0x20 then '\\' :: 'u' :: Text.hex 4 c.toNat else [c]

def writtenText (s : String) : String := String.ofList ('"' :: s.toList.flatMap writtenChar ++ ['"'])

def writtenFloat (f : Float) : String :=
  match Decimal.ofBits f.toBits with
  | "nan" => "NaN"
  | "inf" => "Infinity"
  | "-inf" => "-Infinity"
  | s => s

/-- The mark that starts line `n` below the outermost one. -/
def newLine (n : Nat) : String := "\n" ++ String.ofList (List.replicate (2 * n) ' ')

/-- Brackets around the parts: on one line, or each on a line of level `n + 1`. -/
def bracketed (indent : Option Nat) (left right : String) (parts : List String) : String :=
  if parts.isEmpty then left ++ right
  else match indent with
    | none => left ++ ", ".intercalate parts ++ right
    | some n => left ++ newLine (n + 1) ++ ("," ++ newLine (n + 1)).intercalate parts ++ newLine n ++ right

mutual
/-- The value on one line, or laid out with its first line at the level given. -/
def write (indent : Option Nat) : Datum → String
  | .null => "null"
  | .bool b => if b then "true" else "false"
  | .int i => toString i
  | .float f => writtenFloat f
  | .text s => writtenText s
  | .list xs | .tuple xs => bracketed indent "[" "]" (writeAll (indent.map (· + 1)) xs)
  | .dict es => bracketed indent "\x7b" "\x7d" (writeEntries (indent.map (· + 1)) es)
def writeAll (indent : Option Nat) : List Datum → List String
  | [] => []
  | x :: xs => write indent x :: writeAll indent xs
def writeEntries (indent : Option Nat) : List (String × Datum) → List String
  | [] => []
  | (k, x) :: es => (writtenText k ++ ": " ++ write indent x) :: writeEntries indent es
end

end ProofSearch.Json
