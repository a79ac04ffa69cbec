import ProofSearch.Fault

/-! # Reading JSON

The grammar of JSON with the numbers `NaN` and `Infinity` added. A key that comes twice keeps its first
place and its last value. A whole number of too many digits is refused where it stands. Every step down
or onward takes at least one character in two calls, which bounds the calls by the length of the text. -/

namespace ProofSearch.Json

def skipBlanks (cs : List Char) : List Char :=
  cs.dropWhile fun c => c = ' ' || c = '\t' || c = '\n' || c = '\r'

def hexValue? (c : Char) : Option Nat :=
  if '0' ≤ c && c ≤ '9' then some (c.toNat - 48)
  else if 'a' ≤ c && c ≤ 'f' then some (c.toNat - 87)
  else if 'A' ≤ c && c ≤ 'F' then some (c.toNat - 55)
  else none

def escape? (c : Char) : Option Char :=
  match c with
  | '"' => some '"'
  | '\\' => some '\\'
  | '/' => some '/'
  | 'b' => some '\x08'
  | 'f' => some '\x0c'
  | 'n' => some '\n'
  | 'r' => some '\r'
  | 't' => some '\t'
  | _ => none

/-- The code units of a string whose opening quote has been read. -/
def units? (acc : List Nat) : List Char → Option (List Nat × List Char)
  | '"' :: cs => some (acc.reverse, cs)
  | '\\' :: 'u' :: a :: b :: c :: d :: cs =>
    match hexValue? a, hexValue? b, hexValue? c, hexValue? d with
    | some a, some b, some c, some d => units? ((((a * 16 + b) * 16 + c) * 16 + d) :: acc) cs
    | _, _, _, _ => none
  | '\\' :: c :: cs =>
    match escape? c with
    | some e => units? (e.toNat :: acc) cs
    | none => none
  | c :: cs => if c.toNat < 0x20 then none else units? (c.toNat :: acc) cs
  | [] => none

/-- Joins the two halves of a surrogate pair; a half alone has no character of its own. -/
def ofUnits : List Nat → List Char
  | hi :: lo :: us =>
    if 0xD800 ≤ hi && hi < 0xDC00 && 0xDC00 ≤ lo && lo < 0xE000 then
      Char.ofNat (0x10000 + (hi - 0xD800) * 0x400 + (lo - 0xDC00)) :: ofUnits us
    else charOfUnit hi :: ofUnits (lo :: us)
  | [u] => [charOfUnit u]
  | [] => []
where
  charOfUnit (u : Nat) : Char := if 0xD800 ≤ u && u < 0xE000 then '\ufffd' else Char.ofNat u

def string? (cs : List Char) : Option (String × List Char) :=
  (units? [] cs).map fun (us, rest) => (String.ofList (ofUnits us), rest)

def isDigit (c : Char) : Bool := '0' ≤ c && c ≤ '9'

def natOfDigits (ds : List Char) : Nat := ds.foldl (fun n d => n * 10 + (d.toNat - 48)) 0

/-- `m · 10^e`; beyond the range of floating point the exponent no longer matters. -/
def floatOf (negative : Bool) (m : Nat) (e : Int) : Float :=
  let e := max (-100000) (min e 1000)
  let f := if e < 0 then Float.ofScientific m true e.natAbs else Float.ofScientific m false e.toNat
  if negative then -f else f

def fraction : List Char → List Char × List Char
  | '.' :: c :: cs => if isDigit c then (c :: cs).span isDigit else ([], '.' :: c :: cs)
  | cs => ([], cs)

def exponent? (cs : List Char) : Option (Int × List Char) :=
  match cs with
  | e :: cs =>
    if e = 'e' || e = 'E' then
      let (negative, cs) := match cs with
        | '-' :: cs => (true, cs)
        | '+' :: cs => (false, cs)
        | cs => (false, cs)
      let (ds, rest) := cs.span isDigit
      if ds.isEmpty then none
      else some (if negative then -(natOfDigits ds : Int) else natOfDigits ds, rest)
    else none
  | [] => none

/-- A value and the text behind it. -/
abbrev Taken := Except Fault (Datum × List Char)

def orMalformed : Option (Datum × List Char) → Taken
  | some r => .ok r
  | none => .error .malformedFile

def number (cs : List Char) : Taken :=
  let (negative, cs) := match cs with
    | '-' :: cs => (true, cs)
    | cs => (false, cs)
  let (whole, rest) := match cs with
    | '0' :: cs => (['0'], cs)
    | cs => cs.span isDigit
  if whole.isEmpty then .error .malformedFile
  else
    let (part, rest) := fraction rest
    match exponent? rest with
    | some (e, rest) =>
      .ok (.float (floatOf negative (natOfDigits (whole ++ part)) (e - part.length)), rest)
    | none =>
      if !part.isEmpty then
        .ok (.float (floatOf negative (natOfDigits (whole ++ part)) (-part.length)), rest)
      else if Text.digitLimit < whole.length then .error (.tooManyDigits whole.length)
      else
        let n : Int := natOfDigits whole
        .ok (.int (if negative then -n else n), rest)

def word (word : String) (x : Datum) (cs : List Char) : Taken :=
  if word.toList.isPrefixOf cs then .ok (x, cs.drop word.length) else .error .malformedFile

def scalar (cs : List Char) : Taken :=
  match cs with
  | 'n' :: _ => word "null" .null cs
  | 't' :: _ => word "true" (.bool true) cs
  | 'f' :: _ => word "false" (.bool false) cs
  | 'N' :: _ => word "NaN" (.float (0.0 / 0.0)) cs
  | 'I' :: _ => word "Infinity" (.float (1.0 / 0.0)) cs
  | '-' :: 'I' :: _ => word "-Infinity" (.float (-1.0 / 0.0)) cs
  | '"' :: cs => orMalformed ((string? cs).map fun (s, rest) => (.text s, rest))
  | _ => number cs

mutual
def value : Nat → List Char → Taken
  | 0, _ => .error .malformedFile
  | n + 1, '[' :: cs =>
    match skipBlanks cs with
    | ']' :: cs => .ok (.list [], cs)
    | cs => elements n [] cs
  | n + 1, '\x7b' :: cs =>
    match skipBlanks cs with
    | '\x7d' :: cs => .ok (.dict [], cs)
    | cs => members n [] cs
  | _ + 1, cs => scalar cs
def elements : Nat → List Datum → List Char → Taken
  | 0, _, _ => .error .malformedFile
  | n + 1, acc, cs =>
    match value n cs with
    | .error e => .error e
    | .ok (x, cs) =>
      match skipBlanks cs with
      | ',' :: cs => elements n (x :: acc) (skipBlanks cs)
      | ']' :: cs => .ok (.list (x :: acc).reverse, cs)
      | _ => .error .malformedFile
def members : Nat → List (String × Datum) → List Char → Taken
  | 0, _, _ => .error .malformedFile
  | n + 1, acc, '"' :: cs =>
    match string? cs with
    | none => .error .malformedFile
    | some (k, cs) =>
      match skipBlanks cs with
      | ':' :: cs =>
        match value n (skipBlanks cs) with
        | .error e => .error e
        | .ok (x, cs) =>
          match skipBlanks cs with
          | ',' :: cs => members n (Datum.insert acc k x) (skipBlanks cs)
          | '\x7d' :: cs => .ok (.dict (Datum.insert acc k x), cs)
          | _ => .error .malformedFile
      | _ => .error .malformedFile
  | _ + 1, _, _ => .error .malformedFile
end

/-- The one value that the text holds, with nothing but blanks around it. -/
def read (s : String) : Except Fault Datum :=
  let cs := skipBlanks s.toList
  match value (2 * cs.length + 2) cs with
  | .error e => .error e
  | .ok (x, rest) => if (skipBlanks rest).isEmpty then .ok x else .error .malformedFile

end ProofSearch.Json
