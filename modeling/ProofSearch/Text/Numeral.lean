import ProofSearch.Text.Runs

/-! # Whole numbers in text

A whole number is read from decimal digits of any script, with an optional sign, blanks around it and
single underscores between digits. A number of too many digits is refused, zeros in front included. -/

namespace ProofSearch.Text

/-- The zeros of the decimal scripts; the other nine digits follow each of them. -/
def zeros : List Nat := [
  0x30, 0x660, 0x6f0, 0x7c0, 0x966, 0x9e6, 0xa66, 0xae6, 0xb66, 0xbe6, 0xc66, 0xce6, 0xd66, 0xde6,
  0xe50, 0xed0, 0xf20, 0x1040, 0x1090, 0x17e0, 0x1810, 0x1946, 0x19d0, 0x1a80, 0x1a90, 0x1b50,
  0x1bb0, 0x1c40, 0x1c50, 0xa620, 0xa8d0, 0xa900, 0xa9d0, 0xa9f0, 0xaa50, 0xabf0, 0xff10, 0x104a0,
  0x10d30, 0x11066, 0x110f0, 0x11136, 0x111d0, 0x112f0, 0x11450, 0x114d0, 0x11650, 0x116c0,
  0x11730, 0x118e0, 0x11950, 0x11c50, 0x11d50, 0x11da0, 0x16a60, 0x16ac0, 0x16b50, 0x1d7ce,
  0x1d7d8, 0x1d7e2, 0x1d7ec, 0x1d7f6, 0x1e140, 0x1e2f0, 0x1e950, 0x1fbf0]

def digitValue? (c : Char) : Option Nat :=
  (zeros.find? fun z => z ≤ c.toNat && c.toNat < z + 10).map (c.toNat - ·)

def blankRuns : List (Nat × Nat) := [
  (0x9, 0xd), (0x20, 0x20), (0x85, 0x85), (0xa0, 0xa0), (0x1680, 0x1680), (0x2000, 0x200a),
  (0x2028, 0x2029), (0x202f, 0x202f), (0x205f, 0x205f), (0x3000, 0x3000)]

def isBlank (c : Char) : Bool := inRuns blankRuns c

def trimBlanks (cs : List Char) : List Char :=
  ((cs.dropWhile isBlank).reverse.dropWhile isBlank).reverse

/-- The number whose digits go on after `acc`; an underscore stands between two digits. -/
def numeralFrom? (acc : Nat) : List Char → Option Nat
  | [] => some acc
  | '_' :: c :: cs => digitValue? c >>= fun d => numeralFrom? (acc * 10 + d) cs
  | c :: cs => digitValue? c >>= fun d => numeralFrom? (acc * 10 + d) cs

/-- The largest number of digits that a whole number is read from. -/
def digitLimit : Nat := 4300

def natural? (cs : List Char) : Option Nat :=
  if digitLimit < (cs.filter (· ≠ '_')).length then none
  else match cs with
    | [] => none
    | c :: cs => digitValue? c >>= fun d => numeralFrom? d cs

def integer? (s : String) : Option Int :=
  match trimBlanks s.toList with
  | '-' :: cs => (natural? cs).map fun n => -(n : Int)
  | '+' :: cs => (natural? cs).map fun n => (n : Int)
  | cs => (natural? cs).map fun n => (n : Int)

end ProofSearch.Text
