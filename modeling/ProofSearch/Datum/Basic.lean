import ProofSearch.Decimal.Shortest
import ProofSearch.Text.Quoted

/-! # Data

What a file holds or a caller hands over before it is known to be a term, a number or a name. A
dictionary keeps the order in which its keys came. `literal` writes data so that texts are told from
what they look like; `plain` writes a text as it is. -/

namespace ProofSearch

inductive Datum
  | null
  | bool (b : Bool)
  | int (i : Int)
  | float (f : Float)
  | text (s : String)
  | list (xs : List Datum)
  | tuple (xs : List Datum)
  | dict (es : List (String × Datum))
deriving Inhabited

namespace Datum

def commas (xs : List String) : String := ", ".intercalate xs

mutual
def literal : Datum → String
  | null => "None"
  | bool true => "True"
  | bool false => "False"
  | int i => toString i
  | float f => Decimal.ofBits f.toBits
  | text s => Text.quoted s
  | list xs => "[" ++ commas (literals xs) ++ "]"
  | tuple [x] => "(" ++ x.literal ++ ",)"
  | tuple xs => "(" ++ commas (literals xs) ++ ")"
  | dict es => "\x7b" ++ commas (entries es) ++ "\x7d"
def literals : List Datum → List String
  | [] => []
  | x :: xs => x.literal :: literals xs
def entries : List (String × Datum) → List String
  | [] => []
  | (k, x) :: es => (Text.quoted k ++ ": " ++ x.literal) :: entries es
end

def plain : Datum → String
  | text s => s
  | x => x.literal

/-- Sets the entry, in its old place when the key was there. -/
def insert (es : List (String × Datum)) (k : String) (x : Datum) : List (String × Datum) :=
  match es with
  | [] => [(k, x)]
  | e :: es => if e.1 = k then (k, x) :: es else e :: insert es k x

def get? (es : List (String × Datum)) (k : String) : Option Datum := es.lookup k

/-- The value stands for nothing: an empty text, list or dictionary, zero, a denial, or none at all. -/
def isNothing : Datum → Bool
  | null => true
  | bool b => !b
  | int i => i = 0
  | float f => f == 0
  | text s => s = ""
  | list xs | tuple xs => xs.isEmpty
  | dict es => es.isEmpty

/-- The number meant where a count from zero up is asked for. -/
def count? : Datum → Option Nat
  | int (.ofNat n) => some n
  | _ => none

end Datum
end ProofSearch
