import ProofSearch.Datum.Basic
import ProofSearch.Term.Basic

/-! # Shapes of data

What a value would be as a term: texts are variables or symbols, tuples are compounds, applications and
judgments by their length and head. Numbers, truth values and the null value are none of these; they are
ground and are written as they are. A term is data of the shape it has. -/

namespace ProofSearch

mutual
/-- Atoms as texts, tuples as tuples. -/
def Term.toDatum : Term → Datum
  | .var v => .text v.text
  | .sym s => .text s.text
  | .tuple ts => .tuple (Term.toDatumAll ts)
def Term.toDatumAll : List Term → List Datum
  | [] => []
  | t :: ts => t.toDatum :: Term.toDatumAll ts
end

namespace Datum

def isVariable : Datum → Bool
  | text s => marked s
  | _ => false

def isSymbol : Datum → Bool
  | text s => !marked s
  | _ => false

def isCompound : Datum → Bool
  | tuple xs => !xs.isEmpty
  | _ => false

def isApplication : Datum → Bool
  | tuple [_, _] => true
  | _ => false

def isJudgment : Datum → Bool
  | tuple [text s, _, _] => s = ":"
  | _ => false

mutual
def isGround : Datum → Bool
  | text s => !marked s
  | tuple xs => areGround xs
  | _ => true
def areGround : List Datum → Bool
  | [] => true
  | x :: xs => x.isGround && areGround xs
end

mutual
def format : Datum → String
  | tuple xs => "(" ++ " ".intercalate (formatAll xs) ++ ")"
  | x => x.plain
def formatAll : List Datum → List String
  | [] => []
  | x :: xs => x.format :: formatAll xs
end

end Datum
end ProofSearch
