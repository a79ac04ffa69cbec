import ProofSearch.Directory
import ProofSearch.Json.Reader
import ProofSearch.Json.Writer
import ProofSearch.Store.Basic

/-! # Encoded terms and stores

In a file an atom is a text and a tuple is a dictionary whose key `_fn` holds the list of its terms. A
store is a dictionary of its name and its judgments. In reading, whatever can be gone through will do in
place of a list: a text is the list of its characters and a dictionary the list of its keys. -/

namespace ProofSearch

mutual
def Term.encode : Term → Datum
  | .var v => .text v.text
  | .sym s => .text s.text
  | .tuple ts => .dict [("_fn", .list (Term.encodeAll ts))]
def Term.encodeAll : List Term → List Datum
  | [] => []
  | t :: ts => t.encode :: Term.encodeAll ts
end

namespace Datum

mutual
/-- The encoding of texts and tuples, at any depth; nothing else has one. -/
def encode : Datum → Except Fault Datum
  | text s => .ok (.text s)
  | tuple xs => (encodeAll xs).map fun ys => .dict [("_fn", .list ys)]
  | x => .error (.noEncoding x)
def encodeAll : List Datum → Except Fault (List Datum)
  | [] => .ok []
  | x :: xs =>
    match encode x with
    | .error e => .error e
    | .ok y => (encodeAll xs).map (y :: ·)
end

def characters (s : String) : List Term := s.toList.map fun c => .ofText c.toString

mutual
def decode : Datum → Except Fault Term
  | text s => .ok (.ofText s)
  | dict es =>
    match decodeField es with
    | some ts => ts.map .tuple
    | none => .error (.noDecoding (.dict es))
  | x => .error (.noDecoding x)
/-- The terms under the key `_fn`. -/
def decodeField : List (String × Datum) → Option (Except Fault (List Term))
  | [] => none
  | (k, x) :: es => if k = "_fn" then some (decodeMany x) else decodeField es
def decodeMany : Datum → Except Fault (List Term)
  | list xs => decodeAll xs
  | tuple xs => decodeAll xs
  | text s => .ok (characters s)
  | dict es => .ok (es.map fun e => .ofText e.1)
  | _ => .error .mismatch
def decodeAll : List Datum → Except Fault (List Term)
  | [] => .ok []
  | x :: xs =>
    match decode x with
    | .error e => .error e
    | .ok t => (decodeAll xs).map (t :: ·)
end

end Datum

namespace Store

def toDatum (s : Store) : Datum :=
  .dict [("name", s.name), ("judgments", .list (s.terms.map Term.encode))]

/-- Every term is decoded before any is asked to be a judgment. -/
def ofDatum : Datum → Except Fault Store
  | .dict es =>
    match Datum.get? es "judgments" with
    | none => .error (.missingKey "judgments")
    | some js =>
      match Datum.decodeMany js with
      | .error e => .error e
      | .ok ts => ofTerms ((Datum.get? es "name").getD (.text "kb")) ts
  | _ => .error .mismatch

/-- The text of a file that holds the store. -/
def toText (s : Store) : String := Json.write (some 0) s.toDatum

/-- The store that a text holds. -/
def ofText (text : String) : Except Fault Store := (Json.read text).bind ofDatum

/-- The store held by the file that the path leads to. -/
def load (d : Directory) (path : String) : Except Fault Store := (d.read path).bind ofText

end Store
end ProofSearch
