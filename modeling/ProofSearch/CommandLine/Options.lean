import ProofSearch.Domain.Basic
import ProofSearch.Text.Numeral
import ProofSearch.Text.Quoted

/-! # Options of the command line

An option is given by its name or by the beginning of it that no other option shares, with its value in
the next word or after an equals sign. Words are told apart before any of them is used, so a beginning
that several options share is refused first. Whatever is no option and no value is refused last. A double
dash after the equals sign takes the value of the option away. -/

namespace ProofSearch.CommandLine

inductive Mode
  | backward
  | forward
  | iterateBackward
  | iterateForward
  | lemmas
  | controlled
deriving DecidableEq

namespace Mode

def name : Mode → String
  | backward => "backward"
  | forward => "forward"
  | iterateBackward => "iterate-backward"
  | iterateForward => "iterate-forward"
  | lemmas => "lemmas"
  | controlled => "controlled"

def all : List Mode := [backward, forward, iterateBackward, iterateForward, lemmas, controlled]

/-- The mode runs over rounds that write to the store. -/
def hasRounds : Mode → Bool
  | iterateBackward | iterateForward | lemmas => true
  | _ => false

end Mode

/-- What has been said of an option: nothing, a value, or that it has none. -/
inductive Given (α : Type)
  | unsaid
  | value (a : α)
  | emptied

/-- What the words have said so far. A file that is not asked for has an empty name. -/
structure Choices where
  domain : Given Domain := .unsaid
  mode : Given Mode := .unsaid
  depth : Given Int := .unsaid
  rounds : Given Int := .unsaid
  limit : Given Int := .unsaid
  save : String := ""
  load : String := ""
  dot : String := ""
  trace : Bool := false
  quiet : Bool := false

/-- What a run is asked to do. -/
structure Options where
  domain : Domain := Domain.implicationChain
  /-- A mode that was taken away leaves a run that is controlled and has no name. -/
  mode : Option Mode := some .backward
  depth : Nat := domain.depth
  rounds : Nat := domain.rounds
  /-- A limit that was taken away cannot be compared with a number of results. -/
  limit : Option Int := some 50
  save : String := ""
  load : String := ""
  dot : String := ""
  trace : Bool := false
  quiet : Bool := false

inductive Flag
  | help
  | domain
  | mode
  | depth
  | rounds
  | limit
  | save
  | load
  | dot
  | trace
  | quiet
deriving DecidableEq

namespace Flag

/-- The names in the order in which shared beginnings are listed. -/
def spellings : List (String × Flag) := [
  ("-h", help), ("--help", help), ("--domain", domain), ("--mode", mode), ("--depth", depth),
  ("--rounds", rounds), ("--limit", limit), ("--save", save), ("--load", load), ("--dot", dot),
  ("--trace", trace), ("--quiet", quiet)]

def takesValue : Flag → Bool
  | help | trace | quiet => false
  | _ => true

/-- All names of the option. -/
def title (f : Flag) : String := "/".intercalate ((spellings.filter (·.2 = f)).map (·.1))

end Flag

/-- Why the command line was not taken. -/
inductive Refusal
  | usage (line : String)
  | fault (e : Fault)
  | help

def refuse {α : Type} (f : Flag) (reason : String) : Except Refusal α :=
  .error (.usage ("argument " ++ f.title ++ ": " ++ reason))

/-- What a word is, by itself. -/
inductive Word
  | plain
  | option (f : Flag) (value : Option String)
  | unknown

def isDecimal (c : Char) : Bool := (Text.digitValue? c).isSome

/-- A minus sign before digits, or before a point with digits behind it. -/
def isNegativeNumber (cs : List Char) : Bool :=
  match cs with
  | '-' :: cs =>
    let cs := if cs.getLast? = some '\n' then cs.dropLast else cs
    match cs.dropWhile isDecimal with
    | [] => !cs.isEmpty
    | '.' :: ds => !ds.isEmpty && ds.all isDecimal
    | _ => false
  | _ => false

/-- The part before the first equals sign and the part after it. -/
def splitValue (cs : List Char) : List Char × Option String :=
  match cs.span (· ≠ '=') with
  | (name, '=' :: value) => (name, some (String.ofList value))
  | (name, _) => (name, none)

def named? (cs : List Char) : Option Flag := Flag.spellings.lookup (String.ofList cs)

/-- The options that the word may stand for: those that begin like it, and after a single dash the one
named by the first letter, with the other letters for its value. -/
def candidates (cs : List Char) : List (String × Flag × Option String) :=
  match cs with
  | '-' :: '-' :: _ =>
    let (name, value) := splitValue cs
    (Flag.spellings.filter fun (s, _) => name.isPrefixOf s.toList).map fun (s, f) => (s, f, value)
  | _ =>
    Flag.spellings.filterMap fun (s, f) =>
      if s.toList = cs.take 2 then some (s, f, some (String.ofList (cs.drop 2)))
      else if cs.isPrefixOf s.toList then some (s, f, none)
      else none

def classify (word : String) : Except Refusal Word :=
  let cs := word.toList
  match cs with
  | '-' :: _ :: _ =>
    let (name, value) := splitValue cs
    match named? cs, named? name, value with
    | some f, _, _ => .ok (.option f none)
    | none, some f, some v => .ok (.option f (some v))
    | none, _, _ =>
      match candidates cs with
      | [(_, f, value)] => .ok (.option f value)
      | _ :: _ :: _ =>
        .error (.usage ("ambiguous option: " ++ word ++ " could match " ++
          ", ".intercalate ((candidates cs).map (·.1))))
      | [] => .ok (if isNegativeNumber cs || cs.contains ' ' then .plain else .unknown)
  | _ => .ok .plain

/-- After a lone double dash every word is plain; the dash itself is no value. -/
def classifyAll : List String → Except Refusal (List (String × Word))
  | [] => .ok []
  | "--" :: ws => .ok (("--", .unknown) :: ws.map (·, .plain))
  | w :: ws => do
    let c ← classify w
    let cs ← classifyAll ws
    return (w, c) :: cs

def choice {α : Type} (f : Flag) (name : α → String) (choices : List α) (v : String) : Except Refusal α :=
  match choices.find? (name · = v) with
  | some a => .ok a
  | none => refuse f ("invalid choice: " ++ Text.quoted v ++ " (choose from " ++
      ", ".intercalate (choices.map (Text.quoted <| name ·)) ++ ")")

def integer (f : Flag) (v : String) : Except Refusal Int :=
  match Text.integer? v with
  | some n => .ok n
  | none => refuse f ("invalid int value: " ++ Text.quoted v)

namespace Choices

/-- Takes the value of the option away. -/
def empty (c : Choices) : Flag → Choices
  | .domain => { c with domain := .emptied }
  | .mode => { c with mode := .emptied }
  | .depth => { c with depth := .emptied }
  | .rounds => { c with rounds := .emptied }
  | .limit => { c with limit := .emptied }
  | .save => { c with save := "" }
  | .load => { c with load := "" }
  | .dot => { c with dot := "" }
  | .help | .trace | .quiet => c

def setValue (c : Choices) (f : Flag) (v : String) : Except Refusal Choices :=
  if v = "--" then .ok (c.empty f)
  else match f with
    | .domain => (choice f Domain.name Domain.known v).map fun d => { c with domain := .value d }
    | .mode => (choice f Mode.name Mode.all v).map fun m => { c with mode := .value m }
    | .depth => (integer f v).map fun n => { c with depth := .value n }
    | .rounds => (integer f v).map fun n => { c with rounds := .value n }
    | .limit => (integer f v).map fun n => { c with limit := .value n }
    | .save => .ok { c with save := v }
    | .load => .ok { c with load := v }
    | .dot => .ok { c with dot := v }
    | .help | .trace | .quiet => .ok c

def setFlag (c : Choices) : Flag → Except Refusal Choices
  | .help => .error .help
  | .trace => .ok { c with trace := true }
  | .quiet => .ok { c with quiet := true }
  | _ => .ok c

/-- A value for an option that takes none; letters after a single dash may be the same option again. -/
def setExtra (c : Choices) (word : String) (f : Flag) (v : String) : Except Refusal Choices :=
  let left :=
    if word.toList.take 2 = ['-', '-'] then v
    else String.ofList (v.toList.dropWhile (· = 'h'))
  if left = "" && v ≠ "" then c.setFlag f
  else refuse f ("ignored explicit argument " ++ Text.quoted left)

/-- Takes the words in turn; those that are neither options nor values are left over. -/
def take (c : Choices) (left : List String) : List (String × Word) → Except Refusal (Choices × List String)
  | [] => .ok (c, left)
  | (w, .option f (some v)) :: ws => do
    let c ← if f.takesValue then c.setValue f v else c.setExtra w f v
    take c left ws
  | (_, .option f none) :: ws =>
    if f.takesValue then
      match ws with
      | (v, .plain) :: ws => do
        let c ← c.setValue f v
        take c left ws
      | _ => refuse f "expected one argument"
    else do
      let c ← c.setFlag f
      take c left ws
  | (w, _) :: ws => take c (left ++ [w]) ws

def ofWords (words : List String) : Except Refusal Choices := do
  let (c, left) ← take {} [] (← classifyAll words)
  if left.isEmpty then return c
  else .error (.usage ("unrecognized arguments: " ++ " ".intercalate left))

end Choices

namespace Given

/-- The value, or the default where nothing was said; what was taken away stays so. -/
def getD {α : Type} (default : α) : Given α → Option α
  | unsaid => some default
  | value a => some a
  | emptied => none

/-- The count, if one was said; it cannot be negative, and it cannot be taken away. -/
def count? (name : String) : Given Int → Except Refusal (Option Nat)
  | unsaid => .ok none
  | value n => if n < 0 then .error (.usage (name ++ " must be non-negative")) else .ok (some n.toNat)
  | emptied => .error (.fault .mismatch)

end Given

namespace Options

/-- Fills in what was left unsaid; a run needs a domain. -/
def ofChoices (c : Choices) : Except Refusal Options := do
  let depth ← c.depth.count? "--depth"
  let rounds ← c.rounds.count? "--rounds"
  match c.domain.getD Domain.implicationChain with
  | none => .error (.fault .mismatch)
  | some domain =>
    return {
      domain
      mode := c.mode.getD .backward
      depth := depth.getD domain.depth
      rounds := rounds.getD domain.rounds
      limit := c.limit.getD 50
      save := c.save
      load := c.load
      dot := c.dot
      trace := c.trace
      quiet := c.quiet }

def ofWords (words : List String) : Except Refusal Options := do
  ofChoices (← Choices.ofWords words)

end Options
end ProofSearch.CommandLine
