import ProofSearch.Fault

/-! # The working directory

The files that a run finds and leaves behind. No directory lies in it, so a path leads to one of its
files only past steps that go nowhere, which are single dots and repeated slashes. The name of a file is a path
to it, and can be written to whatever files there are (`write_of_isFileName`). What is written is read back by
the same path (`read_of_write`). -/

namespace ProofSearch

/-- Each file by its name, with its text. -/
abbrev Directory := List (String × String)

namespace Directory

/-- The steps of a path, between its slashes. -/
def steps : List Char → List (List Char)
  | [] => [[]]
  | '/' :: cs => [] :: steps cs
  | c :: cs =>
    match steps cs with
    | s :: ss => (c :: s) :: ss
    | [] => [[c]]

/-- The step stays where it is. -/
def isIdle (step : List Char) : Bool := step.isEmpty || step = ['.']

def isUpward (step : List Char) : Bool := step = ['.', '.']

/-- The longest name of a file and the longest path, in bytes. -/
def nameLimit : Nat := 255
def pathLimit : Nat := 4095

/-- The name that the path starts with, and the steps behind it. What lies outside the directory counts
as missing. -/
def firstStep (path : String) : Except Fault (String × List (List Char)) :=
  let cs := path.toList
  if cs.contains '\x00' then .error .nullInPath
  else if cs.isEmpty then .error .missingFile
  else if pathLimit < path.utf8ByteSize then .error .nameTooLong
  else match (steps cs).dropWhile isIdle with
    | [] => .error .isDirectory
    | step :: rest =>
      let name := String.ofList step
      if cs.head? = some '/' then .error .missingFile
      else if isUpward step then
        .error (if rest.all fun s => isIdle s || isUpward s then .isDirectory else .missingFile)
      else if nameLimit < name.utf8ByteSize then .error .nameTooLong
      else .ok (name, rest)

/-- The name of the file that the path leads to, to be read or to be written. -/
def fileName (d : Directory) (path : String) (written : Bool) : Except Fault String :=
  match firstStep path with
  | .error e => .error e
  | .ok (name, []) => .ok name
  | .ok (name, rest) =>
    if written && rest.all List.isEmpty then .error .isDirectory
    else .error (if (d.lookup name).isSome then .notDirectory else .missingFile)

/-- The text of the file that the path leads to. -/
def read (d : Directory) (path : String) : Except Fault String :=
  match d.fileName path false with
  | .error e => .error e
  | .ok name =>
    match d.lookup name with
    | some text => .ok text
    | none => .error .missingFile

/-- Puts the text into the file that the path leads to, in place of what was in it. -/
def write (d : Directory) (path text : String) : Except Fault Directory :=
  (d.fileName path true).map fun name => d.filter (·.1 ≠ name) ++ [(name, text)]

/-- The files of the second directory that are not in the first as they are. -/
def changes (before after : Directory) : Directory :=
  after.filter fun (name, text) => before.lookup name ≠ some text

/-- The path is the name of a file and nothing else, so that no step comes before it or after it. -/
def IsFileName (path : String) : Prop :=
  path ∉ ["", ".", ".."] ∧ '/' ∉ path.toList ∧ '\x00' ∉ path.toList ∧ path.utf8ByteSize ≤ nameLimit

instance (path : String) : Decidable (IsFileName path) := inferInstanceAs (Decidable (_ ∧ _))

variable {d d' : Directory} {path name text : String} {written : Bool}

theorem steps_of_notMem {cs : List Char} (h : '/' ∉ cs) : steps cs = [cs] := by
  induction cs with
  | nil => rfl
  | cons c cs ih =>
    rw [List.mem_cons, not_or] at h
    obtain ⟨hc, hcs⟩ := h
    have hsteps : steps (c :: cs) = match steps cs with | s :: ss => (c :: s) :: ss | [] => [[c]] :=
      steps.eq_3 c cs fun hslash => hc hslash.symm
    rw [hsteps, ih hcs]

theorem firstStep_of_isFileName (h : IsFileName path) : firstStep path = .ok (path, []) := by
  obtain ⟨hdots, hslash, hnull, hsize⟩ := h
  simp only [List.mem_cons, List.not_mem_nil, or_false, not_or] at hdots
  obtain ⟨hempty, hdot, hdots⟩ := hdots
  have hlist : ∀ s : String, path ≠ s → path.toList ≠ s.toList := fun s hs h => hs (String.toList_inj.1 h)
  have hempty : path.toList ≠ [] := hlist "" hempty
  have hidle : isIdle path.toList = false := by
    simp [isIdle, hempty, show path.toList ≠ ['.'] from hlist "." hdot]
  have hupward : isUpward path.toList = false := decide_eq_false (hlist ".." hdots)
  have hhead : path.toList.head? ≠ some '/' := fun h => hslash (List.mem_of_mem_head? h)
  have hpath : ¬ pathLimit < path.utf8ByteSize := by
    simp only [pathLimit, nameLimit] at hsize ⊢
    omega
  simp [firstStep, steps_of_notMem hslash, hnull, hempty, hidle, hupward, hhead, hpath, hsize]

theorem write_of_isFileName (h : IsFileName path) (d : Directory) (text : String) :
    d.write path text = .ok (d.filter (·.1 ≠ path) ++ [(path, text)]) := by
  rw [write, fileName, firstStep_of_isFileName h]
  rfl

/-- A path that leads to a file does so whatever the files are, to be read as to be written. -/
theorem fileName_eq_ok (h : d.fileName path written = .ok name) (d' : Directory) (written' : Bool) :
    d'.fileName path written' = .ok name := by
  unfold fileName at h ⊢
  split at h
  · cases h
  · exact h
  · split at h <;> cases h

theorem read_of_write (h : d.write path text = .ok d') : d'.read path = .ok text := by
  unfold write at h
  cases hn : d.fileName path true with
  | error e => rw [hn] at h; cases h
  | ok name =>
    rw [hn] at h
    obtain rfl : d.filter (·.1 ≠ name) ++ [(name, text)] = d' := Except.ok.inj h
    have hd : (d.filter (·.1 ≠ name)).lookup name = none := by
      rw [List.lookup_eq_none_iff]
      intro e he
      have := (List.mem_filter.1 he).2
      simp only [decide_eq_true_eq] at this
      simp [Ne.symm this]
    simp only [read, fileName_eq_ok hn, List.lookup_append, hd]
    simp

end Directory
end ProofSearch
