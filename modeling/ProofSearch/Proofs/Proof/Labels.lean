import ProofSearch.Proofs.Proof.Graph

/-!
# The labels of a graph

A label is read from its opening quote on: a backslash stands with a quote behind it for that quote, and any
other quote closes the label. The labels of a graph are written with a backslash before each quote. So each of
them reads back as the text it was written for, up to the quote written at its end, just if that text ends in
no backslash (`readLabel_lines`); a backslash at the end takes the closing quote with it (`close?_backslash`).
-/

namespace ProofSearch.Graph
open Layout

/-- Reads up to the quote that closes the label: what is in the label, and what is behind it. -/
def close? : List Char → Option (List Char × List Char)
  | [] => none
  | '\\' :: '"' :: cs => (close? cs).map fun (text, after) => ('"' :: text, after)
  | '"' :: cs => some ([], cs)
  | c :: cs => (close? cs).map fun (text, after) => (c :: text, after)

/-- Reads the label that begins at the first quote of the line: the label, and the rest of the line. -/
def readLabel (line : String) : Option (List Char × List Char) :=
  match line.toList.dropWhile (· ≠ '"') with
  | [] => none
  | _ :: cs => close? cs

def escaped (cs : List Char) : List Char := cs.flatMap fun c => if c = '"' then ['\\', '"'] else [c]

theorem toList_escape (s : String) : (escape s).toList = escaped s.toList := String.toList_ofList

theorem escaped_quote (cs : List Char) : escaped ('"' :: cs) = '\\' :: '"' :: escaped cs := rfl

theorem escaped_cons {c : Char} (h : c ≠ '"') (cs : List Char) : escaped (c :: cs) = c :: escaped cs := by
  rw [escaped, List.flatMap_cons, if_neg h]
  rfl

/-- No quote stands first in what is written for a text. -/
theorem head?_escaped_ne (c : Char) (cs rest : List Char) : (escaped (c :: cs) ++ rest).head? ≠ some '"' := by
  by_cases h : c = '"'
  · rw [h, escaped_quote]
    simp
  · rw [escaped_cons h]
    simpa using h

theorem close?_cons {c : Char} {cs : List Char} (hc : c ≠ '"') (hcs : c = '\\' → cs.head? ≠ some '"') :
    close? (c :: cs) = (close? cs).map fun (text, after) => (c :: text, after) := by
  rw [close?]
  · rintro ds rfl rfl
    exact hcs rfl rfl
  · exact hc

/-- What is written for a text reads as the text, unless a backslash ends it and a quote comes next. -/
theorem close?_escaped {s rest : List Char} (h : s.getLast? = some '\\' → rest.head? ≠ some '"') :
    close? (escaped s ++ rest) = (close? rest).map fun (text, after) => (s ++ text, after) := by
  induction s with
  | nil => exact Option.map_id'.symm
  | cons c cs ih =>
    have ih := ih fun hlast => h (by rw [List.getLast?_cons, hlast]; rfl)
    by_cases hc : c = '"'
    · subst hc
      rw [escaped_quote, List.cons_append, List.cons_append, close?, ih, Option.map_map]
      rfl
    · have next : c = '\\' → (escaped cs ++ rest).head? ≠ some '"' := by
        rintro rfl
        cases cs with
        | nil => exact h rfl
        | cons d ds => exact head?_escaped_ne d ds rest
      rw [escaped_cons hc, List.cons_append, close?_cons hc next, ih, Option.map_map]
      rfl

/-- A backslash at the end takes the closing quote with it, and the label goes on. -/
theorem close?_backslash (s after : List Char) : close? (escaped (s ++ ['\\']) ++ '"' :: after) =
    (close? after).map fun (text, rest) => (s ++ '"' :: text, rest) := by
  have hsplit : escaped (s ++ ['\\']) ++ '"' :: after = escaped s ++ ('\\' :: '"' :: after) := by
    rw [escaped, List.flatMap_append, List.append_assoc]
    rfl
  rw [hsplit, close?_escaped fun _ => by simp, close?, Option.map_map]
  rfl

theorem close?_escaped_iff (s after : List Char) :
    close? (escaped s ++ '"' :: after) = some (s, after) ↔ s.getLast? ≠ some '\\' := by
  constructor
  · intro hread hlast
    obtain ⟨init, rfl⟩ := List.getLast?_eq_some_iff.1 hlast
    rw [close?_backslash, Option.map_eq_some_iff] at hread
    obtain ⟨⟨text, rest⟩, -, hread⟩ := hread
    have htext : '"' :: text = ['\\'] := List.append_cancel_left (Prod.mk.inj hread).1
    exact absurd (List.cons.inj htext).1 (by decide)
  · intro hlast
    rw [close?_escaped fun h => absurd h hlast, close?]
    exact congrArg (fun text => some (text, after)) (List.append_nil s)

theorem readLabel_iff {line text after : String} (opening : List Char)
    (hline : line.toList = opening ++ '"' :: ((escape text).toList ++ '"' :: after.toList))
    (hopening : '"' ∉ opening) :
    readLabel line = some (text.toList, after.toList) ↔ text.toList.getLast? ≠ some '\\' := by
  have hdrop : line.toList.dropWhile (· ≠ '"') = '"' :: ((escape text).toList ++ '"' :: after.toList) := by
    rw [hline, List.dropWhile_append_of_pos fun c hc => decide_eq_true (ne_of_mem_of_not_mem hc hopening)]
    rfl
  rw [readLabel, hdrop, toList_escape]
  exact close?_escaped_iff text.toList after.toList

/-! ### The labels of an item -/

/-- The graph of the item has the text on the line in quotes, and `after` behind them: a head of the layout in its
box, or the statement. -/
inductive Labelled (item : Term) : (line text after : String) → Prop
  | box {p : Term} {l : Layout} {level i : Nat} (hp : item.item 1 = .ok p)
      (h : ((l, level), i) ∈ (p.layout.rows 0).zipIdx 1) :
      Labelled item (Mark.node i l.head l.parts.isEmpty).line l.head
        (", fillcolor=" ++ (if l.parts.isEmpty then "lightgray" else "lightblue") ++ ", style=filled];")
  | goal {p q : Term} (hp : item.item 1 = .ok p) (hq : item.item 2 = .ok q) :
      Labelled item ("  goal [label=\"" ++ escape q.format ++ "\", shape=plaintext];") q.format
        ", shape=plaintext];"

theorem Labelled.mem_lines {item : Term} {line text after : String} (h : Labelled item line text after) :
    line ∈ (Graph.lines item).1 := by
  cases h with
  | @box p l level i hp h =>
    have hbox : (i, l.head, l.parts.isEmpty) ∈ nodes (marks 1 p.layout).1 := by
      rw [nodes_marks 1 0 p.layout]
      exact List.mem_map.2 ⟨_, h, rfl⟩
    exact (mem_lines_iff hp).2 (.inr (.inl (List.mem_map_of_mem (mem_nodes.1 hbox))))
  | goal hp hq => exact (mem_lines_iff hp).2 (.inr (.inr ⟨_, hq, List.mem_cons_self⟩))

theorem Labelled.readLabel_iff {item : Term} {line text after : String} (h : Labelled item line text after) :
    readLabel line = some (text.toList, after.toList) ↔ text.toList.getLast? ≠ some '\\' := by
  cases h with
  | @box p l level i hp h =>
    refine Graph.readLabel_iff ("  n" ++ toString i ++ " [label=").toList ?_ ?_
    · simp [Mark.line, String.toList_append]
    · simp [String.toList_append, quote_notMem_digits]
  | goal hp hq =>
    refine Graph.readLabel_iff "  goal [label=".toList ?_ (by decide)
    simp [String.toList_append]

/-- Whatever else is written has no quote. -/
theorem exists_labelled {item : Term} {line : String} (hline : line ∈ (Graph.lines item).1)
    (hquoted : quoted line = true) : ∃ text after, Labelled item line text after := by
  have plain : line ∉ header := fun h => absurd (List.mem_filter.2 ⟨h, hquoted⟩) List.not_mem_nil
  cases hp : item.item 1 with
  | error e =>
    rw [Graph.lines, hp] at hline
    exact absurd hline plain
  | ok p =>
    rcases (mem_lines_iff hp).1 hline with hline | hline | ⟨q, hq, hline⟩
    · exact absurd hline plain
    · have hbox := List.mem_filter.2 ⟨hline, hquoted⟩
      rw [filter_quoted_lines, nodes_marks 1 0] at hbox
      obtain ⟨b, hb, rfl⟩ := List.mem_map.1 hbox
      obtain ⟨⟨⟨l, level⟩, i⟩, hrow, rfl⟩ := List.mem_map.1 hb
      exact ⟨_, _, .box hp hrow⟩
    · have hgoal := List.mem_filter.2 ⟨hline, hquoted⟩
      rw [filter_quoted_footer, List.mem_singleton] at hgoal
      exact hgoal ▸ ⟨_, _, .goal hp hq⟩

/-- Every text in quotes is a head of the layout or the statement, on a line of its own, and its label reads as
that text and closes at the quote written behind it just if the text does not end in a backslash. -/
theorem readLabel_lines (item : Term) :
    (∀ line text after, Labelled item line text after → line ∈ (Graph.lines item).1 ∧
      (readLabel line = some (text.toList, after.toList) ↔ text.toList.getLast? ≠ some '\\')) ∧
    ∀ line ∈ (Graph.lines item).1, quoted line = true → ∃ text after, Labelled item line text after :=
  ⟨fun _ _ _ h => ⟨h.mem_lines, h.readLabel_iff⟩, fun _ => exists_labelled⟩

/-- The label for a proof named `a\` does not close: the backslash takes the closing quote with it. -/
theorem readLabel_backslash :
    let item := (Judgment.mk (.ofText "a\\") (.ofText "A")).term
    let line := "  n1 [label=\"a\\\", fillcolor=lightgray, style=filled];"
    Labelled item line "a\\" ", fillcolor=lightgray, style=filled];" ∧ line ∈ (Graph.lines item).1 ∧
    readLabel line = none := by
  intro item line
  have hrow : ((Layout.node "a\\" [], 0), 1) ∈ ((Term.ofText "a\\").layout.rows 0).zipIdx 1 := List.mem_cons_self
  exact ⟨.box rfl hrow, by decide, by decide⟩

end ProofSearch.Graph
