import ProofSearch.Proof.Graph
import ProofSearch.Proofs.Proof.Steps

/-!
# The graph of a proof

The graph of a layout has a box for each line, in the order of the lines and numbered by it, and an edge from
each box but the first to that of the line it hangs under: the last line before it that is one level further
out (`IsParent`). A node is written before its parts and an edge after all that is below it, so what is written
for the parts of a node is told by the numbers and levels of their lines (`sources_partMarks`,
`hangs_partMarks`), and what is written for a layout from that.
-/

namespace ProofSearch

namespace Layout

/-- What holds of a layout when it holds of its parts holds of every layout. -/
theorem induction {P : Layout → Prop} (node : ∀ head parts, (∀ l ∈ parts, P l) → P (.node head parts))
    (l : Layout) : P l := by
  refine Layout.rec (motive_1 := P) (motive_2 := fun ls => ∀ l ∈ ls, P l) node ?_ ?_ l
  · intro l hl
    cases hl
  · intro l ls hl hls
    exact List.forall_mem_cons.2 ⟨hl, hls⟩

mutual
/-- What stands on each line of the layout, with its level. -/
def rows (level : Nat) : Layout → List (Layout × Nat)
  | node head parts => (node head parts, level) :: rowsAll (level + 1) parts
def rowsAll (level : Nat) : List Layout → List (Layout × Nat)
  | [] => []
  | l :: ls => l.rows level ++ rowsAll level ls
end

theorem rowsAll_eq (level : Nat) (ls : List Layout) : rowsAll level ls = ls.flatMap (rows level) := by
  induction ls with
  | nil => rfl
  | cons l ls ih => rw [rowsAll, ih, List.flatMap_cons]

theorem rows_eq_cons (level : Nat) (l : Layout) :
    l.rows level = (l, level) :: l.parts.flatMap (rows (level + 1)) := by
  cases l with
  | node head parts => rw [rows, rowsAll_eq]; rfl

theorem lines_eq_rows (indent : Int) (level : Nat) (l : Layout) :
    l.lines (indent + level) = (l.rows level).map fun e => indented (indent + e.2) e.1.head := by
  induction l using Layout.induction generalizing level with
  | node head parts ih =>
    rw [lines_node, rows, rowsAll_eq, List.map_cons, List.map_flatMap]
    refine congrArg _ (List.flatMap_congr fun l hl => ?_)
    rw [← ih l hl (level + 1), Int.natCast_succ, Int.add_assoc]

theorem le_level {e : Layout × Nat} {level : Nat} {l : Layout} (h : e ∈ l.rows level) : level ≤ e.2 := by
  induction l using Layout.induction generalizing level with
  | node head parts ih =>
    rw [rows, rowsAll_eq] at h
    rcases List.mem_cons.1 h with rfl | h
    · exact Nat.le_refl level
    · obtain ⟨l, hl, he⟩ := List.mem_flatMap.1 h
      exact (Nat.le_succ level).trans (ih l hl he)

/-- The line at place `j` is the last one before place `i` that is one level further out than the line there. -/
def IsParent (levels : List Nat) (j i : Nat) : Prop :=
  ∃ before level between after, levels = before ++ level :: (between ++ (level + 1) :: after) ∧
    level ∉ between ∧ j = before.length ∧ i = before.length + between.length + 1

theorem IsParent.within {levels : List Nat} {j i : Nat} (h : IsParent levels j i) (before after : List Nat) :
    IsParent (before ++ levels ++ after) (before.length + j) (before.length + i) := by
  obtain ⟨bs, level, cs, ds, rfl, hlast, rfl, rfl⟩ := h
  refine ⟨before ++ bs, level, cs, ds ++ after, by simp, hlast, ?_, ?_⟩
  · rw [List.length_append]
  · rw [List.length_append]
    omega

end Layout

namespace Graph
open Layout

/-- The number, the label and the leaf mark of a box. -/
def Mark.node? : Mark → Option (Nat × String × Bool)
  | node id label leaf => some (id, label, leaf)
  | edge _ _ => none

/-- The numbers at both ends of an edge. -/
def Mark.edge? : Mark → Option (Nat × Nat)
  | node _ _ _ => none
  | edge source target => some (source, target)

def nodes (ms : List Mark) : List (Nat × String × Bool) := ms.filterMap Mark.node?

def edges (ms : List Mark) : List (Nat × Nat) := ms.filterMap Mark.edge?

section
variable (id source target : Nat) (label : String) (leaf : Bool) (ms ns : List Mark)

theorem nodes_append : nodes (ms ++ ns) = nodes ms ++ nodes ns := List.filterMap_append

theorem nodes_cons_node : nodes (.node id label leaf :: ms) = (id, label, leaf) :: nodes ms := rfl

theorem nodes_cons_edge : nodes (.edge source target :: ms) = nodes ms := rfl

theorem edges_append : edges (ms ++ ns) = edges ms ++ edges ns := List.filterMap_append

theorem edges_cons_node : edges (.node id label leaf :: ms) = edges ms := rfl

theorem edges_cons_edge : edges (.edge source target :: ms) = (source, target) :: edges ms := rfl

end

theorem mem_nodes {id : Nat} {label : String} {leaf : Bool} {ms : List Mark} :
    (id, label, leaf) ∈ nodes ms ↔ .node id label leaf ∈ ms := by
  rw [nodes, List.mem_filterMap]
  constructor
  · rintro ⟨m, hm, hnode⟩
    cases m with
    | node => cases hnode; exact hm
    | edge => cases hnode
  · exact fun hm => ⟨_, hm, rfl⟩

theorem marks_node (id : Nat) (head : String) (parts : List Layout) :
    marks id (.node head parts) =
      (.node id head parts.isEmpty :: (partMarks id (id + 1) parts).1, (partMarks id (id + 1) parts).2) := by
  rw [marks]

theorem partMarks_cons (whole next : Nat) (l : Layout) (ls : List Layout) :
    partMarks whole next (l :: ls) =
      ((marks next l).1 ++ .edge next whole :: (partMarks whole (marks next l).2 ls).1,
        (partMarks whole (marks next l).2 ls).2) := by
  rw [partMarks]

/-! ### Numbers -/

theorem snd_partMarks {ls : List Layout} (level : Nat)
    (h : ∀ l ∈ ls, ∀ id, (marks id l).2 = id + (l.rows level).length) (whole next : Nat) :
    (partMarks whole next ls).2 = next + (rowsAll level ls).length := by
  induction ls generalizing next with
  | nil => rfl
  | cons l ls ih =>
    obtain ⟨hl, hls⟩ := List.forall_mem_cons.1 h
    rw [partMarks_cons, ih hls, hl, rowsAll, List.length_append, Nat.add_assoc]

/-- As many numbers are used as there are lines. -/
theorem snd_marks (id level : Nat) (l : Layout) : (marks id l).2 = id + (l.rows level).length := by
  induction l using Layout.induction generalizing id level with
  | node head parts ih =>
    rw [marks_node, snd_partMarks (level + 1) fun l hl id => ih l hl id (level + 1), rows, List.length_cons]
    omega

/-- The boxes of lines numbered from `id` on. -/
def boxes (id : Nat) (es : List (Layout × Nat)) : List (Nat × String × Bool) :=
  (es.zipIdx id).map fun (e, i) => (i, e.1.head, e.1.parts.isEmpty)

theorem boxes_append (id : Nat) (es fs : List (Layout × Nat)) :
    boxes id (es ++ fs) = boxes id es ++ boxes (id + es.length) fs := by
  rw [boxes, List.zipIdx_append, List.map_append]
  rfl

theorem nodes_partMarks {ls : List Layout} (level : Nat)
    (h : ∀ l ∈ ls, ∀ id, nodes (marks id l).1 = boxes id (l.rows level)) (whole next : Nat) :
    nodes (partMarks whole next ls).1 = boxes next (rowsAll level ls) := by
  induction ls generalizing next with
  | nil => rfl
  | cons l ls ih =>
    obtain ⟨hl, hls⟩ := List.forall_mem_cons.1 h
    rw [partMarks_cons, nodes_append, nodes_cons_edge, hl, ih hls, snd_marks next level, rowsAll, boxes_append]

/-- Each line has its box, in order. -/
theorem nodes_marks (id level : Nat) (l : Layout) : nodes (marks id l).1 = boxes id (l.rows level) := by
  induction l using Layout.induction generalizing id level with
  | node head parts ih =>
    rw [marks_node, nodes_cons_node, nodes_partMarks (level + 1) fun l hl id => ih l hl id (level + 1), rows]
    rfl

/-! ### Edges -/

theorem edges_partMarks_cons (whole next : Nat) (l : Layout) (ls : List Layout) :
    edges (partMarks whole next (l :: ls)).1 =
      edges (marks next l).1 ++ (next, whole) :: edges (partMarks whole (marks next l).2 ls).1 := by
  rw [partMarks_cons, edges_append, edges_cons_edge]

theorem edges_marks_node (id : Nat) (head : String) (parts : List Layout) :
    edges (marks id (.node head parts)).1 = edges (partMarks id (id + 1) parts).1 := by
  rw [marks_node, edges_cons_node]

/-- An edge leaves each box but the first of each part, and one more leaves that. -/
theorem sources_partMarks {ls : List Layout} (level : Nat)
    (h : ∀ l ∈ ls, ∀ id, (id :: (edges (marks id l).1).map Prod.fst).Perm (.range' id (l.rows level).length))
    (whole next : Nat) : ((edges (partMarks whole next ls).1).map Prod.fst).Perm
      (.range' next (rowsAll level ls).length) := by
  induction ls generalizing next with
  | nil => exact .nil
  | cons l ls ih =>
    obtain ⟨hl, hls⟩ := List.forall_mem_cons.1 h
    rw [edges_partMarks_cons, List.map_append, List.map_cons, rowsAll, List.length_append,
      ← List.range'_append_1, ← snd_marks next level]
    exact List.perm_middle.trans ((hl next).append (ih hls _))

theorem sources_marks (id level : Nat) (l : Layout) :
    (id :: (edges (marks id l).1).map Prod.fst).Perm (.range' id (l.rows level).length) := by
  induction l using Layout.induction generalizing id level with
  | node head parts ih =>
    rw [edges_marks_node, rows, List.length_cons, List.range'_succ]
    exact (sources_partMarks (level + 1) (fun l hl id => ih l hl id (level + 1)) id (id + 1)).cons id

/-- The edge leads from a box to that of the line it hangs under, where the numbers start at `id`. -/
def Hangs (id : Nat) (es : List (Layout × Nat)) (e : Nat × Nat) : Prop :=
  ∃ j i, e = (id + i, id + j) ∧ IsParent (es.map Prod.snd) j i

theorem Hangs.within {id : Nat} {es : List (Layout × Nat)} {e : Nat × Nat} (before after : List (Layout × Nat))
    (h : Hangs (id + before.length) es e) : Hangs id (before ++ es ++ after) e := by
  obtain ⟨j, i, rfl, hparent⟩ := h
  refine ⟨before.length + j, before.length + i, by rw [← Nat.add_assoc, ← Nat.add_assoc], ?_⟩
  have hwithin := hparent.within (before.map Prod.snd) (after.map Prod.snd)
  rwa [List.length_map, ← List.map_append, ← List.map_append] at hwithin

/-- An edge among the parts hangs between their lines, or it leads from a line at the level of the parts to the
whole. -/
theorem hangs_partMarks {ls : List Layout} {level : Nat}
    (h : ∀ l ∈ ls, ∀ id, ∀ e ∈ edges (marks id l).1, Hangs id (l.rows level) e) (whole next : Nat) :
    ∀ e ∈ edges (partMarks whole next ls).1, Hangs next (rowsAll level ls) e ∨
      ∃ before row after, rowsAll level ls = before ++ (row, level) :: after ∧
        e = (next + before.length, whole) := by
  induction ls generalizing next with
  | nil => intro e he; cases he
  | cons l ls ih =>
    obtain ⟨hl, hls⟩ := List.forall_mem_cons.1 h
    intro e he
    rw [edges_partMarks_cons, snd_marks next level] at he
    rw [rowsAll]
    rcases List.mem_append.1 he with he | he
    · exact .inl (Hangs.within [] (rowsAll level ls) (hl next e he))
    rcases List.mem_cons.1 he with rfl | he
    · exact .inr ⟨[], l, _, by rw [rows_eq_cons]; rfl, rfl⟩
    rcases ih hls (next + (l.rows level).length) e he with hin | ⟨before, row, after, hrows, rfl⟩
    · have := hin.within (l.rows level) []
      rw [List.append_nil] at this
      exact .inl this
    · refine .inr ⟨l.rows level ++ before, row, after, by rw [hrows, List.append_assoc], ?_⟩
      rw [List.length_append, Nat.add_assoc]

theorem hangs_marks (id level : Nat) (l : Layout) : ∀ e ∈ edges (marks id l).1, Hangs id (l.rows level) e := by
  induction l using Layout.induction generalizing id level with
  | node head parts ih =>
    intro e he
    rw [edges_marks_node] at he
    rw [rows]
    rcases hangs_partMarks (fun l hl id => ih l hl id (level + 1)) id (id + 1) e he with
      hin | ⟨before, row, after, hrows, rfl⟩
    · have := Hangs.within [(node head parts, level)] [] hin
      rwa [List.append_nil] at this
    · -- no line of the parts is as far out as the whole
      refine ⟨0, before.length + 1, by rw [Nat.add_right_comm]; rfl, [], level, before.map Prod.snd,
        after.map Prod.snd, by rw [hrows]; simp, fun hmem => ?_, rfl, by simp⟩
      obtain ⟨f, hf, hlevel⟩ := List.mem_map.1 hmem
      have hfr : f ∈ rowsAll (level + 1) parts := hrows ▸ List.mem_append_left _ hf
      rw [rowsAll_eq] at hfr
      obtain ⟨l, -, hfl⟩ := List.mem_flatMap.1 hfr
      have := le_level hfl
      omega

/-! ### The file -/

theorem quote_notMem_digits (n : Nat) : '"' ∉ Nat.toDigits 10 n := fun h =>
  absurd (Nat.isDigit_of_mem_toDigits (by decide) (by decide) h) (by decide)

/-- The line has a label on it. -/
def quoted (line : String) : Bool := '"' ∈ line.toList

theorem quoted_node (id : Nat) (label : String) (leaf : Bool) : quoted (Mark.node id label leaf).line = true := by
  simp [quoted, Mark.line, String.toList_append]

theorem quoted_edge (source target : Nat) : quoted (Mark.edge source target).line = false := by
  simp [quoted, Mark.line, String.toList_append, quote_notMem_digits]

/-- To keep some of the lines is to write some of the marks. -/
theorem filter_lines_eq {α : Type} {p : String → Bool} {f : Mark → Option α} {g : α → String}
    (h : ∀ m : Mark, (f m).map g = Option.guard (fun line => p line) m.line) (ms : List Mark) :
    (ms.map Mark.line).filter p = (ms.filterMap f).map g := by
  rw [List.map_filterMap, funext h, ← List.filterMap_eq_filter, List.filterMap_map]
  rfl

theorem filter_quoted_lines (ms : List Mark) :
    (ms.map Mark.line).filter quoted = (nodes ms).map fun (id, label, leaf) => (Mark.node id label leaf).line := by
  refine filter_lines_eq (fun m => ?_) ms
  cases m with
  | node id label leaf => rw [Option.guard_apply, if_pos (quoted_node ..)]; rfl
  | edge source target => rw [Option.guard_apply, if_neg (by simp [quoted_edge])]; rfl

theorem filter_not_quoted_lines (ms : List Mark) :
    (ms.map Mark.line).filter (!quoted ·) = (edges ms).map fun (source, target) => (Mark.edge source target).line := by
  refine filter_lines_eq (fun m => ?_) ms
  cases m with
  | node id label leaf => rw [Option.guard_apply, if_neg (by simp [quoted_node])]; rfl
  | edge source target => rw [Option.guard_apply, if_pos (by simp [quoted_edge])]; rfl

theorem quoted_goal (s : String) : quoted ("  goal [label=\"" ++ escape s ++ "\", shape=plaintext];") = true := by
  simp [quoted, String.toList_append]

theorem filter_quoted_footer (s : String) :
    (footer s).filter quoted = ["  goal [label=\"" ++ escape s ++ "\", shape=plaintext];"] :=
  List.filter_cons_of_pos (quoted_goal s)

theorem filter_not_quoted_footer (s : String) :
    (footer s).filter (!quoted ·) = ["  n1 -> goal;", "\x7d"] :=
  List.filter_cons_of_neg (by simp [quoted_goal])

theorem lines_of_statement {item p q : Term} (hp : item.item 1 = .ok p) (hq : item.item 2 = .ok q) :
    Graph.lines item = (header ++ (marks 1 p.layout).1.map Mark.line ++ footer q.format, none) := by
  rw [Graph.lines, hp, hq]

theorem lines_of_fault {item p : Term} {e : Fault} (hp : item.item 1 = .ok p) (he : item.item 2 = .error e) :
    Graph.lines item = (header ++ (marks 1 p.layout).1.map Mark.line, some e) := by
  rw [Graph.lines, hp, he]

theorem mem_lines_iff {item p : Term} (hp : item.item 1 = .ok p) {line : String} :
    line ∈ (Graph.lines item).1 ↔ line ∈ header ∨ line ∈ (marks 1 p.layout).1.map Mark.line ∨
      ∃ q, item.item 2 = .ok q ∧ line ∈ footer q.format := by
  cases hq : item.item 2 with
  | ok q => simp [lines_of_statement hp hq]
  | error e => simp [lines_of_fault hp hq]

theorem sources_perm (l : Layout) :
    ((edges (marks 1 l).1).map Prod.fst).Perm (.range' 2 ((l.rows 0).length - 1)) := by
  have hsources := sources_marks 1 0 l
  rw [rows_eq_cons, List.length_cons, List.range'_succ] at hsources
  rw [rows_eq_cons, List.length_cons, Nat.add_sub_cancel]
  exact hsources.cons_inv

/-- The file for an item whose proof is `p` has a box for each line of the layout of `p`, in this order and numbered
from 1 on, with the head that stands there and the colour of a leaf where there are no parts. One edge leaves each
box but the first, for that of the line it hangs under; the first has the edge to the statement. There is no other
line but those at the beginning and the end. For an item without a statement the file breaks off before the box of
the statement. -/
theorem lines_numbered {item p : Term} (hp : item.item 1 = .ok p) :
    let rows := p.layout.rows 0
    let file := (Graph.lines item).1
    let boxes := (rows.zipIdx 1).map fun (e, i) =>
      "  n" ++ toString i ++ " [label=\"" ++ escape e.1.head ++ "\", fillcolor=" ++
        (if e.1.parts.isEmpty then "lightgray" else "lightblue") ++ ", style=filled];"
    p.layout.lines 0 = rows.map (fun e => indented e.2 e.1.head) ∧
    ∃ es : List (Nat × Nat), (es.map Prod.fst).Perm (.range' 2 (rows.length - 1)) ∧
      (∀ e ∈ es, ∃ j i, e = (1 + i, 1 + j) ∧ IsParent (rows.map Prod.snd) j i) ∧
      let links := es.map fun (i, j) => "  n" ++ toString i ++ " -> n" ++ toString j ++ ";"
      (∀ q, item.item 2 = .ok q → (Graph.lines item).2 = none ∧
        file.filter quoted = boxes ++ ["  goal [label=\"" ++ escape q.format ++ "\", shape=plaintext];"] ∧
        file.filter (!quoted ·) = header ++ links ++ ["  n1 -> goal;", "\x7d"]) ∧
      (∀ e, item.item 2 = .error e → (Graph.lines item).2 = some e ∧
        file.filter quoted = boxes ∧ file.filter (!quoted ·) = header ++ links) := by
  intro rows file boxes
  have hlines := lines_eq_rows 0 0 p.layout
  simp only [Int.natCast_zero, Int.zero_add] at hlines
  have hboxes : ((marks 1 p.layout).1.map Mark.line).filter quoted = boxes := by
    rw [filter_quoted_lines, nodes_marks 1 0, Graph.boxes, List.map_map]
    rfl
  refine ⟨hlines, edges (marks 1 p.layout).1, sources_perm p.layout, hangs_marks 1 0 p.layout, ?_⟩
  intro links
  have hlinks : ((marks 1 p.layout).1.map Mark.line).filter (!quoted ·) = links := filter_not_quoted_lines _
  refine ⟨fun q hq => ?_, fun e he => ?_⟩
  · rw [show file = _ from congrArg Prod.fst (lines_of_statement hp hq), List.filter_append, List.filter_append,
      List.filter_append, List.filter_append, hboxes, hlinks, filter_quoted_footer, filter_not_quoted_footer]
    exact ⟨congrArg Prod.snd (lines_of_statement hp hq), rfl, rfl⟩
  · rw [show file = _ from congrArg Prod.fst (lines_of_fault hp he), List.filter_append, List.filter_append, hboxes,
      hlinks]
    exact ⟨congrArg Prod.snd (lines_of_fault hp he), rfl, rfl⟩

/-- `((MP ab) (g" a))` has four boxes, the third of them under the first, and `a` hangs under that. -/
theorem lines_numbered_nested :
    let p : Term := .applied (.ofText "MP") [.ofText "ab", .applied (.ofText "g\"") [.ofText "a"]]
    let item := (Judgment.mk p (.ofText "B")).term
    let file := (Graph.lines item).1
    item.item 1 = .ok p ∧ item.item 2 = .ok (.ofText "B") ∧
    p.layout.lines 0 = ["MP", "  ab", "  g\"", "    a"] ∧
    (file.filter quoted)[2]? = some "  n3 [label=\"g\\\"\", fillcolor=lightblue, style=filled];" ∧
    ∃ es : List (Nat × Nat), (es.map Prod.fst).Perm [2, 3, 4] ∧
      (∀ e ∈ es, ∃ j i, e = (1 + i, 1 + j) ∧ IsParent [0, 1, 1, 2] j i) ∧
      file.filter (!quoted ·) = header ++
        es.map (fun (i, j) => "  n" ++ toString i ++ " -> n" ++ toString j ++ ";") ++ ["  n1 -> goal;", "\x7d"] := by
  intro p item file
  have hp : item.item 1 = .ok p := rfl
  have hq : item.item 2 = .ok (.ofText "B") := rfl
  have hlevels : (p.layout.rows 0).map Prod.snd = [0, 1, 1, 2] := by decide
  obtain ⟨-, es, hperm, hedges, hfile, -⟩ := lines_numbered hp
  obtain ⟨-, hboxes, hlinks⟩ := hfile _ hq
  rw [hlevels] at hedges
  exact ⟨hp, hq, by decide, by rw [hboxes]; decide, es, hperm, hedges, hlinks⟩

end Graph
end ProofSearch
