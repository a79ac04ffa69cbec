import ProofSearch.Proofs.Proof.Spine

/-!
# Layout, steps and size of a proof

The lines of a proof's layout are its steps from the whole down, each at its depth with its head. The steps of
the proofs that a step is made of stand right before it, so the list begins with a leaf and ends with the whole
proof. Every application and abstraction makes one step more, but for those in the heads of spines, which are
written out and not entered (`applications_add_one_eq`).
-/

namespace ProofSearch

/-- The text behind two spaces for each level. -/
def Layout.indented (indent : Int) (text : String) : String :=
  String.ofList (List.replicate (2 * indent.toNat) ' ') ++ text

theorem Layout.lines_node (indent : Int) (head : String) (parts : List Layout) :
    (node head parts).lines indent = indented indent head :: parts.flatMap (lines (indent + 1)) := by
  have all : linesAll (indent + 1) parts = parts.flatMap (lines (indent + 1)) := by
    induction parts with
    | nil => rfl
    | cons l ls ih => rw [linesAll, ih, List.flatMap_cons]
  rw [lines, all, indented]

namespace Term
variable {t p q : Term} {d : Nat} {es fs : List (Term × Nat)}

theorem lines_layout (indent : Int) (d : Nat) (t : Term) :
    t.layout.lines (indent + d) =
      (outerSteps d t).map fun e => Layout.indented (indent + e.2) e.1.headText := by
  induction t using induction_subproofs generalizing d with
  | step t ih =>
    rw [layout_eq, outerSteps_eq, Layout.lines_node, List.map_cons, List.flatMap_map, List.map_flatMap]
    refine congrArg _ (List.flatMap_congr fun a ha => ?_)
    rw [← ih a ha (d + 1), Int.natCast_succ, Int.add_assoc]

/-! ### Before its owner -/

/-- Every entry is followed at once by the steps of the proofs it is made of. -/
def Unfolded (es : List (Term × Nat)) : Prop :=
  ∀ before q d after, es = before ++ (q, d) :: after → q.subproofs.flatMap (outerSteps (d + 1)) <+: after

theorem unfolded_nil : Unfolded [] := fun before q d after h => by simp at h

theorem Unfolded.append (h : Unfolded es) (h' : Unfolded fs) : Unfolded (es ++ fs) := by
  intro before q d after he
  rcases List.append_eq_append_iff.1 he with ⟨bs, rfl, hfs⟩ | ⟨bs, hes, hcons⟩
  · exact h' bs q d after hfs
  · cases bs with
    | nil => exact h' [] q d after hcons.symm
    | cons b bs =>
      obtain ⟨rfl, rfl⟩ := List.cons.inj hcons
      exact (h before q d bs hes).trans (List.prefix_append bs fs)

theorem unfolded_flatMap {ts : List Term} (h : ∀ t ∈ ts, Unfolded (outerSteps d t)) :
    Unfolded (ts.flatMap (outerSteps d)) := by
  induction ts with
  | nil => exact unfolded_nil
  | cons t ts ih =>
    obtain ⟨ht, hts⟩ := List.forall_mem_cons.1 h
    exact ht.append (ih hts)

theorem unfolded_outerSteps (d : Nat) (t : Term) : Unfolded (outerSteps d t) := by
  induction t using induction_subproofs generalizing d with
  | step t ih =>
    intro before q e after h
    rw [outerSteps_eq] at h
    cases before with
    | nil =>
      cases h
      exact List.prefix_rfl
    | cons b before =>
      obtain ⟨-, h⟩ := List.cons.inj h
      exact unfolded_flatMap (fun a ha => ih a ha (d + 1)) before q e after h

/-- Right before a step stand the steps of the proofs it is made of, the last of these proofs first. -/
theorem steps_of_owner {before after : List (Term × Nat)} (h : p.steps = before ++ (q, d) :: after) :
    (q.subproofs.flatMap (outerSteps (d + 1))).reverse <:+ before := by
  rw [← List.reverse_prefix, List.reverse_reverse]
  refine unfolded_outerSteps 0 p after.reverse q d before.reverse ?_
  rw [← List.reverse_reverse (outerSteps 0 p), ← steps, h]
  simp

theorem mem_of_owner {before after : List (Term × Nat)} (h : p.steps = before ++ (q, d) :: after) :
    ∀ a ∈ q.subproofs, (a, d + 1) ∈ before := by
  intro a ha
  refine (steps_of_owner h).subset (List.mem_reverse.2 (List.mem_flatMap.2 ⟨a, ha, ?_⟩))
  rw [outerSteps_eq]
  exact List.mem_cons_self

theorem getLast?_steps (p : Term) : p.steps.getLast? = some (p, 0) := by
  rw [steps, List.getLast?_reverse, outerSteps_eq, List.head?_cons]

theorem head?_steps (p : Term) : ∃ q d, p.steps.head? = some (q, d) ∧ q.subproofs = [] := by
  cases hp : p.steps with
  | nil =>
    have hlast := getLast?_steps p
    rw [hp] at hlast
    cases hlast
  | cons e after =>
    obtain ⟨q, d⟩ := e
    have hfirst : p.steps = [] ++ (q, d) :: after := hp
    exact ⟨q, d, rfl, List.eq_nil_iff_forall_not_mem.2 fun a ha => List.not_mem_nil (mem_of_owner hfirst a ha)⟩

/-! ### Size -/

/-- The applications and abstractions in the head of the spine, where the proof is no abstraction. -/
def unentered (t : Term) : Nat :=
  match t.abstraction? with
  | some _ => 0
  | none => t.spine.1.applications

theorem applications_eq (t : Term) :
    t.applications = t.unentered + (t.subproofs.map fun a => a.applications + 1).sum := by
  cases ht : t.abstraction? with
  | none => rw [unentered, ht, subproofs_eq_spine ht, ← applications_eq_spine]
  | some p =>
    obtain ⟨x, body⟩ := p
    obtain rfl := eq_abstraction_of_abstraction? ht
    rw [unentered, ht, subproofs_abstraction, applications_abstraction]
    simp

theorem unentered_eq_zero_iff :
    t.unentered = 0 ↔ (t.abstraction? = none → t.spine.1.abstraction? = none) := by
  cases ht : t.abstraction? with
  | some p => simp [unentered, ht]
  | none =>
    rw [unentered, ht]
    cases hh : t.spine.1.abstraction? with
    | none => simp [applications_eq_zero (fun f a => spine_fst_ne t f a) hh]
    | some p =>
      obtain ⟨x, body⟩ := p
      rw [eq_abstraction_of_abstraction? hh, applications_abstraction]
      simp

theorem sum_applications_eq {ts : List Term} (h : ∀ t ∈ ts, t.applications + 1 =
      (outerSteps d t).length + ((outerSteps d t).map fun e => e.1.unentered).sum) :
    (ts.map fun t => t.applications + 1).sum = (ts.flatMap (outerSteps d)).length +
      ((ts.flatMap (outerSteps d)).map fun e => e.1.unentered).sum := by
  induction ts with
  | nil => rfl
  | cons t ts ih =>
    obtain ⟨ht, hts⟩ := List.forall_mem_cons.1 h
    rw [List.map_cons, List.sum_cons, ht, ih hts, List.flatMap_cons, List.length_append, List.map_append,
      List.sum_append]
    omega

/-- Each application and each abstraction makes a step, unless it stands in the head of a spine. -/
theorem applications_add_one_eq (d : Nat) (t : Term) : t.applications + 1 =
    (outerSteps d t).length + ((outerSteps d t).map fun e => e.1.unentered).sum := by
  induction t using induction_subproofs generalizing d with
  | step t ih =>
    have parts := sum_applications_eq fun a ha => ih a ha (d + 1)
    rw [applications_eq, parts, outerSteps_eq, List.length_cons, List.map_cons, List.sum_cons]
    dsimp only
    omega

/-- The layout has a line for each step from the whole proof down: at the depth of the step, with its binder or
the head of its spine. The steps of the proofs a step is made of, its arguments or its body, stand right before
it; the first step is a leaf, the last the whole proof. There is one step more than there are applications and
abstractions, but for those in an abstraction at the head of a spine. -/
theorem walks_agree (p : Term) (indent : Int) :
    p.layout.lines indent =
      p.steps.reverse.map (fun e => Layout.indented (indent + e.2) e.1.headText) ∧
    (∀ before q d after, p.steps = before ++ (q, d) :: after →
      (q.subproofs.flatMap (outerSteps (d + 1))).reverse <:+ before ∧
        ∀ a ∈ q.subproofs, (a, d + 1) ∈ before) ∧
    (∃ q d, p.steps.head? = some (q, d) ∧ q.subproofs = []) ∧
    p.steps.getLast? = some (p, 0) ∧
    p.steps.length ≤ p.applications + 1 ∧
    (p.steps.length = p.applications + 1 ↔
      ∀ e ∈ p.steps, e.1.abstraction? = none → e.1.spine.1.abstraction? = none) := by
  have hcount := applications_add_one_eq 0 p
  have hlength : p.steps.length = (outerSteps 0 p).length := List.length_reverse
  refine ⟨?_, fun before q d after h => ⟨steps_of_owner h, mem_of_owner h⟩, head?_steps p, getLast?_steps p,
    by omega, ?_⟩
  · have hlines := lines_layout indent 0 p
    rwa [Int.natCast_zero, Int.add_zero, ← List.reverse_reverse (outerSteps 0 p), ← steps] at hlines
  · have hsum : ((outerSteps 0 p).map fun e => e.1.unentered).sum = 0 ↔
        ∀ e ∈ p.steps, e.1.abstraction? = none → e.1.spine.1.abstraction? = none := by
      simp only [List.sum_eq_zero_iff, List.forall_mem_map, unentered_eq_zero_iff, steps, List.mem_reverse]
    rw [← hsum, hlength]
    omega

/-- An abstraction that is applied is written out at the head, and its body makes no step. -/
example : (tuple [abstraction (ofText "x") (ofText "x"), ofText "a"]).steps.length = 2 ∧
    (tuple [abstraction (ofText "x") (ofText "x"), ofText "a"]).applications = 2 := by decide

end Term
end ProofSearch
