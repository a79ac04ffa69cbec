import ProofSearch.Proof.Layout
import ProofSearch.Proofs.Term.Subst

/-!
# Spines

An application is unwound into the head of its spine and the arguments along it. Laying a proof out, listing
its steps, counting its applications and naming its heads each go along the spine in a way of their own; here
each of them is said of the spine. The proofs that a proof is made of at once (`subproofs`) are the body of an
abstraction and the arguments along the spine of anything else, so there is one induction on proofs for all
of them (`induction_subproofs`).
-/

namespace ProofSearch.Term
variable {t f a x body : Term} {args : List Term}

/-- What holds of whatever is no application, and of an application when it holds of what is applied, holds
of every term. -/
theorem induction_spine {P : Term → Prop} (application : ∀ f a, P f → P (tuple [f, a]))
    (head : ∀ t, (∀ f a, t = tuple [f, a] → False) → P t) (t : Term) : P t :=
  spineOnto.induct (fun _ t => P t) (fun _ f a ih => application f a ih) (fun _ t h => head t h) [] t

theorem spineOnto_head (h : ∀ f a, t = tuple [f, a] → False) (args : List Term) :
    t.spineOnto args = (t, args) := by
  unfold spineOnto
  split
  · next f a => exact (h f a rfl).elim
  · rfl

theorem spine_head (h : ∀ f a, t = tuple [f, a] → False) : t.spine = (t, []) := spineOnto_head h []

theorem spineOnto_eq (args : List Term) (t : Term) : t.spineOnto args = (t.spine.1, t.spine.2 ++ args) := by
  induction t using induction_spine generalizing args with
  | application f a ih =>
    have happ : ∀ args, (tuple [f, a]).spineOnto args = f.spineOnto (a :: args) := fun _ => rfl
    rw [spine, happ, happ, ih, ih [a], List.append_assoc]
    rfl
  | head t h => rw [spine_head h, spineOnto_head h]; rfl

theorem spine_application (f a : Term) : (tuple [f, a]).spine = (f.spine.1, f.spine.2 ++ [a]) :=
  spineOnto_eq [a] f

/-- The head is applied to nothing any more. -/
theorem spine_fst_ne (t f a : Term) : t.spine.1 ≠ tuple [f, a] := by
  induction t using induction_spine with
  | application g b ih => rwa [spine_application]
  | head t h => rw [spine_head h]; exact h f a

@[simp] theorem abstraction?_application (f a : Term) : (tuple [f, a]).abstraction? = none := by
  simp [abstraction?]

theorem spine_of_abstraction? (h : t.abstraction? = some (x, body)) : t.spine = (t, []) :=
  spine_head fun f a he => by rw [he, abstraction?_application] at h; cases h

theorem size_spine_fst_le (t : Term) : t.spine.1.size ≤ t.size := by
  induction t using induction_spine with
  | application f a ih =>
    rw [spine_application]
    exact ih.trans (size_lt_size_tuple (by simp)).le
  | head t h => rw [spine_head h]

theorem size_spine_fst_lt (h : t.spine.1 ≠ t) : t.spine.1.size < t.size := by
  induction t using induction_spine with
  | application f a _ =>
    rw [spine_application]
    exact (size_spine_fst_le f).trans_lt (size_lt_size_tuple (by simp))
  | head t ht => exact absurd (by rw [spine_head ht]) h

theorem size_lt_of_mem_spine (h : a ∈ t.spine.2) : a.size < t.size := by
  induction t using induction_spine with
  | application f b ih =>
    rw [spine_application] at h
    rcases List.mem_append.1 h with h | h
    · exact (ih h).trans (size_lt_size_tuple (by simp))
    · exact List.mem_singleton.1 h ▸ size_lt_size_tuple (by simp)
  | head t ht => rw [spine_head ht] at h; cases h

/-! ### What a proof is made of -/

/-- The proofs that the proof is made of at once. -/
def subproofs (t : Term) : List Term :=
  match t.abstraction? with
  | some (_, body) => [body]
  | none => t.spine.2

/-- What is written at the root of the layout: the binder of an abstraction, or the head of the spine. -/
def headText (t : Term) : String :=
  match t.abstraction? with
  | some (x, _) => "λ " ++ x.format
  | none => t.spine.1.format

@[simp] theorem subproofs_abstraction (x body : Term) : (abstraction x body).subproofs = [body] := by
  rw [subproofs, abstraction?_abstraction]

@[simp] theorem headText_abstraction (x body : Term) : (abstraction x body).headText = "λ " ++ x.format := by
  rw [headText, abstraction?_abstraction]

theorem subproofs_eq_spine (h : t.abstraction? = none) : t.subproofs = t.spine.2 := by rw [subproofs, h]

theorem headText_eq_spine (h : t.abstraction? = none) : t.headText = t.spine.1.format := by rw [headText, h]

theorem size_body_lt (h : t.abstraction? = some (x, body)) : body.size < t.size :=
  eq_abstraction_of_abstraction? h ▸ size_lt_size_tuple (by simp)

theorem size_lt_of_mem_subproofs (h : a ∈ t.subproofs) : a.size < t.size := by
  cases ht : t.abstraction? with
  | none => exact size_lt_of_mem_spine (subproofs_eq_spine ht ▸ h)
  | some p =>
    rw [subproofs, ht] at h
    exact List.mem_singleton.1 h ▸ size_body_lt ht

theorem induction_subproofs {P : Term → Prop} (step : ∀ t, (∀ a ∈ t.subproofs, P a) → P t) (t : Term) :
    P t := by
  induction hn : t.size using Nat.strong_induction_on generalizing t with
  | _ n ih => exact step t fun a ha => ih a.size (hn ▸ size_lt_of_mem_subproofs ha) a rfl

/-! ### Layout -/

theorem layoutOnto_eq (args : List Layout) (t : Term) :
    layoutOnto args t = .node t.spine.1.format (t.spine.2.map layout ++ args) := by
  induction t using induction_spine generalizing args with
  | application f a ih =>
    have happ : layoutOnto args (tuple [f, a]) = layoutOnto (layout a :: args) f := by rw [layoutOnto]
    rw [happ, ih, spine_application, List.map_append, List.append_assoc]
    rfl
  | head t h =>
    rw [spine_head h, layoutOnto]
    · rfl
    · exact h

theorem layout_of_abstraction?_eq_none (h : t.abstraction? = none) :
    t.layout = .node t.spine.1.format (t.spine.2.map layout) := by
  unfold layout
  split
  · next f a =>
    rw [layoutOnto_eq, spine_application, List.map_append]
    rfl
  · next s x body =>
    split
    · next hs => simp [abstraction?, hs] at h
    · rfl
  · next t happ habs =>
    rw [spine_head happ]
    rfl

theorem layout_eq (t : Term) : t.layout = .node t.headText (t.subproofs.map layout) := by
  cases ht : t.abstraction? with
  | none => rw [headText_eq_spine ht, subproofs_eq_spine ht, layout_of_abstraction?_eq_none ht]
  | some p =>
    obtain ⟨x, body⟩ := p
    obtain rfl := eq_abstraction_of_abstraction? ht
    rw [headText_abstraction, subproofs_abstraction]
    simp [abstraction, layout]

/-! ### Steps -/

theorem argumentSteps_eq (depth : Nat) (rest : List (Term × Nat)) (t : Term) :
    argumentSteps depth rest t = t.spine.2.flatMap (outerSteps (depth + 1)) ++ rest := by
  induction t using induction_spine generalizing rest with
  | application f a ih =>
    have happ : argumentSteps depth rest (tuple [f, a]) =
        argumentSteps depth (outerSteps (depth + 1) a ++ rest) f := by rw [argumentSteps]
    rw [happ, ih, spine_application, List.flatMap_append, List.flatMap_singleton, List.append_assoc]
  | head t h =>
    rw [spine_head h, argumentSteps]
    · rfl
    · exact h

theorem outerSteps_of_abstraction?_eq_none (depth : Nat) (h : t.abstraction? = none) :
    outerSteps depth t = (t, depth) :: t.spine.2.flatMap (outerSteps (depth + 1)) := by
  unfold outerSteps
  split
  · next f a => rw [argumentSteps_eq, spine_application, List.flatMap_append, List.flatMap_singleton]
  · next s x body =>
    split
    · next hs => simp [abstraction?, hs] at h
    · rfl
  · next t happ habs =>
    rw [spine_head happ]
    rfl

/-- A proof comes before the steps of the proofs it is made of. -/
theorem outerSteps_eq (depth : Nat) (t : Term) :
    outerSteps depth t = (t, depth) :: t.subproofs.flatMap (outerSteps (depth + 1)) := by
  cases ht : t.abstraction? with
  | none => rw [subproofs_eq_spine ht, outerSteps_of_abstraction?_eq_none depth ht]
  | some p =>
    obtain ⟨x, body⟩ := p
    obtain rfl := eq_abstraction_of_abstraction? ht
    rw [subproofs_abstraction, List.flatMap_singleton]
    simp [abstraction, outerSteps]

/-! ### Applications -/

theorem applications_eq_spine (t : Term) :
    t.applications = t.spine.1.applications + (t.spine.2.map fun a => a.applications + 1).sum := by
  induction t using induction_spine with
  | application f a ih =>
    rw [applications, ih]
    simp only [spine_application, List.map_append, List.sum_append, List.map_singleton, List.sum_singleton]
    omega
  | head t h => rw [spine_head h]; rfl

theorem applications_abstraction (x body : Term) :
    (abstraction x body).applications = body.applications + 1 := by
  simp [abstraction, applications]

/-- A term that is neither an application nor an abstraction has none. -/
theorem applications_eq_zero (h : ∀ f a, t = tuple [f, a] → False) (ht : t.abstraction? = none) :
    t.applications = 0 := by
  unfold applications
  split
  · next f a => exact (h f a rfl).elim
  · next s x body =>
    split
    · next hs => simp [abstraction?, hs] at ht
    · rfl
  · rfl

end ProofSearch.Term
