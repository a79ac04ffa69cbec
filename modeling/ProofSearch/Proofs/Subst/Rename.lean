import ProofSearch.Proofs.Term.Rename
import ProofSearch.Subst.Unify

/-!
# Renamed substitutions

Reading, walking and unifying do with renamed terms, under renamed bindings, what they do with the terms
themselves, and end in the same refusals (`unify_rename`). Cycles are no exception: nothing is asked of the
bindings.
-/

namespace ProofSearch.Subst
variable {ρ : Renaming}

/-- Every name in the bindings is renamed. -/
def rename (ρ : Renaming) (s : Subst) : Subst := ⟨s.bindings.map fun b => (ρ.var b.1, b.2.rename ρ)⟩

@[simp] theorem length_bindings_rename (ρ : Renaming) (s : Subst) :
    (s.rename ρ).bindings.length = s.bindings.length := List.length_map _

theorem rename_bind (ρ : Renaming) (s : Subst) (v : Var) (t : Term) :
    (s.bind v t).rename ρ = (s.rename ρ).bind (ρ.var v) (t.rename ρ) := rfl

@[simp] theorem size_rename (ρ : Renaming) (s : Subst) : (s.rename ρ).size = s.size := by
  obtain ⟨bs⟩ := s
  induction bs with
  | nil => rfl
  | cons b bs ih =>
    show (b.2.rename ρ).size + 1 + (rename ρ ⟨bs⟩).size = b.2.size + 1 + size ⟨bs⟩
    rw [Term.size_rename, ih]

theorem get?_rename (ρ : Renaming) (s : Subst) (v : Var) :
    (s.rename ρ).get? (ρ.var v) = (s.get? v).map (Term.rename ρ) := by
  obtain ⟨bs⟩ := s
  induction bs with
  | nil => rfl
  | cons b bs ih =>
    show (((mk bs).bind b.1 b.2).rename ρ).get? _ = (((mk bs).bind b.1 b.2).get? v).map _
    simp only [rename_bind, get?_bind, ρ.var_injective.eq_iff, ih]
    split <;> rfl

/-! ### Reading -/

theorem resolveWithin_rename (ρ : Renaming) (s : Subst) (n : Nat) (v : Var) :
    (s.rename ρ).resolveWithin n (ρ.var v) = (s.resolveWithin n v).map (Term.rename ρ) := by
  induction n generalizing v with
  | zero =>
    rw [resolveWithin, resolveWithin, get?_rename, Option.isSome_map]
    split <;> rfl
  | succ n ih =>
    rw [resolveWithin, resolveWithin, get?_rename]
    cases s.get? v with
    | none => rfl
    | some t => exact Term.subst?_rename ih t

theorem resolve?_rename (ρ : Renaming) (s : Subst) (v : Var) :
    (s.rename ρ).resolve? (ρ.var v) = (s.resolve? v).map (Term.rename ρ) := by
  rw [resolve?, resolve?, length_bindings_rename, resolveWithin_rename]

theorem instantiate?_rename (ρ : Renaming) (s : Subst) (t : Term) :
    (s.rename ρ).instantiate? (t.rename ρ) = (s.instantiate? t).map (Term.rename ρ) :=
  Term.subst?_rename (resolve?_rename ρ s) t

theorem walkWithin_rename (ρ : Renaming) (s : Subst) (n : Nat) (t : Term) :
    (s.rename ρ).walkWithin n (t.rename ρ) = (s.walkWithin n t).map (Term.rename ρ) := by
  induction n generalizing t with
  | zero =>
    cases t with
    | var v =>
      rw [Term.rename_var, walkWithin, walkWithin, get?_rename, Option.isSome_map]
      split <;> rfl
    | sym c => rfl
    | tuple ts => simp [walkWithin]
  | succ n ih =>
    cases t with
    | var v =>
      rw [Term.rename_var, walkWithin, walkWithin, get?_rename]
      cases s.get? v with
      | none => rfl
      | some t => exact ih t
    | sym c => rfl
    | tuple ts => simp [walkWithin]

theorem walk?_rename (ρ : Renaming) (s : Subst) (t : Term) :
    (s.rename ρ).walk? (t.rename ρ) = (s.walk? t).map (Term.rename ρ) := by
  rw [walk?, walk?, length_bindings_rename, walkWithin_rename]

/-! ### Unifying -/

theorem assign_rename (ρ : Renaming) (s : Subst) (v : Var) (t : Term) :
    (s.rename ρ).assign (ρ.var v) (t.rename ρ) = (s.assign v t).map (rename ρ) := by
  rw [assign, assign, instantiate?_rename]
  cases s.instantiate? t with
  | none => rfl
  | some u =>
    show (if (u.rename ρ).contains (Term.rename ρ (.var v)) then _ else _) =
      Except.map _ (if u.contains (.var v) then _ else _)
    rw [Term.contains_rename]
    split <;> rfl

theorem foldlM_rename {run : Subst → Term × Term → Except Refusal Subst}
    (hrun : ∀ s e, run (s.rename ρ) (e.1.rename ρ, e.2.rename ρ) = (run s e).map (rename ρ)) (s : Subst)
    (es : List (Term × Term)) :
    (es.map fun e => (e.1.rename ρ, e.2.rename ρ)).foldlM run (s.rename ρ) =
      (es.foldlM run s).map (rename ρ) := by
  induction es generalizing s with
  | nil => rfl
  | cons e es ih =>
    rw [List.map_cons, List.foldlM_cons, List.foldlM_cons, hrun]
    cases run s e with
    | ok r => exact ih r
    | error x => rfl

theorem unifyWithin_rename (ρ : Renaming) (n : Nat) (s : Subst) (t u : Term) :
    unifyWithin n (s.rename ρ) (t.rename ρ) (u.rename ρ) = (unifyWithin n s t u).map (rename ρ) := by
  induction n generalizing s t u with
  | zero => rfl
  | succ n ih =>
    simp only [unifyWithin, walk?_rename]
    cases s.walk? t with
    | none => rfl
    | some t =>
      cases s.walk? u with
      | none => rfl
      | some u =>
        show (if t.rename ρ = u.rename ρ then _ else _) = Except.map _ (if t = u then _ else _)
        simp only [Term.rename_inj]
        split
        · rfl
        · cases t with
          | var v => exact assign_rename ρ s v u
          | sym c =>
            cases u with
            | var w => exact assign_rename ρ s w (.sym c)
            | sym d => rfl
            | tuple us => simp; rfl
          | tuple ts =>
            cases u with
            | var w => exact assign_rename ρ s w (.tuple ts)
            | sym d => simp; rfl
            | tuple us =>
              simp only [Term.rename_tuple, List.length_map]
              split
              · rw [List.zip_map]
                exact foldlM_rename (fun s e => ih s e.1 e.2) s _
              · rfl

/-- Unification does not depend on names. -/
theorem unify_rename (ρ : Renaming) (s : Subst) (t u : Term) :
    (s.rename ρ).unify (t.rename ρ) (u.rename ρ) = (s.unify t u).map (rename ρ) := by
  simp only [unify, size_rename, Term.size_rename]
  exact unifyWithin_rename ρ _ s t u

end ProofSearch.Subst
