import Mathlib.Data.Set.Function
import ProofSearch.Proofs.Term.Subst

/-!
# Variants

Two terms that are instances of each other differ in the names of their variables only, and not in which of
these are the same (`variantOf_of_instances`): where a substitution is undone by another, all it puts in
place are variables, and they can be told apart. The renaming is then one between the variables of the one
term and those of the other (`variantOf_iff_bijOn`), and can be taken back (`VariantOf.exists_subst`).
-/

namespace ProofSearch.Term
variable {f g : Var → Term} {t u : Term} {v : Var}

/-- `u` is `t` with its variables renamed one to one. -/
def VariantOf (u t : Term) : Prop :=
  ∃ ρ : Var → Var, Set.InjOn ρ {v | v ∈ t.vars} ∧ u = t.subst fun v => var (ρ v)

/-- A term tells what is put in place of each of its variables. -/
theorem eq_of_subst_eq (h : t.subst f = t.subst g) : ∀ v ∈ t.vars, f v = g v := by
  induction t using Term.induction with
  | var w =>
    intro v hv
    rw [vars_var, List.mem_singleton] at hv
    exact hv ▸ h
  | sym c => intro v hv; simp at hv
  | tuple ts ih =>
    intro v hv
    obtain ⟨t, ht, hv⟩ := mem_vars_tuple.1 hv
    rw [subst_tuple, subst_tuple, tuple.injEq, List.map_inj_left] at h
    exact ih t ht (h t ht) v hv

theorem exists_var_of_subst_eq_var (h : t.subst f = var v) : ∃ w, t = var w ∧ f w = var v := by
  cases t with
  | var w => exact ⟨w, rfl, h⟩
  | sym c => cases h
  | tuple ts => rw [subst_tuple] at h; cases h

theorem variantOf_of_instances (hu : u = t.subst f) (ht : t = u.subst g) : u.VariantOf t := by
  have back : ∀ v ∈ t.vars, (f v).subst g = var v := by
    refine eq_of_subst_eq (f := fun v => (f v).subst g) ?_
    rw [← subst_subst, ← hu, ← ht, subst_id]
  -- what stands for a variable of `t` comes back to it, so it is a variable itself
  choose! ρ hf hg using fun v hv => exists_var_of_subst_eq_var (back v hv)
  refine ⟨ρ, fun v hv w hw he => ?_, hu.trans (subst_congr hf)⟩
  exact var.inj ((hg v hv).symm.trans ((congrArg g he).trans (hg w hw)))

theorem VariantOf.exists_subst (h : u.VariantOf t) : ∃ g, t = u.subst g := by
  obtain ⟨ρ, hρ, rfl⟩ := h
  by_cases ht : t.vars = []
  · exact ⟨var, by rw [subst_id, subst_eq_self ht]⟩
  obtain ⟨v₀, _⟩ := List.exists_mem_of_ne_nil _ ht
  have : Nonempty Var := ⟨v₀⟩
  refine ⟨fun w => var (Function.invFunOn ρ {v | v ∈ t.vars} w), ?_⟩
  rw [subst_subst]
  refine ((subst_congr fun v hv => ?_).trans t.subst_id).symm
  exact congrArg var (hρ.leftInvOn_invFunOn hv)

theorem variantOf_iff_bijOn : u.VariantOf t ↔
    ∃ ρ : Var → Var, Set.BijOn ρ {v | v ∈ t.vars} {v | v ∈ u.vars} ∧ u = t.subst fun v => var (ρ v) := by
  constructor
  · rintro ⟨ρ, hρ, rfl⟩
    refine ⟨ρ, ⟨fun v hv => mem_vars_subst.2 ⟨v, hv, by simp⟩, hρ, fun w hw => ?_⟩, rfl⟩
    obtain ⟨v, hv, hw⟩ := mem_vars_subst.1 hw
    exact ⟨v, hv, (List.mem_singleton.1 hw).symm⟩
  · rintro ⟨ρ, hρ, hu⟩
    exact ⟨ρ, hρ.injOn, hu⟩

end ProofSearch.Term
