import Mathlib.Logic.Function.Basic
import ProofSearch.Proofs.Fresh
import ProofSearch.Proofs.Subst.MostGeneral
import ProofSearch.Proofs.Term.Rename

/-!
# Overlapping terms

Two terms overlap when some instance of one is an instance of the other, each with values of its own for its
variables. Unification tells whether they do once the variables of one have been renamed by a number that
ends none of the other's (`exists_unify_tag_iff`); so which names a stored judgment is written with has no
part in whether it is found. The names of the variables have no part in it at all, and those of the symbols only
where one of the two is renamed and the other is not (`overlaps_rename_iff`).
-/

namespace ProofSearch
variable {n : Nat} {t u : Term}

namespace Term

/-- Some instance of one is an instance of the other. -/
def Overlaps (t u : Term) : Prop := ∃ f g : Var → Term, t.subst f = u.subst g

theorem Overlaps.refl (t : Term) : t.Overlaps t := ⟨var, var, rfl⟩

theorem Overlaps.symm (h : t.Overlaps u) : u.Overlaps t :=
  let ⟨f, g, h⟩ := h
  ⟨g, f, h.symm⟩

/-- A term with no variable of that draw is unified with a renamed one just when they overlap. -/
theorem exists_unify_tag_iff (ht : ∀ v : Var, v.tag (ending n) ∉ t.vars) :
    (∃ r, Subst.empty.unify t (u.tag (ending n)) = .ok r) ↔ t.Overlaps u := by
  constructor
  · rintro ⟨r, hr⟩
    have hu := Subst.unified_of_unify Subst.acyclic_empty hr
    refine ⟨r.value, fun v => r.value (v.tag (ending n)), ?_⟩
    rw [hu.subst_eq hu.acyclic.solvedBy_value, tag, subst_subst]
    rfl
  · rintro ⟨f, g, he⟩
    -- the names of the draw stand for what the values of the second term are, all others keep theirs
    let h := Function.extend (Var.tag (ending n)) g f
    have hg : ∀ v : Var, h (v.tag (ending n)) = g v :=
      Function.Injective.extend_apply (fun _ _ => Var.tag_inj) g f
    have hf : t.subst h = t.subst f := subst_congr fun v hv =>
      Function.extend_apply' g f v fun ⟨w, hw⟩ => ht w (hw ▸ hv)
    refine Subst.exists_unify Subst.acyclic_empty (f := h) (fun _ _ hv => by cases hv) ?_
    rw [hf, he, tag, subst_subst]
    exact subst_congr fun v _ => (hg v).symm

theorem Settled.tag_notMem (h : t.Settled n) (v : Var) : v.tag (ending n) ∉ t.vars := fun hv =>
  h _ hv n (Nat.le_refl n) (Var.ending_suffix_tag n v)

/-! ### Names -/

/-- Nothing changes when the variables of one are renamed one to one. -/
theorem overlaps_subst_var {ρ : Var → Var} (hρ : Function.Injective ρ) :
    (t.subst fun v => var (ρ v)).Overlaps u ↔ t.Overlaps u := by
  constructor
  · rintro ⟨f, g, he⟩
    rw [subst_subst] at he
    exact ⟨_, g, he⟩
  · rintro ⟨f, g, he⟩
    refine ⟨Function.extend ρ f var, g, ?_⟩
    rw [subst_subst, ← he]
    exact subst_congr fun v _ => hρ.extend_apply f var v

/-- Whether two terms overlap is found out by giving the variables of each a number of their own. -/
instance (t u : Term) : Decidable (t.Overlaps u) :=
  have htag : ∀ v : Var, v.tag (ending 1) ∉ (t.tag (ending 0)).vars :=
    (settled_tag t Nat.zero_lt_one).tag_notMem
  match h : Subst.empty.unify (t.tag (ending 0)) (u.tag (ending 1)) with
  | .ok r => .isTrue ((overlaps_subst_var fun _ _ => Var.tag_inj).1 ((exists_unify_tag_iff htag).1 ⟨r, h⟩))
  | .error _ => .isFalse fun ho => by
    obtain ⟨r, hr⟩ := (exists_unify_tag_iff htag).2 ((overlaps_subst_var fun _ _ => Var.tag_inj).2 ho)
    rw [h] at hr
    cases hr

theorem Overlaps.rename (h : t.Overlaps u) (ρ : Renaming) : (t.rename ρ).Overlaps (u.rename ρ) := by
  obtain ⟨f, g, he⟩ := h
  have lift : ∀ (f : Var → Term) (t : Term),
      (t.rename ρ).subst (Function.extend ρ.var (fun v => (f v).rename ρ) var) = (t.subst f).rename ρ :=
    fun f => subst_rename fun v => ρ.var_injective.extend_apply _ _ v
  exact ⟨_, _, (lift f t).trans ((congrArg (Term.rename ρ) he).trans (lift g u).symm)⟩

/-- A term whose symbols keep their names overlaps with the same terms when it is renamed. -/
theorem overlaps_rename_iff {ρ : Renaming} (hsym : ∀ c ∈ t.syms, ρ.sym c = c) :
    (t.rename ρ).Overlaps u ↔ t.Overlaps u := by
  rw [rename_eq_subst_of_syms hsym]
  exact overlaps_subst_var ρ.var_injective

/-- So does any other with a term whose symbols do. -/
theorem Overlaps.rename_left {ρ : Renaming} (h : t.Overlaps u) (hsym : ∀ c ∈ u.syms, ρ.sym c = c) :
    (t.rename ρ).Overlaps u :=
  ((overlaps_rename_iff hsym).1 (h.rename ρ).symm).symm

end Term

/-- Some instance of one is an instance of the other. -/
def Judgment.Overlaps (i j : Judgment) : Prop := i.term.Overlaps j.term

instance (i j : Judgment) : Decidable (i.Overlaps j) := inferInstanceAs (Decidable (i.term.Overlaps j.term))

end ProofSearch
