import ProofSearch.Proofs.Fresh
import ProofSearch.Proofs.Subst.Endless
import ProofSearch.Proofs.Term.Variant

/-!
# Canonical forms

Where none of the names to be given stands in the term already, each variable is given its number once and
the name stays (`canonical?_eq`); the canonical form is the term renamed one to one. The number of a variable
is the place of its first occurrence among the variables, so renaming the term does not change the form
(`canonicalName_of_subst`), and the form tells a term up to the names of its variables (`canonical?_decides`).
-/

namespace ProofSearch

theorem Var.drawn_injective (stem : String) : Function.Injective (drawn stem) := fun i j h =>
  eq_of_endings (ending_suffix_drawn stem i) (h ▸ ending_suffix_drawn stem j)

namespace Term
variable {t u : Term} {v w : Var} {ρ : Var → Var}

/-- None of the names that the variables of the term are to get stands in it. -/
def Unnumbered (t : Term) : Prop := ∀ i, i < t.distinctVars.length → Var.drawn "" i ∉ t.vars

instance (t : Term) : Decidable t.Unnumbered :=
  inferInstanceAs (Decidable (∀ i, i < t.distinctVars.length → Var.drawn "" i ∉ t.vars))

def canonicalName (t : Term) (v : Var) : Var := Var.drawn "" (t.distinctVars.idxOf v)

theorem numbers_canonicalName (h : v ∈ t.vars) : t.Numbers v (t.canonicalName v) :=
  ⟨_, List.getElem?_idxOf (mem_distinctVars.2 h), rfl⟩

theorem canonicalName_injOn (t : Term) : Set.InjOn t.canonicalName {v | v ∈ t.vars} := fun _ hv _ _ h =>
  (List.idxOf_inj (mem_distinctVars.2 hv)).1 (Var.drawn_injective "" h)

theorem Unnumbered.canonicalName_notMem (ht : t.Unnumbered) (h : v ∈ t.vars) : t.canonicalName v ∉ t.vars :=
  ht _ (List.idxOf_lt_length_of_mem (mem_distinctVars.2 h))

/-- The names given have no names of their own to be replaced by. -/
theorem canonical?_eq (ht : t.Unnumbered) :
    t.canonical? = some (t.subst fun v => var (t.canonicalName v)) := by
  refine subst?_eq_some fun v hv => ?_
  rw [Subst.resolve?_of_get? (get?_canonicalNames.2 ⟨_, numbers_canonicalName hv, rfl⟩)]
  refine Subst.instantiate?_of_get?_none fun w hw => get?_canonicalNames_eq_none ?_
  rw [vars_var, List.mem_singleton] at hw
  exact hw ▸ ht.canonicalName_notMem hv

/-! ### Renaming the term -/

theorem vars_subst_var (ρ : Var → Var) (t : Term) : (t.subst fun v => var (ρ v)).vars = t.vars.map ρ := by
  induction t using Term.induction with
  | var v => rfl
  | sym c => rfl
  | tuple ts ih =>
    rw [subst_tuple, vars_tuple, vars_tuple, List.flatMap_map, List.map_flatMap]
    exact List.flatMap_congr ih

theorem distinctVars_subst (hρ : Set.InjOn ρ {v | v ∈ t.vars}) :
    (t.subst fun v => var (ρ v)).distinctVars = t.distinctVars.map ρ := by
  rw [distinctVars, vars_subst_var]
  exact eraseDups_map fun v hv w hw h => hρ hv hw h

theorem canonicalName_of_subst (hρ : Set.InjOn ρ {v | v ∈ t.vars}) (hv : v ∈ t.vars) :
    (t.subst fun v => var (ρ v)).canonicalName (ρ v) = t.canonicalName v := by
  obtain ⟨i, hi, hname⟩ := numbers_canonicalName hv
  have hρv : ρ v ∈ (t.subst fun v => var (ρ v)).vars := by
    rw [vars_subst_var]
    exact List.mem_map_of_mem hv
  refine (numbers_canonicalName hρv).eq ⟨i, ?_, hname⟩
  rw [distinctVars_subst hρ, List.getElem?_map, hi, Option.map_some]

/-- Terms in which none of the names to be given stands have canonical forms, which are the terms with their
variables renamed one to one; and the two forms are the same just where a one-to-one renaming between the
variables of the terms turns one term into the other. -/
theorem canonical?_decides (ht : t.Unnumbered) (hu : u.Unnumbered) :
    ∃ c d, t.canonical? = some c ∧ u.canonical? = some d ∧ c.VariantOf t ∧ d.VariantOf u ∧
      t.isVariant? u = some (decide (c = d)) ∧
      (c = d ↔ ∃ ρ : Var → Var, Set.BijOn ρ {v | v ∈ t.vars} {v | v ∈ u.vars} ∧
        u = t.subst fun v => var (ρ v)) := by
  have hc := canonical?_eq ht
  have hd := canonical?_eq hu
  have hct : (t.subst fun v => var (t.canonicalName v)).VariantOf t := ⟨_, t.canonicalName_injOn, rfl⟩
  have hdu : (u.subst fun v => var (u.canonicalName v)).VariantOf u := ⟨_, u.canonicalName_injOn, rfl⟩
  refine ⟨_, _, hc, hd, hct, hdu, by rw [isVariant?, hc, hd], ?_⟩
  rw [← variantOf_iff_bijOn]
  constructor
  · -- from the one term to the form that both have, and on to the other
    intro h
    obtain ⟨f, hf⟩ := hdu.exists_subst
    obtain ⟨g, hg⟩ := hct.exists_subst
    rw [← h, subst_subst] at hf
    rw [h, subst_subst] at hg
    exact variantOf_of_instances hf hg
  · rintro ⟨ρ, hρ, rfl⟩
    rw [subst_subst]
    exact subst_congr fun v hv => congrArg var (canonicalName_of_subst hρ hv).symm

/-- `(-> $x (L $_5) $x)`. -/
def listFunction : Term := arrow [ofText "$x", tuple [ofText "L", ofText "$_5"]] (ofText "$x")

/-- `(-> $_5 (L $x) $_5)`. -/
def exchanged : Term := arrow [ofText "$_5", tuple [ofText "L", ofText "$x"]] (ofText "$_5")

/-- The two variables have exchanged their names, one of them a number further on than the names given. -/
theorem canonical?_decides_exchanged : listFunction.Unnumbered ∧ exchanged.Unnumbered ∧
    listFunction.isVariant? exchanged = some true ∧
    ∃ ρ : Var → Var, Set.BijOn ρ {v | v ∈ listFunction.vars} {v | v ∈ exchanged.vars} ∧
      exchanged = listFunction.subst fun v => var (ρ v) := by
  have ht : listFunction.Unnumbered := by decide
  have hu : exchanged.Unnumbered := by decide
  have hsame : listFunction.isVariant? exchanged = some true := by decide
  obtain ⟨c, d, -, -, -, -, hvariant, hiff⟩ := canonical?_decides ht hu
  have hcd : c = d := of_decide_eq_true (Option.some.inj (hvariant.symm.trans hsame))
  exact ⟨ht, hu, hsame, hiff.1 hcd⟩

end Term
end ProofSearch
