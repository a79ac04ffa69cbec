import ProofSearch.Proofs.Term.Subst

/-!
# Renamings

A renaming takes variables to variables and symbols to symbols, no two of them to the same. Nothing that
is read off a term depends on its names: the size, what stands in it, which terms are equal, and what a
partial assignment of values makes of it (`subst?_rename`), when the values
are renamed as well.
-/

namespace ProofSearch

structure Renaming where
  var : Var → Var
  sym : Sym → Sym
  var_injective : Function.Injective var
  sym_injective : Function.Injective sym

namespace Term
variable {ρ : Renaming} {t u : Term} {ts us : List Term}

mutual
def rename (ρ : Renaming) : Term → Term
  | var v => var (ρ.var v)
  | sym c => sym (ρ.sym c)
  | tuple ts => tuple (renameAll ρ ts)
def renameAll (ρ : Renaming) : List Term → List Term
  | [] => []
  | t :: ts => t.rename ρ :: renameAll ρ ts
end

theorem renameAll_eq (ρ : Renaming) (ts : List Term) : renameAll ρ ts = ts.map (rename ρ) := by
  induction ts with
  | nil => rfl
  | cons t ts ih => rw [renameAll, ih, List.map_cons]

@[simp] theorem rename_var (ρ : Renaming) (v : Var) : (var v).rename ρ = var (ρ.var v) := rfl

@[simp] theorem rename_sym (ρ : Renaming) (c : Sym) : (sym c).rename ρ = sym (ρ.sym c) := rfl

@[simp] theorem rename_tuple (ρ : Renaming) (ts : List Term) :
    (tuple ts).rename ρ = tuple (ts.map (rename ρ)) := congrArg tuple (renameAll_eq ρ ts)

theorem rename_injective (ρ : Renaming) : Function.Injective (rename ρ) := by
  intro t
  induction t using Term.induction with
  | var v =>
    intro u h
    cases u with
    | var w => exact congrArg var (ρ.var_injective (var.inj h))
    | sym d => cases h
    | tuple us => rw [rename_tuple] at h; cases h
  | sym c =>
    intro u h
    cases u with
    | var w => cases h
    | sym d => exact congrArg sym (ρ.sym_injective (sym.inj h))
    | tuple us => rw [rename_tuple] at h; cases h
  | tuple ts ih =>
    intro u h
    cases u with
    | var w => rw [rename_tuple] at h; cases h
    | sym d => rw [rename_tuple] at h; cases h
    | tuple us =>
      rw [rename_tuple, rename_tuple, tuple.injEq] at h
      congr 1
      induction ts generalizing us with
      | nil => exact (List.map_eq_nil_iff.1 h.symm).symm
      | cons t ts iht =>
        cases us with
        | nil => cases h
        | cons u us =>
          obtain ⟨hhead, htail⟩ := List.cons.inj h
          obtain ⟨ht, hts⟩ := List.forall_mem_cons.1 ih
          rw [ht hhead, iht hts us htail]

theorem rename_inj : t.rename ρ = u.rename ρ ↔ t = u := (rename_injective ρ).eq_iff

@[simp] theorem size_rename (ρ : Renaming) (t : Term) : (t.rename ρ).size = t.size := by
  induction t using Term.induction with
  | var v => rfl
  | sym c => rfl
  | tuple ts ih =>
    rw [rename_tuple, size_tuple, size_tuple, List.map_map]
    exact congrArg (·.sum + 1) (List.map_congr_left ih)

theorem contains_rename (ρ : Renaming) (t u : Term) :
    (t.rename ρ).contains (u.rename ρ) = t.contains u := by
  have head : ∀ x : Term, decide (x.rename ρ = u.rename ρ) = decide (x = u) := fun x =>
    decide_eq_decide.2 rename_inj
  induction t using Term.induction with
  | var v => exact head (var v)
  | sym c => exact head (sym c)
  | tuple ts ih =>
    have parts : (ts.map (rename ρ)).any (·.contains (u.rename ρ)) = ts.any (·.contains u) := by
      rw [List.any_map, Bool.eq_iff_iff, List.any_eq_true, List.any_eq_true]
      exact exists_congr fun t => and_congr_right fun ht => by rw [Function.comp_apply, ih t ht]
    rw [rename_tuple, contains, contains, ← rename_tuple, head, containsAll_eq, containsAll_eq, parts]

/-- A value is found for the renamed term where one is found for the term, and it is the renamed one. -/
theorem subst?_rename {p q : Var → Option Term} (h : ∀ v, q (ρ.var v) = (p v).map (rename ρ)) (t : Term) :
    (t.rename ρ).subst? q = (t.subst? p).map (rename ρ) := by
  induction t using Term.induction with
  | var v => exact h v
  | sym c => rfl
  | tuple ts ih =>
    have all : substAll? q (ts.map (rename ρ)) = (substAll? p ts).map (List.map (rename ρ)) := by
      induction ts with
      | nil => rfl
      | cons t ts iht =>
        obtain ⟨ht, hts⟩ := List.forall_mem_cons.1 ih
        rw [List.map_cons, substAll?, substAll?, ht]
        cases t.subst? p with
        | none => rfl
        | some u =>
          show (substAll? q _).map _ = _
          rw [iht hts]
          cases substAll? p ts <;> rfl
    rw [rename_tuple, subst?, subst?, all]
    cases substAll? p ts with
    | none => rfl
    | some us => exact congrArg some (rename_tuple ρ us).symm

mutual
/-- Every occurrence of a symbol, from left to right. -/
def syms : Term → List Sym
  | var _ => []
  | sym c => [c]
  | tuple ts => symsAll ts
def symsAll : List Term → List Sym
  | [] => []
  | t :: ts => t.syms ++ symsAll ts
end

theorem symsAll_eq (ts : List Term) : symsAll ts = ts.flatMap syms := by
  induction ts with
  | nil => rfl
  | cons t ts ih => simp [symsAll, ih]

theorem mem_syms_tuple {c : Sym} : c ∈ (tuple ts).syms ↔ ∃ t ∈ ts, c ∈ t.syms := by
  rw [syms, symsAll_eq, List.mem_flatMap]

/-- Where the symbols in the term keep their names, a renaming of what is put in place of the variables is
all there is to do. -/
theorem rename_subst_of_syms {f g : Var → Term} (hsym : ∀ c ∈ t.syms, ρ.sym c = c)
    (h : ∀ v ∈ t.vars, (f v).rename ρ = g v) : (t.subst f).rename ρ = t.subst g := by
  induction t using Term.induction with
  | var v => exact h v (by simp)
  | sym c => exact congrArg sym (hsym c (List.mem_singleton_self c))
  | tuple ts ih =>
    rw [subst_tuple, rename_tuple, subst_tuple, List.map_map]
    refine congrArg tuple (List.map_congr_left fun t ht => ih t ht (fun c hc => ?_) fun v hv => h v ?_)
    · exact hsym c (mem_syms_tuple.2 ⟨t, ht, hc⟩)
    · exact mem_vars_tuple.2 ⟨t, ht, hv⟩

theorem rename_subst {f g : Var → Term} (hsym : ∀ c, ρ.sym c = c)
    (h : ∀ v ∈ t.vars, (f v).rename ρ = g v) : (t.subst f).rename ρ = t.subst g :=
  rename_subst_of_syms (fun c _ => hsym c) h

theorem rename_eq_subst_of_syms (hsym : ∀ c ∈ t.syms, ρ.sym c = c) :
    t.rename ρ = t.subst fun v => var (ρ.var v) := by
  have h := rename_subst_of_syms (f := var) hsym fun v _ => rfl
  rwa [subst_id] at h

theorem rename_eq_subst (hsym : ∀ c, ρ.sym c = c) (t : Term) :
    t.rename ρ = t.subst fun v => var (ρ.var v) :=
  rename_eq_subst_of_syms fun c _ => hsym c

/-- Putting renamed values in place of the renamed variables renames the outcome. -/
theorem subst_rename {f g : Var → Term} (h : ∀ v, g (ρ.var v) = (f v).rename ρ) (t : Term) :
    (t.rename ρ).subst g = (t.subst f).rename ρ := by
  induction t using Term.induction with
  | var v => exact h v
  | sym c => rfl
  | tuple ts ih =>
    rw [rename_tuple, subst_tuple, subst_tuple, rename_tuple, List.map_map, List.map_map]
    exact congrArg tuple (List.map_congr_left ih)

/-- A renamed term tells what its variables are called. -/
theorem var_eq_of_rename_eq {ρ' : Renaming} (h : t.rename ρ = t.rename ρ') :
    ∀ v ∈ t.vars, ρ.var v = ρ'.var v := by
  induction t using Term.induction with
  | var w =>
    intro v hv
    rw [vars_var, List.mem_singleton] at hv
    exact hv ▸ var.inj h
  | sym c => intro v hv; simp at hv
  | tuple ts ih =>
    intro v hv
    obtain ⟨t, ht, hv⟩ := mem_vars_tuple.1 hv
    rw [rename_tuple, rename_tuple, tuple.injEq, List.map_inj_left] at h
    exact ih t ht (h t ht) v hv

/-- And what its symbols are called. -/
theorem sym_eq_of_rename_eq {ρ' : Renaming} (h : t.rename ρ = t.rename ρ') :
    ∀ c ∈ t.syms, ρ.sym c = ρ'.sym c := by
  induction t using Term.induction with
  | var v => intro c hc; cases hc
  | sym d =>
    intro c hc
    obtain rfl := List.mem_singleton.1 hc
    exact sym.inj h
  | tuple ts ih =>
    intro c hc
    obtain ⟨t, ht, hc⟩ := mem_syms_tuple.1 hc
    rw [rename_tuple, rename_tuple, tuple.injEq, List.map_inj_left] at h
    exact ih t ht (h t ht) c hc

theorem sym_mem_syms_rename {c : Sym} (h : c ∈ t.syms) : ρ.sym c ∈ (t.rename ρ).syms := by
  induction t using Term.induction with
  | var v => cases h
  | sym d =>
    obtain rfl := List.mem_singleton.1 h
    exact List.mem_singleton_self _
  | tuple ts ih =>
    obtain ⟨t, ht, hc⟩ := mem_syms_tuple.1 h
    rw [rename_tuple]
    exact mem_syms_tuple.2 ⟨_, List.mem_map_of_mem ht, ih t ht hc⟩

theorem rename_eq_self (hsym : ∀ c ∈ t.syms, ρ.sym c = c) (hvar : ∀ v ∈ t.vars, ρ.var v = v) :
    t.rename ρ = t := by
  have h := rename_subst_of_syms (f := var) (g := var) hsym fun v hv => congrArg var (hvar v hv)
  rwa [subst_id] at h

end Term
end ProofSearch
