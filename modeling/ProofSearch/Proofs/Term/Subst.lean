import Mathlib.Algebra.GroupWithZero.Nat
import Mathlib.Algebra.Order.BigOperators.Group.List
import Mathlib.Algebra.Order.Group.Nat
import Mathlib.Data.List.Forall2
import ProofSearch.Term.Judgment

/-!
# Substitution in terms

The two halves of a pair of functions are one function of the term, here: on a tuple each is a `map`,
a `flatMap` or an `any`. What is put in place of the variables a term has decides what the term becomes
(`subst_congr`), and a variable that stands properly inside a term is shorter than the term, whatever is
put in its place (`size_lt_size_subst`).
-/

namespace ProofSearch.Term
variable {f g : Var → Term} {p : Var → Option Term} {t u : Term} {ts us : List Term} {v w : Var}

@[simp] theorem vars_var (v : Var) : (var v).vars = [v] := rfl

@[simp] theorem vars_sym (s : Sym) : (sym s).vars = [] := rfl

@[simp] theorem vars_tuple (ts : List Term) : (tuple ts).vars = ts.flatMap vars := varsAll_eq ts

@[simp] theorem subst_var (f : Var → Term) (v : Var) : (var v).subst f = f v := rfl

@[simp] theorem subst_sym (f : Var → Term) (s : Sym) : (sym s).subst f = sym s := rfl

@[simp] theorem subst_tuple (f : Var → Term) (ts : List Term) :
    (tuple ts).subst f = tuple (ts.map (subst f)) := congrArg tuple (substAll_eq f ts)

@[simp] theorem size_tuple (ts : List Term) : (tuple ts).size = (ts.map size).sum + 1 := by
  show sizeAll ts + 1 = _
  induction ts with
  | nil => rfl
  | cons t ts ih => simp only [sizeAll, List.map_cons, List.sum_cons]; omega

theorem mem_vars_tuple : v ∈ (tuple ts).vars ↔ ∃ t ∈ ts, v ∈ t.vars := by
  rw [vars_tuple, List.mem_flatMap]

/-! ### Values decide -/

theorem subst_congr (h : ∀ v ∈ t.vars, f v = g v) : t.subst f = t.subst g := by
  induction t using Term.induction with
  | var v => exact h v (by simp)
  | sym s => rfl
  | tuple ts ih =>
    rw [subst_tuple, subst_tuple]
    refine congrArg tuple (List.map_congr_left fun t ht => ih t ht fun v hv => h v ?_)
    exact mem_vars_tuple.2 ⟨t, ht, hv⟩

@[simp] theorem subst_id (t : Term) : t.subst var = t := by
  induction t using Term.induction with
  | var v => rfl
  | sym s => rfl
  | tuple ts ih =>
    rw [subst_tuple]
    exact congrArg tuple ((List.map_congr_left ih).trans (List.map_id ts))

/-- Nothing is put in place where there is no variable. -/
theorem subst_eq_self (h : t.vars = []) (f : Var → Term) : t.subst f = t := by
  have heq : t.subst f = t.subst var := subst_congr fun v hv => by
    rw [h] at hv
    cases hv
  rw [heq, subst_id]

theorem subst_subst (f g : Var → Term) (t : Term) :
    (t.subst f).subst g = t.subst fun v => (f v).subst g := by
  induction t using Term.induction with
  | var v => rfl
  | sym s => rfl
  | tuple ts ih =>
    simp only [subst_tuple, List.map_map]
    exact congrArg tuple (List.map_congr_left ih)

theorem mem_vars_subst : w ∈ (t.subst f).vars ↔ ∃ v ∈ t.vars, w ∈ (f v).vars := by
  induction t using Term.induction with
  | var v => simp
  | sym s => simp
  | tuple ts ih =>
    rw [subst_tuple, mem_vars_tuple]
    constructor
    · rintro ⟨u, hu, hw⟩
      obtain ⟨t, ht, rfl⟩ := List.mem_map.1 hu
      obtain ⟨v, hv, hw⟩ := (ih t ht).1 hw
      exact ⟨v, mem_vars_tuple.2 ⟨t, ht, hv⟩, hw⟩
    · rintro ⟨v, hv, hw⟩
      obtain ⟨t, ht, hv⟩ := mem_vars_tuple.1 hv
      exact ⟨t.subst f, List.mem_map_of_mem ht, (ih t ht).2 ⟨v, hv, hw⟩⟩

/-- Two tuples become equal where they have equally many terms that become equal in pairs. -/
theorem subst_tuple_eq_iff : (tuple ts).subst f = (tuple us).subst g ↔
    ts.length = us.length ∧ ∀ e ∈ ts.zip us, e.1.subst f = e.2.subst g := by
  rw [subst_tuple, subst_tuple, tuple.injEq]
  induction ts generalizing us with
  | nil => cases us <;> simp
  | cons t ts ih =>
    cases us with
    | nil => simp
    | cons u us =>
      simp only [List.map_cons, List.cons.injEq, ih, List.length_cons, Nat.add_right_cancel_iff,
        List.zip_cons_cons, List.forall_mem_cons]
      exact and_left_comm

/-! ### Partial values -/

theorem substAll?_eq_some_iff :
    substAll? p ts = some us ↔ List.Forall₂ (fun t u => t.subst? p = some u) ts us := by
  induction ts generalizing us with
  | nil => cases us <;> simp [substAll?]
  | cons t ts ih =>
    rw [substAll?]
    cases ht : t.subst? p with
    | none => cases us <;> simp [ht]
    | some u =>
      cases us with
      | nil => simp
      | cons u' us => simp [ht, ih, and_comm]

theorem exists_of_forall₂ {R : Term → Term → Prop} (h : List.Forall₂ R ts us) (ht : t ∈ ts) :
    ∃ u, R t u := by
  induction h with
  | nil => cases ht
  | cons hR _ ih =>
    rcases List.mem_cons.1 ht with rfl | ht
    · exact ⟨_, hR⟩
    · exact ih ht

theorem subst?_tuple_eq_some_iff : (tuple ts).subst? p = some u ↔
    ∃ us, List.Forall₂ (fun t u => t.subst? p = some u) ts us ∧ tuple us = u := by
  rw [subst?, Option.map_eq_some_iff]
  exact exists_congr fun us => and_congr_left fun _ => substAll?_eq_some_iff

theorem subst?_eq_some (h : ∀ v ∈ t.vars, p v = some (f v)) : t.subst? p = some (t.subst f) := by
  induction t using Term.induction with
  | var v => exact h v (by simp)
  | sym s => rfl
  | tuple ts ih =>
    refine subst?_tuple_eq_some_iff.2 ⟨ts.map (subst f), ?_, (subst_tuple f ts).symm⟩
    rw [List.forall₂_map_right_iff, List.forall₂_same]
    exact fun t ht => ih t ht fun v hv => h v (mem_vars_tuple.2 ⟨t, ht, hv⟩)

theorem isSome_of_subst? (h : t.subst? p = some u) : ∀ v ∈ t.vars, (p v).isSome := by
  induction t using Term.induction generalizing u with
  | var v =>
    intro w hw
    rw [vars_var, List.mem_singleton] at hw
    exact hw ▸ Option.isSome_of_eq_some h
  | sym s => intro v hv; simp at hv
  | tuple ts ih =>
    intro v hv
    obtain ⟨t, ht, hv⟩ := mem_vars_tuple.1 hv
    obtain ⟨us, hus, -⟩ := subst?_tuple_eq_some_iff.1 h
    obtain ⟨u, hu⟩ := exists_of_forall₂ hus ht
    exact ih t ht hu v hv

theorem subst?_mono {q : Var → Option Term} (h : ∀ v u, p v = some u → q v = some u)
    (ht : t.subst? p = some u) : t.subst? q = some u := by
  have hp : ∀ v ∈ t.vars, p v = some ((p v).getD (var v)) := fun v hv => by
    obtain ⟨x, hx⟩ := Option.isSome_iff_exists.1 (isSome_of_subst? ht v hv)
    rw [hx, Option.getD_some]
  rw [subst?_eq_some fun v hv => h v _ (hp v hv), ← subst?_eq_some hp, ht]

/-! ### Occurrence and size -/

theorem contains_var : t.contains (var v) = true ↔ v ∈ t.vars := by
  induction t using Term.induction with
  | var w => simp [contains, eq_comm]
  | sym s => simp [contains]
  | tuple ts ih =>
    rw [mem_vars_tuple]
    simp only [contains, containsAll_eq, reduceCtorEq, decide_false, Bool.false_or, List.any_eq_true]
    exact exists_congr fun t => and_congr_right fun ht => ih t ht

theorem size_lt_size_tuple (h : t ∈ ts) : t.size < (tuple ts).size := by
  rw [size_tuple]
  exact Nat.lt_succ_of_le (List.le_sum_of_mem (List.mem_map_of_mem h))

theorem size_le_size_subst (h : v ∈ t.vars) : (f v).size ≤ (t.subst f).size := by
  induction t using Term.induction with
  | var w => rw [vars_var, List.mem_singleton] at h; rw [h]; exact Nat.le_refl _
  | sym s => simp at h
  | tuple ts ih =>
    obtain ⟨t, ht, hv⟩ := mem_vars_tuple.1 h
    rw [subst_tuple]
    exact Nat.le_trans (ih t ht hv) (Nat.le_of_lt (size_lt_size_tuple (List.mem_map_of_mem ht)))

theorem size_lt_size_subst (h : v ∈ t.vars) (ht : t ≠ var v) : (f v).size < (t.subst f).size := by
  cases t with
  | var w => rw [vars_var, List.mem_singleton] at h; exact absurd (congrArg var h.symm) ht
  | sym s => simp at h
  | tuple ts =>
    obtain ⟨t, ht, hv⟩ := mem_vars_tuple.1 h
    rw [subst_tuple]
    exact Nat.lt_of_le_of_lt (size_le_size_subst hv) (size_lt_size_tuple (List.mem_map_of_mem ht))

/-- Nothing put in place of a variable makes it equal to a term it stands properly inside. -/
theorem subst_ne_of_mem (h : v ∈ t.vars) (ht : t ≠ var v) : f v ≠ t.subst f := fun he =>
  absurd (size_lt_size_subst (f := f) h ht) (he ▸ Nat.lt_irrefl _)

end ProofSearch.Term
