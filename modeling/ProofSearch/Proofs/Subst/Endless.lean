import ProofSearch.Proofs.FirstOccurrence
import ProofSearch.Proofs.Subst.Acyclic
import ProofSearch.Term.Canonical

/-!
# Readings without end

Reading a term puts in place of each bound variable what the term bound to it reads as (`ReadsAs`); nothing
bounds the bindings visited there. It ends just where no variable of the term leads into a cycle, the term it
comes to has no bound variable, and reading that term changes nothing (`instantiate?_ends`). A term has a
canonical form, then, unless its names are numbered in a circle.
-/

namespace ProofSearch
open Relation (ReflTransGen TransGen)

namespace Subst
variable {s : Subst} {v w : Var} {t u : Term} {ts us : List Term}

/-- Reading `t` under `s` ends, and comes to `u`. -/
inductive ReadsAs (s : Subst) : Term → Term → Prop
  | free {v : Var} (hv : s.get? v = none) : ReadsAs s (.var v) (.var v)
  | bound {v : Var} {t u : Term} (hv : s.get? v = some t) (ht : ReadsAs s t u) : ReadsAs s (.var v) u
  | sym (c : Sym) : ReadsAs s (.sym c) (.sym c)
  | tuple {ts us : List Term} (hlen : ts.length = us.length)
      (hts : ∀ e ∈ ts.zip us, ReadsAs s e.1 e.2) : ReadsAs s (.tuple ts) (.tuple us)

/-! ### The program and the reading -/

theorem instantiate?_tuple_eq_some_iff : s.instantiate? (.tuple ts) = some u ↔
    ∃ us, ts.length = us.length ∧ (∀ e ∈ ts.zip us, s.instantiate? e.1 = some e.2) ∧ .tuple us = u := by
  rw [instantiate?, Term.subst?_tuple_eq_some_iff]
  simp only [List.forall₂_iff_zip, and_assoc, Prod.forall, instantiate?]

theorem readsAs_of_vars (hvars : ∀ v ∈ t.vars, ∀ x, s.resolve? v = some x → s.ReadsAs (.var v) x)
    (h : s.instantiate? t = some u) : s.ReadsAs t u := by
  induction t using Term.induction generalizing u with
  | var v => exact hvars v (by simp) u h
  | sym c =>
    obtain rfl := Option.some.inj h
    exact .sym c
  | tuple ts ih =>
    obtain ⟨us, hlen, hts, rfl⟩ := instantiate?_tuple_eq_some_iff.1 h
    refine .tuple hlen fun e he => ?_
    have hmem : e.1 ∈ ts := (List.of_mem_zip he).1
    exact ih e.1 hmem (fun v hv => hvars v (Term.mem_vars_tuple.2 ⟨e.1, hmem, hv⟩)) (hts e he)

theorem readsAs_of_resolve? (h : s.resolve? v = some u) : s.ReadsAs (.var v) u := by
  refine induction_of_resolve? (P := fun v => ∀ u, s.resolve? v = some u → s.ReadsAs (.var v) u)
    (fun v ih u hu => ?_) (Option.isSome_of_eq_some h) u h
  cases hv : s.get? v with
  | none =>
    obtain rfl := Option.some.inj ((resolve?_of_get?_none hv).symm.trans hu)
    exact .free hv
  | some t =>
    rw [resolve?_of_get? hv] at hu
    exact .bound hv (readsAs_of_vars (fun w hw => ih w ⟨t, hv, hw⟩) hu)

theorem ReadsAs.instantiate?_eq (h : s.ReadsAs t u) : s.instantiate? t = some u := by
  induction h with
  | free hv => exact resolve?_of_get?_none hv
  | bound hv _ ih => exact (resolve?_of_get? hv).trans ih
  | sym c => rfl
  | tuple hlen _ ih => exact instantiate?_tuple_eq_some_iff.2 ⟨_, hlen, ih, rfl⟩

theorem instantiate?_eq_some_iff : s.instantiate? t = some u ↔ s.ReadsAs t u :=
  ⟨readsAs_of_vars fun _ _ _ => readsAs_of_resolve?, ReadsAs.instantiate?_eq⟩

/-! ### Where it ends and what it comes to -/

theorem instantiate?_eq_none_iff : s.instantiate? t = none ↔ ∃ v ∈ t.vars, s.Circles v := by
  rw [← Option.not_isSome_iff_eq_none, ← not_iff_not, not_not]
  simp only [not_exists, not_and, ← isSome_resolve?_iff]
  constructor
  · intro h
    obtain ⟨u, hu⟩ := Option.isSome_iff_exists.1 h
    exact Term.isSome_of_subst? hu
  · intro h
    have hvalue : ∀ v ∈ t.vars, s.resolve? v = some (s.value v) := fun v hv => by
      obtain ⟨x, hx⟩ := Option.isSome_iff_exists.1 (h v hv)
      rw [value, hx, Option.getD_some]
    exact Option.isSome_of_eq_some (Term.subst?_eq_some hvalue)

theorem ReadsAs.get?_eq_none (h : s.ReadsAs t u) : ∀ v ∈ u.vars, s.get? v = none := by
  induction h with
  | free hv =>
    intro w hw
    rw [Term.vars_var, List.mem_singleton] at hw
    exact hw ▸ hv
  | bound _ _ ih => exact ih
  | sym c => exact fun v hv => absurd hv List.not_mem_nil
  | @tuple ts us hlen _ ih =>
    intro v hv
    obtain ⟨u, hu, hv⟩ := Term.mem_vars_tuple.1 hv
    obtain ⟨i, hi, rfl⟩ := List.getElem_of_mem hu
    have hpair : (ts[i], us[i]) ∈ ts.zip us := List.mem_iff_getElem.2 ⟨i, by simp [hlen, hi], by simp⟩
    exact ih _ hpair v hv

theorem instantiate?_of_get?_none (h : ∀ v ∈ t.vars, s.get? v = none) : s.instantiate? t = some t := by
  rw [instantiate?, Term.subst?_eq_some fun v hv => resolve?_of_get?_none (h v hv), Term.subst_id]

end Subst

/-! ### Canonical names -/

namespace Term
variable {t u : Term} {v w : Var}

theorem nodup_distinctVars (t : Term) : t.distinctVars.Nodup := nodup_eraseDups t.vars

theorem mem_distinctVars : v ∈ t.distinctVars ↔ v ∈ t.vars := List.mem_eraseDups

/-- `w` has the number of `v` among the variables of the term. -/
def Numbers (t : Term) (v w : Var) : Prop := ∃ i, t.distinctVars[i]? = some v ∧ w = Var.drawn "" i

theorem Numbers.mem_vars (h : t.Numbers v w) : v ∈ t.vars :=
  let ⟨_, hi, _⟩ := h
  mem_distinctVars.1 (List.mem_of_getElem? hi)

theorem Numbers.eq {w' : Var} (h : t.Numbers v w) (h' : t.Numbers v w') : w = w' := by
  obtain ⟨i, hi, rfl⟩ := h
  obtain ⟨j, hj, rfl⟩ := h'
  have hlt : i < t.distinctVars.length := (List.getElem?_eq_some_iff.1 hi).1
  rw [(List.getElem?_inj hlt t.nodup_distinctVars).1 (hi.trans hj.symm)]

theorem mem_bindings_canonicalNames :
    (v, u) ∈ t.canonicalNames.bindings ↔ ∃ w, t.Numbers v w ∧ u = var w := by
  simp only [canonicalNames, List.mem_map, Prod.exists, List.mem_zipIdx_iff_getElem?, Prod.mk.injEq, Numbers]
  constructor
  · rintro ⟨_, i, hi, rfl, rfl⟩
    exact ⟨_, ⟨i, hi, rfl⟩, rfl⟩
  · rintro ⟨_, ⟨i, hi, rfl⟩, rfl⟩
    exact ⟨v, i, hi, rfl, rfl⟩

theorem get?_canonicalNames : t.canonicalNames.get? v = some u ↔ ∃ w, t.Numbers v w ∧ u = var w := by
  refine ⟨fun h => mem_bindings_canonicalNames.1 (Subst.mem_bindings_of_get? h), ?_⟩
  rintro ⟨w, hw, rfl⟩
  have hmem : (v, var w) ∈ t.canonicalNames.bindings := mem_bindings_canonicalNames.2 ⟨w, hw, rfl⟩
  cases hv : t.canonicalNames.get? v with
  | none =>
    have hne := List.lookup_eq_none_iff.1 hv _ hmem
    simp at hne
  | some u' =>
    obtain ⟨w', hw', rfl⟩ := mem_bindings_canonicalNames.1 (Subst.mem_bindings_of_get? hv)
    rw [hw.eq hw']

theorem get?_canonicalNames_eq_none (h : v ∉ t.vars) : t.canonicalNames.get? v = none := by
  refine Option.eq_none_iff_forall_not_mem.2 fun u hu => h ?_
  obtain ⟨w, hw, -⟩ := get?_canonicalNames.1 hu
  exact hw.mem_vars

theorem leads_canonicalNames : t.canonicalNames.Leads v w ↔ t.Numbers v w := by
  constructor
  · rintro ⟨u, hu, hw⟩
    obtain ⟨x, hx, rfl⟩ := get?_canonicalNames.1 hu
    rw [vars_var, List.mem_singleton] at hw
    exact hw ▸ hx
  · exact fun h => ⟨_, get?_canonicalNames.2 ⟨w, h, rfl⟩, List.mem_singleton_self w⟩

theorem canonical?_eq_none_iff : t.canonical? = none ↔ ∃ v, TransGen t.Numbers v v := by
  have hleads : t.canonicalNames.Leads = t.Numbers := funext₂ fun v w => propext leads_canonicalNames
  rw [canonical?, Subst.instantiate?_eq_none_iff, ← hleads]
  constructor
  · rintro ⟨_, _, w, _, hw⟩
    exact ⟨w, hw⟩
  · rintro ⟨v, hv⟩
    obtain ⟨x, hx, _⟩ := TransGen.head'_iff.1 hv
    exact ⟨v, (leads_canonicalNames.1 hx).mem_vars, v, .refl, hv⟩

end Term

/-- Reading a term under bindings that are followed to their ends comes to a term or has no end: it has none
just where a variable that leads back to itself can be reached from the term. What it comes to has no bound
variable and is read as itself. A term has no canonical form just where numbering its variables leads from
one of them back to it. -/
theorem Subst.instantiate?_ends (s : Subst) :
    (∀ t u, s.instantiate? t = some u ↔ s.ReadsAs t u) ∧
    (∀ t, s.instantiate? t = none ↔
      ∃ v ∈ t.vars, ∃ w, ReflTransGen s.Leads v w ∧ TransGen s.Leads w w) ∧
    (∀ t u, s.instantiate? t = some u → (∀ v ∈ u.vars, s.get? v = none) ∧ s.instantiate? u = some u) ∧
    ∀ t : Term, t.canonical? = none ↔ ∃ v, TransGen t.Numbers v v := by
  refine ⟨fun _ _ => instantiate?_eq_some_iff, fun _ => instantiate?_eq_none_iff, fun t u h => ?_,
    fun _ => Term.canonical?_eq_none_iff⟩
  have hfree := (instantiate?_eq_some_iff.1 h).get?_eq_none
  exact ⟨hfree, instantiate?_of_get?_none hfree⟩

/-- The one variable is to get its own name, and goes on being replaced by it. -/
example : (Term.ofText "$_0").canonical? = none := by decide

end ProofSearch
