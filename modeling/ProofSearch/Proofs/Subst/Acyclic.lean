import Mathlib.Data.Finset.Card
import Mathlib.Logic.Relation
import ProofSearch.Proofs.Term.Subst
import ProofSearch.Subst.Basic

/-!
# Substitutions without cycles

Reading a variable along its chains ends unless it comes to a variable that leads back to itself
(`isSome_resolve?_iff`), and always when there is none (`Acyclic.instantiate?_eq`). What a variable then
stands for (`value`) solves the bindings as equations, every other solution factors through it
(`SolvedBy.subst_value`), and a variable without a binding may be bound to any term that does not come to
hold it (`Acyclic.bind`).
-/

namespace ProofSearch.Subst
variable {s : Subst} {v w : Var} {t u : Term} {f : Var → Term} {m n : Nat}

/-- `w` stands in the term bound to `v`. -/
def Leads (s : Subst) (v w : Var) : Prop := ∃ t, s.get? v = some t ∧ w ∈ t.vars

def Acyclic (s : Subst) : Prop := ∀ v, ¬ Relation.TransGen s.Leads v v

/-- Reading the variable comes to one that leads back to itself. -/
def Circles (s : Subst) (v : Var) : Prop :=
  ∃ w, Relation.ReflTransGen s.Leads v w ∧ Relation.TransGen s.Leads w w

/-- Reading `t` under `s` comes to a term: it stands in `t`, or in the term bound to a variable that
reading comes to. -/
inductive Reaches (s : Subst) (t : Term) : Term → Prop
  | refl : Reaches s t t
  | part {ts : List Term} {u : Term} : Reaches s t (.tuple ts) → u ∈ ts → Reaches s t u
  | bound {v : Var} {u : Term} : Reaches s t (.var v) → s.get? v = some u → Reaches s t u

/-- What the variable stands for; itself where it leads into a cycle. -/
def value (s : Subst) (v : Var) : Term := (s.resolve? v).getD (.var v)

/-- Under `f` every variable becomes what the term bound to it becomes. -/
def SolvedBy (s : Subst) (f : Var → Term) : Prop := ∀ v t, s.get? v = some t → f v = t.subst f

/-- Every binding of `s` is one of `r`. -/
def Extends (r s : Subst) : Prop := ∀ v t, s.get? v = some t → r.get? v = some t

/-! ### Reading within a number of bindings -/

theorem resolveWithin_of_get?_none (hv : s.get? v = none) (n : Nat) :
    s.resolveWithin n v = some (.var v) := by
  cases n <;> simp [resolveWithin, hv]

theorem resolveWithin_zero_of_get? (hv : s.get? v = some t) : s.resolveWithin 0 v = none := by
  simp [resolveWithin, hv]

theorem resolveWithin_succ_of_get? (hv : s.get? v = some t) (n : Nat) :
    s.resolveWithin (n + 1) v = t.subst? (s.resolveWithin n) := by
  simp [resolveWithin, hv]

theorem resolveWithin_succ (h : s.resolveWithin n v = some t) : s.resolveWithin (n + 1) v = some t := by
  induction n generalizing v t with
  | zero =>
    cases hv : s.get? v with
    | none => rw [resolveWithin_of_get?_none hv] at h ⊢; exact h
    | some u => rw [resolveWithin_zero_of_get? hv] at h; cases h
  | succ n ih =>
    cases hv : s.get? v with
    | none => rw [resolveWithin_of_get?_none hv] at h ⊢; exact h
    | some u =>
      rw [resolveWithin_succ_of_get? hv] at h ⊢
      exact Term.subst?_mono (fun w x hx => ih hx) h

theorem resolveWithin_mono (h : s.resolveWithin n v = some t) (hm : n ≤ m) :
    s.resolveWithin m v = some t := by
  induction hm with
  | refl => exact h
  | step _ ih => exact resolveWithin_succ ih

/-! ### Where reading ends -/

theorem circles_iff : s.Circles v ↔ ∃ w, s.Leads v w ∧ s.Circles w := by
  constructor
  · rintro ⟨w, hvw, hw⟩
    rcases hvw.cases_head with rfl | ⟨x, hvx, hxw⟩
    · obtain ⟨x, hvx, hxv⟩ := Relation.TransGen.head'_iff.1 hw
      exact ⟨x, hvx, v, hxv, hw⟩
    · exact ⟨x, hvx, w, hxw, hw⟩
  · rintro ⟨x, hvx, w, hxw, hw⟩
    exact ⟨w, .head hvx hxw, hw⟩

theorem Acyclic.not_circles (hs : s.Acyclic) (v : Var) : ¬ s.Circles v := fun ⟨w, _, hw⟩ => hs w hw

/-- The bindings still to be visited are those of variables reached; each visit takes one away. -/
theorem isSome_resolveWithin (hv : ¬ s.Circles v) (n : Nat) (bound : Finset Var)
    (hb : ∀ w u, Relation.ReflTransGen s.Leads v w → s.get? w = some u → w ∈ bound)
    (hn : bound.card ≤ n) : (s.resolveWithin n v).isSome := by
  induction n generalizing v bound with
  | zero =>
    cases hg : s.get? v with
    | none => rw [resolveWithin_of_get?_none hg]; rfl
    | some t =>
      have := hb v t .refl hg
      rw [Finset.card_eq_zero.1 (Nat.le_zero.1 hn)] at this
      exact absurd this (Finset.notMem_empty v)
  | succ n ih =>
    cases hg : s.get? v with
    | none => rw [resolveWithin_of_get?_none hg]; rfl
    | some t =>
      have hvb : v ∈ bound := hb v t .refl hg
      have below : ∀ w ∈ t.vars, (s.resolveWithin n w).isSome := by
        intro w hw
        have hvw : s.Leads v w := ⟨t, hg, hw⟩
        refine ih (fun hc => hv (circles_iff.2 ⟨w, hvw, hc⟩)) (bound.erase v) (fun x u hx hu => ?_) ?_
        · refine Finset.mem_erase.2 ⟨?_, hb x u (.head hvw hx) hu⟩
          rintro rfl
          exact hv ⟨x, .refl, .head' hvw hx⟩
        · rw [Finset.card_erase_of_mem hvb]; omega
      rw [resolveWithin_succ_of_get? hg, Term.subst?_eq_some (f := fun w =>
        (s.resolveWithin n w).getD (.var w)) fun w hw => ?_]
      · rfl
      · obtain ⟨x, hx⟩ := Option.isSome_iff_exists.1 (below w hw)
        rw [hx, Option.getD_some]

theorem mem_bindings_of_get? (h : s.get? v = some t) : (v, t) ∈ s.bindings := by
  obtain ⟨bs⟩ := s
  change bs.lookup v = some t at h
  induction bs with
  | nil => cases h
  | cons b bs ih =>
    rw [List.mem_cons]
    by_cases hv : v = b.1
    · rw [List.lookup_cons, hv, beq_self_eq_true] at h
      cases h
      exact .inl (by rw [hv])
    · rw [List.lookup_cons, beq_eq_false_iff_ne.2 hv] at h
      exact .inr (ih h)

theorem isSome_resolve? (hv : ¬ s.Circles v) : (s.resolve? v).isSome := by
  refine isSome_resolveWithin hv _ (s.bindings.map Prod.fst).toFinset (fun w u _ hu => ?_) ?_
  · exact List.mem_toFinset.2 (List.mem_map_of_mem (mem_bindings_of_get? hu))
  · exact (List.toFinset_card_le _).trans (by rw [List.length_map])

/-- What holds of a variable whenever it holds of those it leads to holds where reading ends. -/
theorem induction_of_resolve? {P : Var → Prop} (step : ∀ v, (∀ w, s.Leads v w → P w) → P v)
    (h : (s.resolve? v).isSome) : P v := by
  have within : ∀ n v, (s.resolveWithin n v).isSome → P v := by
    intro n
    induction n with
    | zero =>
      intro v hv
      refine step v fun w ⟨t, ht, _⟩ => ?_
      rw [resolveWithin_zero_of_get? ht] at hv
      cases hv
    | succ n ih =>
      intro v hv
      refine step v fun w ⟨t, ht, hw⟩ => ih w ?_
      rw [resolveWithin_succ_of_get? ht] at hv
      obtain ⟨x, hx⟩ := Option.isSome_iff_exists.1 hv
      exact Term.isSome_of_subst? hx w hw
  exact within _ v h

theorem isSome_resolve?_iff : (s.resolve? v).isSome ↔ ¬ s.Circles v := by
  refine ⟨fun h => ?_, isSome_resolve?⟩
  refine induction_of_resolve? (P := fun v => ¬ s.Circles v) (fun v ih hv => ?_) h
  obtain ⟨w, hvw, hw⟩ := circles_iff.1 hv
  exact ih w hvw hw

theorem resolve?_of_get?_none (hv : s.get? v = none) : s.resolve? v = some (.var v) :=
  resolveWithin_of_get?_none hv _

/-- A bound variable stands for what the term bound to it stands for; so the bound on the bindings visited
cuts nothing off. -/
theorem resolve?_of_get? (hv : s.get? v = some t) : s.resolve? v = s.instantiate? t := by
  obtain ⟨n, hn⟩ : ∃ n, s.bindings.length = n + 1 :=
    Nat.exists_eq_add_one.2 (List.length_pos_of_mem (mem_bindings_of_get? hv))
  have onward : ∀ u, s.resolve? v = some u → s.instantiate? t = some u := fun u hu => by
    rw [resolve?, hn, resolveWithin_succ_of_get? hv] at hu
    refine Term.subst?_mono (fun w x hx => ?_) hu
    rw [resolve?, hn]
    exact resolveWithin_succ hx
  cases hr : s.resolve? v with
  | some u => exact (onward u hr).symm
  | none =>
    cases ht : s.instantiate? t with
    | none => rfl
    | some u =>
      have hends : (s.resolve? v).isSome := isSome_resolve?_iff.2 fun hc => by
        obtain ⟨w, ⟨t', ht', hw⟩, hcw⟩ := circles_iff.1 hc
        obtain rfl := Option.some.inj (hv.symm.trans ht')
        exact isSome_resolve?_iff.1 (Term.isSome_of_subst? ht w hw) hcw
      rw [hr] at hends
      cases hends

/-! ### Values -/

theorem value_of_get?_none (hv : s.get? v = none) : s.value v = .var v := by
  rw [value, resolve?_of_get?_none hv]; rfl

namespace Acyclic

theorem resolve?_eq (hs : s.Acyclic) (v : Var) : s.resolve? v = some (s.value v) := by
  obtain ⟨t, ht⟩ := Option.isSome_iff_exists.1 (isSome_resolve? (hs.not_circles v))
  rw [value, ht, Option.getD_some]

theorem instantiate?_eq (hs : s.Acyclic) (t : Term) : s.instantiate? t = some (t.subst s.value) :=
  Term.subst?_eq_some fun v _ => hs.resolve?_eq v

theorem value_of_get? (hs : s.Acyclic) (hv : s.get? v = some t) : s.value v = t.subst s.value := by
  have h := resolve?_of_get? hv
  rw [hs.resolve?_eq v, hs.instantiate?_eq t] at h
  exact Option.some.inj h

theorem solvedBy_value (hs : s.Acyclic) : s.SolvedBy s.value := fun _ _ hv => hs.value_of_get? hv

/-- What holds of a variable whenever it holds of those it leads to holds of every variable. -/
theorem induction {P : Var → Prop} (hs : s.Acyclic) (step : ∀ v, (∀ w, s.Leads v w → P w) → P v)
    (v : Var) : P v :=
  induction_of_resolve? step (by rw [hs.resolve?_eq v]; rfl)

theorem mem_vars_value (hs : s.Acyclic) (hw : s.get? w = none)
    (h : Relation.ReflTransGen s.Leads v w) : w ∈ (s.value v).vars := by
  induction h using Relation.ReflTransGen.head_induction_on with
  | refl => rw [value_of_get?_none hw]; simp
  | head hab _ ih =>
    obtain ⟨t, ht, hb⟩ := hab
    rw [hs.value_of_get? ht]
    exact Term.mem_vars_subst.2 ⟨_, hb, ih⟩

end Acyclic

theorem SolvedBy.value_subst (hf : s.SolvedBy f) (hs : s.Acyclic) (v : Var) :
    (s.value v).subst f = f v := by
  induction v using hs.induction with
  | step v ih =>
    cases hv : s.get? v with
    | none => rw [value_of_get?_none hv]; rfl
    | some u =>
      rw [hs.value_of_get? hv, hf v u hv, Term.subst_subst]
      exact Term.subst_congr fun w hw => ih w ⟨u, hv, hw⟩

theorem SolvedBy.subst_value (hf : s.SolvedBy f) (hs : s.Acyclic) (t : Term) :
    (t.subst s.value).subst f = t.subst f := by
  rw [Term.subst_subst]
  exact Term.subst_congr fun v _ => hf.value_subst hs v

/-! ### Walking -/

/-- What is kept from a variable to the term bound to it holds where a walk ends. -/
theorem walkWithin_induction {P : Term → Prop} (bound : ∀ v u, P (.var v) → s.get? v = some u → P u)
    (ht : P t) (h : s.walkWithin n t = some u) : P u := by
  induction n generalizing t with
  | zero =>
    cases t with
    | var v =>
      rw [walkWithin] at h
      split at h
      · cases h
      · exact Option.some.inj h ▸ ht
    | sym c => exact Option.some.inj h ▸ ht
    | tuple ts => exact Option.some.inj h ▸ ht
  | succ n ih =>
    cases t with
    | var v =>
      rw [walkWithin] at h
      split at h
      · exact Option.some.inj h ▸ ht
      · next t' hv => exact ih (bound v t' ht hv) h
    | sym c => exact Option.some.inj h ▸ ht
    | tuple ts => exact Option.some.inj h ▸ ht

theorem get?_of_walkWithin (h : s.walkWithin n t = some (.var v)) : s.get? v = none := by
  induction n generalizing t with
  | zero =>
    cases t with
    | var w =>
      rw [walkWithin] at h
      split at h
      · cases h
      · next hw => cases h; simpa using hw
    | sym c => cases h
    | tuple ts => cases h
  | succ n ih =>
    cases t with
    | var w =>
      rw [walkWithin] at h
      split at h
      · next hw => cases h; exact hw
      · exact ih h
    | sym c => cases h
    | tuple ts => cases h

theorem SolvedBy.subst_walk? (hf : s.SolvedBy f) (h : s.walk? t = some u) : u.subst f = t.subst f :=
  walkWithin_induction (P := fun x => x.subst f = t.subst f)
    (fun v x hv hx => by rw [← hv, Term.subst_var]; exact (hf v x hx).symm) rfl h

theorem reaches_walk? (h : s.walk? t = some u) : s.Reaches t u :=
  walkWithin_induction (fun _ _ hv hx => hv.bound hx) .refl h

theorem Acyclic.isSome_walk? (hs : s.Acyclic) (t : Term) : (s.walk? t).isSome := by
  have within : ∀ n v, (s.resolveWithin n v).isSome → (s.walkWithin n (.var v)).isSome := by
    intro n
    induction n with
    | zero =>
      intro v hv
      cases hg : s.get? v with
      | none => simp [walkWithin, hg]
      | some t => rw [resolveWithin_zero_of_get? hg] at hv; cases hv
    | succ n ih =>
      intro v hv
      cases hg : s.get? v with
      | none => simp [walkWithin, hg]
      | some t =>
        rw [resolveWithin_succ_of_get? hg] at hv
        rw [walkWithin, hg]
        cases t with
        | var w => exact ih w hv
        | sym c => simp [walkWithin]
        | tuple ts => simp [walkWithin]
  cases t with
  | var v => exact within _ v (by rw [← resolve?, hs.resolve?_eq v]; rfl)
  | sym c => simp [walk?, walkWithin]
  | tuple ts => simp [walk?, walkWithin]

/-! ### One binding more -/

theorem solvedBy_bind (hv : s.get? v = none) :
    (s.bind v t).SolvedBy f ↔ s.SolvedBy f ∧ f v = t.subst f := by
  constructor
  · refine fun h => ⟨fun w u hw => h w u ?_, h v t (get?_bind_self s v t)⟩
    rw [get?_bind, if_neg]
    · exact hw
    · rintro rfl; rw [hv] at hw; cases hw
  · rintro ⟨h, hvt⟩ w u hw
    rw [get?_bind] at hw
    split at hw
    · next he => cases hw; rw [he]; exact hvt
    · exact h w u hw

theorem extends_bind (hv : s.get? v = none) (t : Term) : (s.bind v t).Extends s := fun w u hw => by
  rw [get?_bind, if_neg]
  · exact hw
  · rintro rfl; rw [hv] at hw; cases hw

/-- A path through the longer substitution either keeps to the old bindings, or has taken the new one
once and has not come back to it. -/
theorem Acyclic.bind (hs : s.Acyclic) (hv : s.get? v = none) (ht : v ∉ (t.subst s.value).vars) :
    (s.bind v t).Acyclic := by
  have step : ∀ {x y}, (s.bind v t).Leads x y → s.Leads x y ∨ x = v ∧ y ∈ t.vars := by
    rintro x y ⟨u, hu, hy⟩
    rw [get?_bind] at hu
    split at hu
    · next he => cases hu; exact .inr ⟨he, hy⟩
    · exact .inl ⟨u, hu, hy⟩
  -- a way back to `v` from the new term would bring `v` into what the term stands for
  have back : ∀ {y}, y ∈ t.vars → ¬ Relation.ReflTransGen s.Leads y v := fun hy h =>
    ht (Term.mem_vars_subst.2 ⟨_, hy, hs.mem_vars_value hv h⟩)
  have path : ∀ {x y}, Relation.TransGen (s.bind v t).Leads x y → Relation.TransGen s.Leads x y ∨
      Relation.ReflTransGen s.Leads x v ∧ ∃ z ∈ t.vars, Relation.ReflTransGen s.Leads z y := by
    intro x y h
    induction h with
    | single h =>
      rcases step h with h | ⟨rfl, hy⟩
      · exact .inl (.single h)
      · exact .inr ⟨.refl, _, hy, .refl⟩
    | tail _ h ih =>
      rcases step h with h | ⟨rfl, hy⟩
      · rcases ih with ih | ⟨hx, z, hz, ih⟩
        · exact .inl (ih.tail h)
        · exact .inr ⟨hx, z, hz, ih.tail h⟩
      · rcases ih with ih | ⟨_, z, hz, ih⟩
        · exact .inr ⟨ih.to_reflTransGen, _, hy, .refl⟩
        · exact absurd ih (back hz)
  intro x h
  rcases path h with h | ⟨hx, z, hz, h⟩
  · exact hs x h
  · exact back hz (h.trans hx)

end ProofSearch.Subst
