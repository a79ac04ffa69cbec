import Mathlib.Data.Set.Basic
import ProofSearch.Proofs.Fresh
import ProofSearch.Proofs.Subst.MostGeneral

/-!
# Two kinds of variables

A search binds variables for proofs and variables for statements, and the two kinds are kept apart: no
binding leads from one into the other (`Sorted`). A unification of terms that avoid the first kind leaves it
as it is (`Sorted.get?_unified`), and one of a variable that is not bound, with a term that is none, is that
one binding (`eq_bind_of_unifyWithin`); so what a judgment's proof is bound to does not depend on its
statement (`exists_halves_of_unify`).
-/

namespace ProofSearch
variable {K K' : Set Var} {n : Nat} {v w : Var} {t u : Term} {s r : Subst} {es : List (Term × Term)}

/-- No variable of the term is in `K`. -/
def Term.Avoids (K : Set Var) (t : Term) : Prop := ∀ v ∈ t.vars, v ∉ K

namespace Term.Avoids

theorem of_agree (h : t.Avoids K) (ht : t.Settled n) (hK : ∀ v : Var, v.Settled n → (v ∈ K' ↔ v ∈ K)) :
    t.Avoids K' := fun v hv hv' => h v hv ((hK v (ht v hv)).1 hv')

theorem arrow {premises : List Term} {conclusion : Term} (hp : ∀ p ∈ premises, p.Avoids K)
    (hc : conclusion.Avoids K) : (arrow premises conclusion).Avoids K := by
  intro v hv
  obtain ⟨t, ht, hv⟩ := mem_vars_tuple.1 hv
  rcases List.mem_append.1 ht with ht | ht
  · rcases List.mem_cons.1 ht with rfl | ht
    · cases hv
    · exact hp t ht v hv
  · rw [List.mem_singleton.1 ht] at hv
    exact hc v hv

end Term.Avoids

theorem Term.avoids_var : (Term.var v).Avoids K ↔ v ∉ K := by simp [Avoids]

namespace Subst

/-- Variables of `K` are bound to terms that have no other variables, others to terms that avoid `K`. -/
def Sorted (K : Set Var) (s : Subst) : Prop :=
  ∀ v t, s.get? v = some t → ∀ w ∈ t.vars, (w ∈ K ↔ v ∈ K)

theorem sorted_empty (K : Set Var) : empty.Sorted K := fun v t hv => by cases hv

namespace Sorted

theorem congr (h : s.Sorted K) (hs : s.Settled n) (hK : ∀ v : Var, v.Settled n → (v ∈ K' ↔ v ∈ K)) :
    s.Sorted K' := by
  intro v t hv w hw
  obtain ⟨hset, htset⟩ := hs v t hv
  rw [hK w (htset w hw), hK v (Term.settled_var.1 hset)]
  exact h v t hv w hw

theorem bind (h : s.Sorted K) (hv : v ∈ K) (ht : ∀ w ∈ t.vars, w ∈ K) : (s.bind v t).Sorted K := by
  intro u x hu w hw
  rw [get?_bind] at hu
  split at hu
  · next he =>
    cases hu
    rw [he]
    exact iff_of_true (ht w hw) hv
  · exact h u x hu w hw

section
variable (h : s.Sorted K) (hu : s.Unified es r) (hes : ∀ e ∈ es, e.1.Avoids K ∧ e.2.Avoids K)
include h hu hes

theorem avoids_added (hv : s.get? v = none) (ht : r.get? v = some t) : v ∉ K ∧ t.Avoids K := by
  have hadded := hu.added_closed (P := Term.Avoids K) (v := v) (u := t) ?_ ?_ hes hv ht
  · exact hadded.imp_left Term.avoids_var.1
  · exact fun ts x hts hx w hw => hts w (Term.mem_vars_tuple.2 ⟨x, hx, hw⟩)
  · intro w x hw hx y hy hyK
    exact Term.avoids_var.1 hw ((h w x hx y hy).1 hyK)

/-- Variables of `K` are left as they are. -/
theorem get?_unified (hv : v ∈ K) : r.get? v = s.get? v := by
  cases hs : s.get? v with
  | some t => exact hu.keeps v t hs
  | none =>
    cases hr : r.get? v with
    | none => rfl
    | some t => exact absurd hv (h.avoids_added hu hes hs hr).1

theorem unified : r.Sorted K := by
  intro v t ht w hw
  cases hs : s.get? v with
  | none =>
    obtain ⟨hv, hta⟩ := h.avoids_added hu hes hs ht
    exact iff_of_false (hta w hw) hv
  | some x =>
    rw [hu.keeps v x hs] at ht
    cases ht
    exact h v _ hs w hw

end

theorem subst_value (h : s.Sorted K) (hs : s.Acyclic) (ht : t.Avoids K) : (t.subst s.value).Avoids K := by
  have value : ∀ v : Var, v ∉ K → (s.value v).Avoids K := by
    intro v hv
    induction v using hs.induction with
    | step v ih =>
      cases hg : s.get? v with
      | none =>
        rw [value_of_get?_none hg]
        exact Term.avoids_var.2 hv
      | some u =>
        rw [hs.value_of_get? hg]
        intro w hw
        obtain ⟨x, hx, hw⟩ := Term.mem_vars_subst.1 hw
        exact ih x ⟨u, hg, hx⟩ (fun hxK => hv ((h v u hg x hx).1 hxK)) w hw
  intro w hw
  obtain ⟨v, hv, hw⟩ := Term.mem_vars_subst.1 hw
  exact value v (ht v hv) w hw

end Sorted

/-! ### One binding at a time -/

theorem walk?_var (hv : s.get? v = none) : s.walk? (.var v) = some (.var v) := by
  unfold walk?
  cases s.bindings.length <;> simp [walkWithin, hv]

theorem walk?_of_ne_var (ht : ∀ w, t ≠ .var w) : s.walk? t = some t := by
  cases t with
  | var w => exact absurd rfl (ht w)
  | sym c => rw [walk?, walkWithin]
  | tuple ts => rw [walk?, walkWithin]

theorem eq_bind_of_unifyWithin (hv : s.get? v = none) (ht : ∀ w, t ≠ .var w)
    (h : unifyWithin n s (.var v) t = .ok r) : r = s.bind v t := by
  cases n with
  | zero => cases h
  | succ n =>
    simp only [unifyWithin, walk?_var hv, walk?_of_ne_var ht, if_neg (Ne.symm (ht v))] at h
    unfold assign at h
    cases hi : s.instantiate? t with
    | none => rw [hi] at h; cases h
    | some u =>
      simp only [hi] at h
      split at h
      · cases h
      · exact (Except.ok.inj h).symm

theorem eq_bind_of_unify (hv : s.get? v = none) (ht : ∀ w, t ≠ .var w) (h : s.unify (.var v) t = .ok r) :
    r = s.bind v t := eq_bind_of_unifyWithin hv ht h

theorem unifyWithin_self (hs : s.Acyclic) (n : Nat) (t : Term) : unifyWithin (n + 1) s t t = .ok s := by
  obtain ⟨u, hu⟩ := Option.isSome_iff_exists.1 (hs.isSome_walk? t)
  simp [unifyWithin, hu]

/-- Judgments are made equal by their proofs first. -/
theorem exists_halves_of_unify {i j : Judgment} (hs : s.Acyclic) (h : s.unify i.term j.term = .ok r) :
    ∃ n s₁, unifyWithin n s i.proof j.proof = .ok s₁ ∧ s₁.Unified [(i.statement, j.statement)] r := by
  obtain ⟨n, hn⟩ := Nat.exists_eq_add_one.2
    (Nat.mul_pos (Nat.succ_pos (s.size + i.term.size + j.term.size)) (Nat.succ_pos _))
  rw [unify, hn, unifyWithin, walk?_of_ne_var (t := i.term) (fun _ => Term.noConfusion),
    walk?_of_ne_var (t := j.term) (fun _ => Term.noConfusion)] at h
  by_cases hij : i.term = j.term
  · simp only [if_pos hij] at h
    cases h
    obtain rfl := Judgment.term_injective hij
    exact ⟨1, s, unifyWithin_self hs 0 _, .self hs _⟩
  · simp only [if_neg hij] at h
    change [(Term.sym .colon, Term.sym .colon), (i.proof, j.proof), (i.statement, j.statement)].foldlM
      (fun s p => unifyWithin n s p.1 p.2) s = .ok r at h
    cases n with
    | zero => cases h
    | succ n =>
      rw [List.foldlM_cons, unifyWithin_self hs] at h
      change (unifyWithin (n + 1) s i.proof j.proof >>= fun s =>
        [(i.statement, j.statement)].foldlM (fun s p => unifyWithin (n + 1) s p.1 p.2) s) = .ok r at h
      cases hp : unifyWithin (n + 1) s i.proof j.proof with
      | error e => rw [hp] at h; cases h
      | ok s₁ =>
        rw [hp] at h
        have hs₁ := outcome_unifyWithin (n + 1) hs i.proof j.proof
        rw [hp] at hs₁
        have hr := outcome_foldlM (fun s e hs => outcome_unifyWithin (n + 1) hs e.1 e.2) hs₁.acyclic
          [(i.statement, j.statement)]
        change [(i.statement, j.statement)].foldlM (fun s p => unifyWithin (n + 1) s p.1 p.2) s₁ = .ok r at h
        rw [h] at hr
        exact ⟨n + 1, s₁, hp, hr⟩

end Subst
end ProofSearch
