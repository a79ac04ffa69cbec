import ProofSearch.Proofs.Subst.Acyclic
import ProofSearch.Subst.Unify

/-!
# What a unification comes to

A unification is read as solving a list of pairs on top of the bindings there are. Where it gives a
substitution, the solutions of that substitution are exactly the solutions of the old one that make
the pairs equal (`Unified`); where it meets a clash, the old one has no such solution. Pairs are solved
one after the other, so both are carried along a list (`outcome_foldlM`) and up through the tuples
(`outcome_unifyWithin`).
-/

namespace ProofSearch.Subst
variable {s r : Subst} {v w : Var} {t u t' u' : Term} {f : Var → Term} {n : Nat}
variable {e : Term × Term} {es fs : List (Term × Term)}

/-- `f` makes the terms of each pair equal. -/
def Equates (f : Var → Term) (es : List (Term × Term)) : Prop := ∀ e ∈ es, e.1.subst f = e.2.subst f

/-- Reading one of the terms of the pairs comes to `u`. -/
def Meets (s : Subst) (es : List (Term × Term)) (u : Term) : Prop :=
  ∃ e ∈ es, s.Reaches e.1 u ∨ s.Reaches e.2 u

/-- `r` adds to `s` what makes the pairs equal, and nothing else. -/
structure Unified (s : Subst) (es : List (Term × Term)) (r : Subst) : Prop where
  acyclic : r.Acyclic
  keeps : r.Extends s
  added : ∀ v t, s.get? v = none → r.get? v = some t → s.Meets es (.var v) ∧ s.Meets es t
  solvedBy : ∀ f, r.SolvedBy f ↔ s.SolvedBy f ∧ Equates f es

/-- What a unification may answer. -/
def Outcome (s : Subst) (es : List (Term × Term)) : Except Refusal Subst → Prop
  | .ok r => Unified s es r
  | .error .clash => ∀ f, s.SolvedBy f → ¬ Equates f es
  | .error .endless => True

@[simp] theorem equates_nil : Equates f [] := fun _ h => absurd h List.not_mem_nil

@[simp] theorem equates_cons : Equates f (e :: es) ↔ e.1.subst f = e.2.subst f ∧ Equates f es :=
  List.forall_mem_cons

theorem equates_singleton : Equates f [(t, u)] ↔ t.subst f = u.subst f := by simp

/-! ### Reaching -/

/-- What holds of a term, of the parts of terms and of what variables are bound to holds of all that
reading comes to. -/
theorem Reaches.closed {P : Term → Prop} (part : ∀ ts u, P (.tuple ts) → u ∈ ts → P u)
    (bound : ∀ v u, P (.var v) → s.get? v = some u → P u) (h : s.Reaches t u) (ht : P t) : P u := by
  induction h with
  | refl => exact ht
  | part _ hu ih => exact part _ _ ih hu
  | bound _ hu ih => exact bound _ _ ih hu

theorem Reaches.trans (h : s.Reaches t u) (h' : s.Reaches u u') : s.Reaches t u' :=
  h'.closed (P := s.Reaches t) (fun _ _ h hu => h.part hu) (fun _ _ h hv => h.bound hv) h

namespace Meets

theorem left (s : Subst) (t u : Term) : s.Meets [(t, u)] t := ⟨_, List.mem_singleton_self _, .inl .refl⟩

theorem right (s : Subst) (t u : Term) : s.Meets [(t, u)] u := ⟨_, List.mem_singleton_self _, .inr .refl⟩

theorem mono (h : s.Meets es u) (hes : ∀ e ∈ es, e ∈ fs) : s.Meets fs u :=
  let ⟨e, he, hu⟩ := h; ⟨e, hes e he, hu⟩

theorem trans (h : s.Meets es t) (h' : s.Reaches t u) : s.Meets es u :=
  let ⟨e, he, ht⟩ := h; ⟨e, he, ht.imp (·.trans h') (·.trans h')⟩

theorem comp (h : s.Meets es u) (hes : ∀ e ∈ es, s.Meets fs e.1 ∧ s.Meets fs e.2) : s.Meets fs u := by
  obtain ⟨e, he, hu | hu⟩ := h
  · exact (hes e he).1.trans hu
  · exact (hes e he).2.trans hu

end Meets

/-- What reading comes to under the longer substitution, it comes to under the old one, when the terms
bound anew are met there. -/
theorem Meets.of_reaches (keeps : r.Extends s)
    (added : ∀ v t, s.get? v = none → r.get? v = some t → s.Meets es t) (ht : s.Meets es t)
    (hu : r.Reaches t u) : s.Meets es u := by
  refine hu.closed (P := s.Meets es) (fun ts x h hx => h.trans (.part .refl hx)) (fun v x h hx => ?_) ht
  cases hv : s.get? v with
  | none => exact added v x hv hx
  | some y =>
    rw [keeps v y hv] at hx
    cases hx
    exact h.trans (.bound .refl hv)

/-! ### One pair after the other -/

namespace Unified

theorem nil (hs : s.Acyclic) : Unified s [] s where
  acyclic := hs
  keeps := fun _ _ h => h
  added := fun v t hv ht => by rw [hv] at ht; cases ht
  solvedBy := fun f => by simp

theorem self (hs : s.Acyclic) (t : Term) : Unified s [(t, t)] s where
  acyclic := hs
  keeps := fun _ _ h => h
  added := fun v t hv ht => by rw [hv] at ht; cases ht
  solvedBy := fun f => by simp

theorem append {r' : Subst} (h : Unified s es r) (h' : Unified r fs r') : Unified s (es ++ fs) r' where
  acyclic := h'.acyclic
  keeps := fun v t hv => h'.keeps v t (h.keeps v t hv)
  added := by
    have first : ∀ {u}, s.Meets es u → s.Meets (es ++ fs) u := fun hu =>
      hu.mono fun e he => List.mem_append_left _ he
    have all : ∀ {t u}, s.Meets (es ++ fs) t → r.Reaches t u → s.Meets (es ++ fs) u :=
      fun ht hu => Meets.of_reaches h.keeps (fun v x hv hx => first (h.added v x hv hx).2) ht hu
    have second : ∀ {u}, r.Meets fs u → s.Meets (es ++ fs) u := by
      rintro u ⟨e, he, hu⟩
      have he' : e ∈ es ++ fs := List.mem_append_right _ he
      rcases hu with hu | hu
      · exact all ⟨e, he', .inl .refl⟩ hu
      · exact all ⟨e, he', .inr .refl⟩ hu
    intro v t hv ht
    cases hr : r.get? v with
    | none =>
      obtain ⟨hv', ht'⟩ := h'.added v t hr ht
      exact ⟨second hv', second ht'⟩
    | some u =>
      rw [h'.keeps v u hr] at ht
      cases ht
      obtain ⟨hv', ht'⟩ := h.added v _ hv hr
      exact ⟨first hv', first ht'⟩
  solvedBy := fun f => by
    rw [h'.solvedBy, h.solvedBy, and_assoc, Equates, Equates, Equates, List.forall_mem_append]

/-- Pairs that are met among others, and are made equal along with them, can stand in their place. -/
theorem of_pairs (h : Unified s es r) (hes : ∀ e ∈ es, s.Meets fs e.1 ∧ s.Meets fs e.2)
    (heq : ∀ f, s.SolvedBy f → (Equates f es ↔ Equates f fs)) : Unified s fs r where
  acyclic := h.acyclic
  keeps := h.keeps
  added := fun v t hv ht => (h.added v t hv ht).imp (·.comp hes) (·.comp hes)
  solvedBy := fun f => by rw [h.solvedBy]; exact and_congr_right (heq f)

/-- What holds of the terms, of their parts and, along the old bindings, of what variables are bound to
holds of what is bound anew. -/
theorem added_closed {P : Term → Prop} (h : Unified s es r) (part : ∀ ts u, P (.tuple ts) → u ∈ ts → P u)
    (bound : ∀ v u, P (.var v) → s.get? v = some u → P u) (hes : ∀ e ∈ es, P e.1 ∧ P e.2)
    (hs : s.get? v = none) (hv : r.get? v = some u) : P (.var v) ∧ P u := by
  have met : ∀ {x}, s.Meets es x → P x := by
    rintro x ⟨e, he, hx | hx⟩
    · exact hx.closed part bound (hes e he).1
    · exact hx.closed part bound (hes e he).2
  exact (h.added v u hs hv).imp met met

/-- What holds of the terms, of their parts and of the old bindings holds of the new bindings. -/
theorem closed {P : Term → Prop} (h : Unified s es r) (part : ∀ ts u, P (.tuple ts) → u ∈ ts → P u)
    (hs : ∀ v u, s.get? v = some u → P (.var v) ∧ P u) (hes : ∀ e ∈ es, P e.1 ∧ P e.2) (v : Var)
    (u : Term) (hv : r.get? v = some u) : P (.var v) ∧ P u := by
  cases hsv : s.get? v with
  | none => exact h.added_closed part (fun w x _ hw => (hs w x hw).2) hes hsv hv
  | some x =>
    rw [h.keeps v x hsv] at hv
    cases hv
    exact hs v _ hsv

end Unified

/-! ### One unification -/

theorem Outcome.of_pairs {x : Except Refusal Subst} (h : Outcome s es x)
    (hes : ∀ e ∈ es, s.Meets fs e.1 ∧ s.Meets fs e.2)
    (heq : ∀ f, s.SolvedBy f → (Equates f es ↔ Equates f fs)) : Outcome s fs x := by
  match x, h with
  | .ok _, h => exact Unified.of_pairs h hes heq
  | .error .clash, h => exact fun f hf he => h f hf ((heq f hf).2 he)
  | .error .endless, _ => trivial

theorem Outcome.swap {x : Except Refusal Subst} (h : Outcome s [(t, u)] x) : Outcome s [(u, t)] x := by
  refine h.of_pairs ?_ fun f _ => ?_
  · simpa using ⟨Meets.right s u t, Meets.left s u t⟩
  · rw [equates_singleton, equates_singleton, eq_comm]

theorem outcome_assign (hs : s.Acyclic) (hv : s.get? v = none) (ht : ∀ w, t = .var w → s.get? w = none)
    (hne : t ≠ .var v) : Outcome s [(.var v, t)] (s.assign v t) := by
  unfold assign
  rw [hs.instantiate?_eq]
  show Outcome s _ (if _ then _ else _)
  split
  · next hc =>
    intro f hf he
    -- read out, the term holds `v` properly inside it, and no assignment makes those equal
    rw [equates_singleton, Term.subst_var, ← hf.subst_value hs t] at he
    refine Term.subst_ne_of_mem (Term.contains_var.1 hc) ?_ he
    cases t with
    | var w => rw [Term.subst_var, value_of_get?_none (ht w rfl)]; exact hne
    | sym c => simp
    | tuple ts => simp
  · next hc =>
    exact {
      acyclic := hs.bind hv fun h => hc (Term.contains_var.2 h)
      keeps := extends_bind hv t
      added := fun w u hw hu => by
        rw [get?_bind] at hu
        split at hu
        · next he => cases hu; rw [he]; exact ⟨Meets.left s _ _, Meets.right s _ _⟩
        · rw [hw] at hu; cases hu
      solvedBy := fun f => by rw [solvedBy_bind hv, equates_singleton, Term.subst_var] }

theorem outcome_foldlM {run : Subst → Term × Term → Except Refusal Subst}
    (hrun : ∀ s e, s.Acyclic → Outcome s [e] (run s e)) (hs : s.Acyclic) (es : List (Term × Term)) :
    Outcome s es (es.foldlM run s) := by
  induction es generalizing s with
  | nil => exact Unified.nil hs
  | cons e es ih =>
    rw [List.foldlM_cons]
    have first := hrun s e hs
    match hr : run s e with
    | .ok r =>
      rw [hr] at first
      have rest : Outcome r es (es.foldlM run r) := ih first.acyclic
      show Outcome s (e :: es) (es.foldlM run r)
      match hr' : es.foldlM run r with
      | .ok r' => rw [hr'] at rest; exact Unified.append first rest
      | .error .clash =>
        rw [hr'] at rest
        intro f hf he
        obtain ⟨he, hes⟩ := equates_cons.1 he
        exact rest f ((first.solvedBy f).2 ⟨hf, equates_cons.2 ⟨he, equates_nil⟩⟩) hes
      | .error .endless => trivial
    | .error .clash =>
      rw [hr] at first
      exact fun f hf he => first f hf (equates_cons.2 ⟨(equates_cons.1 he).1, equates_nil⟩)
    | .error .endless => trivial

/-- Terms may be replaced by where their walks end. -/
theorem Outcome.of_walk? {x : Except Refusal Subst} (ht : s.walk? t = some t') (hu : s.walk? u = some u')
    (h : Outcome s [(t', u')] x) : Outcome s [(t, u)] x := by
  refine h.of_pairs ?_ fun f hf => ?_
  · simpa using ⟨(Meets.left s t u).trans (reaches_walk? ht), (Meets.right s t u).trans (reaches_walk? hu)⟩
  · rw [equates_singleton, equates_singleton, hf.subst_walk? ht, hf.subst_walk? hu]

/-- Tuples of one length may be replaced by their terms in pairs. -/
theorem Outcome.of_zip {ts us : List Term} {x : Except Refusal Subst} (hl : ts.length = us.length)
    (h : Outcome s (ts.zip us) x) : Outcome s [(.tuple ts, .tuple us)] x := by
  refine h.of_pairs (fun e he => ?_) fun f _ => ?_
  · obtain ⟨ht, hu⟩ := List.of_mem_zip he
    exact ⟨(Meets.left s _ _).trans (.part .refl ht), (Meets.right s _ _).trans (.part .refl hu)⟩
  · rw [equates_singleton, Term.subst_tuple_eq_iff]
    exact (and_iff_right hl).symm

theorem outcome_unifyWithin (n : Nat) (hs : s.Acyclic) (t u : Term) :
    Outcome s [(t, u)] (unifyWithin n s t u) := by
  induction n generalizing s t u with
  | zero => trivial
  | succ n ih =>
    obtain ⟨t', ht⟩ := Option.isSome_iff_exists.1 (hs.isSome_walk? t)
    obtain ⟨u', hu⟩ := Option.isSome_iff_exists.1 (hs.isSome_walk? u)
    refine Outcome.of_walk? ht hu ?_
    simp only [unifyWithin, ht, hu]
    split
    · next he => exact he ▸ Unified.self hs t'
    · next hne =>
      have ht' : ∀ w, t' = .var w → s.get? w = none := fun w hw => get?_of_walkWithin (hw ▸ ht)
      have hu' : ∀ w, u' = .var w → s.get? w = none := fun w hw => get?_of_walkWithin (hw ▸ hu)
      cases t' with
      | var v => exact outcome_assign hs (ht' v rfl) hu' (Ne.symm hne)
      | sym c =>
        cases u' with
        | var w => exact (outcome_assign hs (hu' w rfl) ht' hne).swap
        | sym d => exact fun f _ he => hne (equates_singleton.1 he)
        | tuple us => exact fun f _ he => by simp at he
      | tuple ts =>
        cases u' with
        | var w => exact (outcome_assign hs (hu' w rfl) ht' hne).swap
        | sym d => exact fun f _ he => by simp at he
        | tuple us =>
          show Outcome s _ (if _ then _ else _)
          split
          · next hl => exact Outcome.of_zip hl (outcome_foldlM (fun s e hs => ih hs e.1 e.2) hs _)
          · next hl =>
            exact fun f _ he => hl (Term.subst_tuple_eq_iff.1 (equates_singleton.1 he)).1

end ProofSearch.Subst
