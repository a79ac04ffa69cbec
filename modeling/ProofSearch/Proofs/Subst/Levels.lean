import Mathlib.Data.Finset.Card
import ProofSearch.Proofs.Subst.Unifier

/-!
# The levels of a unification

A unification enters at most as many tuples, one inside the other, as the terms are high once they are
read under the bindings it has made. All it binds are variables that were written down, to terms that
were written down (`Written`), and reading passes each variable at most once; so that height stays below
the square of what was written down, and the bound of `unify` is never met (`unify_ne_endless`).
-/

namespace ProofSearch
namespace Term
variable {f : Var → Term} {t : Term} {ts : List Term} {n : Nat}

mutual
/-- The most tuples of the term that stand one inside the other. -/
def height : Term → Nat
  | var _ | sym _ => 0
  | tuple ts => heightAll ts + 1
def heightAll : List Term → Nat
  | [] => 0
  | t :: ts => max t.height (heightAll ts)
end

theorem heightAll_le_iff : heightAll ts ≤ n ↔ ∀ t ∈ ts, t.height ≤ n := by
  induction ts with
  | nil => simp [heightAll]
  | cons t ts ih => rw [heightAll, Nat.max_le, ih, List.forall_mem_cons]

theorem height_lt_height_tuple (h : t ∈ ts) : t.height < (tuple ts).height :=
  Nat.lt_succ_of_le (heightAll_le_iff.1 (Nat.le_refl _) t h)

theorem height_le_size (t : Term) : t.height ≤ t.size := by
  induction t using Term.induction with
  | var v => exact Nat.zero_le _
  | sym s => exact Nat.zero_le _
  | tuple ts ih =>
    rw [size_tuple]
    refine Nat.succ_le_succ (heightAll_le_iff.2 fun t ht => (ih t ht).trans ?_)
    exact List.le_sum_of_mem (List.mem_map_of_mem ht)

theorem length_vars_le_size (t : Term) : t.vars.length ≤ t.size := by
  induction t using Term.induction with
  | var v => exact Nat.le_refl _
  | sym s => exact Nat.zero_le _
  | tuple ts ih =>
    rw [vars_tuple, List.length_flatMap, size_tuple]
    exact Nat.le_succ_of_le (List.sum_le_sum ih)

theorem height_subst_le (h : ∀ v ∈ t.vars, (f v).height ≤ n) : (t.subst f).height ≤ t.height + n := by
  induction t using Term.induction with
  | var v => exact (h v (by simp)).trans (Nat.le_add_left _ _)
  | sym s => exact Nat.zero_le _
  | tuple ts ih =>
    rw [subst_tuple]
    have hts : heightAll (ts.map (subst f)) ≤ heightAll ts + n := by
      refine heightAll_le_iff.2 fun u hu => ?_
      obtain ⟨t, ht, rfl⟩ := List.mem_map.1 hu
      have := ih t ht fun v hv => h v (mem_vars_tuple.2 ⟨t, ht, hv⟩)
      have := heightAll_le_iff.1 (Nat.le_refl _) t ht
      omega
    show heightAll (ts.map (subst f)) + 1 ≤ heightAll ts + 1 + n
    omega

/-- The term is at most that high and has those variables only. -/
structure Written (names : Finset Var) (height : Nat) (t : Term) : Prop where
  mem_vars : ∀ v ∈ t.vars, v ∈ names
  height_le : t.height ≤ height

theorem Written.part {names : Finset Var} (h : Written names n (tuple ts)) (ht : t ∈ ts) :
    Written names n t where
  mem_vars v hv := h.mem_vars v (mem_vars_tuple.2 ⟨t, ht, hv⟩)
  height_le := (Nat.le_of_lt (height_lt_height_tuple ht)).trans h.height_le

theorem written_of_size_le {names : Finset Var} (hv : ∀ v ∈ t.vars, v ∈ names) (hn : t.size ≤ n) :
    t.Written names n := ⟨hv, t.height_le_size.trans hn⟩

end Term

namespace Subst
variable {s r : Subst} {v w : Var} {t u : Term} {m n height : Nat} {names : Finset Var}
variable {es : List (Term × Term)}

/-- A substitution without cycles in which variables of `names` are bound to terms written with them. -/
structure Written (names : Finset Var) (height : Nat) (s : Subst) : Prop where
  acyclic : s.Acyclic
  binding : ∀ v t, s.get? v = some t → (Term.var v).Written names height ∧ t.Written names height

theorem Written.mem_names (hs : s.Written names height) (hv : s.get? v = some t) : v ∈ names :=
  (hs.binding v t hv).1.mem_vars v (by simp)

theorem Written.of_reaches (hs : s.Written names height) (ht : t.Written names height)
    (h : s.Reaches t u) : u.Written names height :=
  h.closed (fun _ _ h hu => h.part hu) (fun v u _ hv => (hs.binding v u hv).2) ht

theorem Unified.written (h : Unified s es r) (hs : s.Written names height)
    (hes : ∀ e ∈ es, e.1.Written names height ∧ e.2.Written names height) : r.Written names height :=
  ⟨h.acyclic, h.closed (fun _ _ h hu => h.part hu) hs.binding hes⟩

/-! ### The height of what terms stand for -/

theorem height_le_of_resolveWithin (hs : s.Written names height) (h : s.resolveWithin n v = some t) :
    t.height ≤ n * height := by
  induction n generalizing v t with
  | zero =>
    cases hv : s.get? v with
    | none => rw [resolveWithin_of_get?_none hv] at h; cases h; exact Nat.zero_le _
    | some u => rw [resolveWithin_zero_of_get? hv] at h; cases h
  | succ n ih =>
    cases hv : s.get? v with
    | none => rw [resolveWithin_of_get?_none hv] at h; cases h; exact Nat.zero_le _
    | some u =>
      rw [resolveWithin_succ_of_get? hv] at h
      have hw : ∀ w ∈ u.vars, s.resolveWithin n w = some ((s.resolveWithin n w).getD (.var w)) := by
        intro w hw
        obtain ⟨x, hx⟩ := Option.isSome_iff_exists.1 (Term.isSome_of_subst? h w hw)
        rw [hx, Option.getD_some]
      rw [Term.subst?_eq_some hw] at h
      cases h
      have := Term.height_subst_le fun w hu => ih (hw w hu)
      have := (hs.binding v u hv).2.height_le
      rw [Nat.succ_mul]
      omega

theorem Written.height_value_le (hs : s.Written names height) (v : Var) :
    (s.value v).height ≤ names.card * height := by
  obtain ⟨t, ht⟩ := Option.isSome_iff_exists.1 <|
    isSome_resolveWithin (hs.acyclic.not_circles v) names.card names (fun w u _ hu => hs.mem_names hu)
      (Nat.le_refl _)
  have hv : s.value v = t := by
    have h := hs.acyclic.resolve?_eq v
    rw [resolve?] at h
    rcases Nat.le_total names.card s.bindings.length with hle | hle
    · exact Option.some.inj (h.symm.trans (resolveWithin_mono ht hle))
    · exact Option.some.inj ((resolveWithin_mono h hle).symm.trans ht)
  exact hv ▸ height_le_of_resolveWithin hs ht

theorem Written.height_subst_value_le (hs : s.Written names height) (ht : t.Written names height) :
    (t.subst s.value).height ≤ (names.card + 1) * height := by
  have := Term.height_subst_le (t := t) fun v _ => hs.height_value_le v
  have := ht.height_le
  rw [Nat.succ_mul]
  omega

/-! ### Levels -/

/-- Whatever is bound further on, the term keeps below the height `n`. -/
def Shallow (names : Finset Var) (height : Nat) (s : Subst) (t : Term) (n : Nat) : Prop :=
  ∀ r : Subst, r.Written names height → r.Extends s → (t.subst r.value).height < n

theorem Shallow.extends (h : Shallow names height s t n) (hr : r.Extends s) : Shallow names height r t n :=
  fun r' hw hr' => h r' hw fun v u hv => hr' v u (hr v u hv)

theorem Shallow.part {ts : List Term} (h : Shallow names height s t (n + 1))
    (hw : s.walk? t = some (.tuple ts)) (hu : u ∈ ts) : Shallow names height s u n := by
  intro r hr hrs
  have hsol : s.SolvedBy r.value := fun v x hv => hr.acyclic.solvedBy_value v x (hrs v x hv)
  have ht := h r hr hrs
  rw [← hsol.subst_walk? hw, Term.subst_tuple] at ht
  have := Term.height_lt_height_tuple (List.mem_map_of_mem (f := Term.subst r.value) hu)
  omega

theorem foldlM_ne_endless (hs : s.Written names height)
    (hes : ∀ e ∈ es, e.1.Written names height ∧ e.2.Written names height)
    (hsh : ∀ e ∈ es, Shallow names height s e.1 n)
    (hn : ∀ s t u, s.Written names height → t.Written names height → u.Written names height →
      Shallow names height s t n → unifyWithin n s t u ≠ .error .endless) :
    es.foldlM (fun s e => unifyWithin n s e.1 e.2) s ≠ .error .endless := by
  induction es generalizing s with
  | nil => exact fun h => by cases h
  | cons e es ih =>
    obtain ⟨he, hes⟩ := List.forall_mem_cons.1 hes
    obtain ⟨hse, hsh⟩ := List.forall_mem_cons.1 hsh
    have first := hn s e.1 e.2 hs he.1 he.2 hse
    have out := outcome_unifyWithin n hs.acyclic e.1 e.2
    rw [List.foldlM_cons]
    match hr : unifyWithin n s e.1 e.2 with
    | .ok r =>
      rw [hr] at out
      refine ih (Unified.written out hs ?_) hes fun e' he' => (hsh e' he').extends (Unified.keeps out)
      simpa using he
    | .error .clash => exact fun h => by cases h
    | .error .endless => exact absurd hr first

theorem assign_ne_endless (hs : s.Acyclic) (v : Var) (t : Term) : s.assign v t ≠ .error .endless := by
  unfold assign
  rw [hs.instantiate?_eq]
  show (if _ then _ else _) ≠ _
  split <;> exact fun h => by cases h

theorem unifyWithin_ne_endless (hs : s.Written names height) (ht : t.Written names height)
    (hu : u.Written names height) (hsh : Shallow names height s t n) :
    unifyWithin n s t u ≠ .error .endless := by
  -- the first term is one level shallower inside a tuple, and stays so whatever its neighbours bind
  induction n generalizing s t u with
  | zero => exact absurd (hsh s hs fun _ _ h => h) (Nat.not_lt_zero _)
  | succ n ih =>
    obtain ⟨t', ht'⟩ := Option.isSome_iff_exists.1 (hs.acyclic.isSome_walk? t)
    obtain ⟨u', hu'⟩ := Option.isSome_iff_exists.1 (hs.acyclic.isSome_walk? u)
    simp only [unifyWithin, ht', hu']
    split
    · exact fun h => by cases h
    · split
      · exact assign_ne_endless hs.acyclic _ _
      · exact assign_ne_endless hs.acyclic _ _
      · next ts us =>
        split
        · refine foldlM_ne_endless hs (fun e he => ?_) (fun e he => ?_) fun s t u => ih
          · obtain ⟨he₁, he₂⟩ := List.of_mem_zip he
            exact ⟨(hs.of_reaches ht (reaches_walk? ht')).part he₁,
              (hs.of_reaches hu (reaches_walk? hu')).part he₂⟩
          · exact hsh.part ht' (List.of_mem_zip he).1
        · exact fun h => by cases h
      · exact fun h => by cases h

/-! ### What is written down -/

/-- Every variable written in the bindings. -/
def vars (s : Subst) : List Var := s.bindings.flatMap fun b => b.1 :: b.2.vars

theorem size_cons (b : Var × Term) (bs : List (Var × Term)) :
    (Subst.mk (b :: bs)).size = b.2.size + 1 + (Subst.mk bs).size := rfl

theorem length_vars_le_size (s : Subst) : s.vars.length ≤ s.size := by
  obtain ⟨bs⟩ := s
  induction bs with
  | nil => exact Nat.le_refl _
  | cons b bs ih =>
    have := Term.length_vars_le_size b.2
    change (bs.flatMap fun b => b.1 :: b.2.vars).length ≤ _ at ih
    show (List.flatMap (fun b => b.1 :: b.2.vars) (b :: bs)).length ≤ _
    rw [List.flatMap_cons, List.length_append, List.length_cons, size_cons]
    omega

theorem size_le_of_get? (h : s.get? v = some t) : t.size ≤ s.size := by
  have hb := mem_bindings_of_get? h
  obtain ⟨bs⟩ := s
  clear h
  induction bs with
  | nil => cases hb
  | cons b bs ih =>
    rw [size_cons]
    rcases List.mem_cons.1 hb with rfl | hb
    · exact Nat.le_add_right_of_le (Nat.le_succ _)
    · exact (ih hb).trans (Nat.le_add_left _ _)

theorem written_of_acyclic (hs : s.Acyclic) (t u : Term) :
    ∃ names : Finset Var, names.card ≤ s.size + t.size + u.size ∧
      s.Written names (s.size + t.size + u.size) ∧ t.Written names (s.size + t.size + u.size) ∧
      u.Written names (s.size + t.size + u.size) := by
  refine ⟨(s.vars ++ t.vars ++ u.vars).toFinset, ?_, ⟨hs, fun v x hv => ?_⟩,
    Term.written_of_size_le (fun w hw => by simp [hw]) (by omega),
    Term.written_of_size_le (fun w hw => by simp [hw]) (by omega)⟩
  · refine (List.toFinset_card_le _).trans ?_
    rw [List.length_append, List.length_append]
    have := length_vars_le_size s
    have := Term.length_vars_le_size t
    have := Term.length_vars_le_size u
    omega
  · have held : ∀ w ∈ v :: x.vars, w ∈ s.vars := fun w hw =>
      List.mem_flatMap.2 ⟨_, mem_bindings_of_get? hv, hw⟩
    have := size_le_of_get? hv
    refine ⟨⟨fun w hw => ?_, Nat.zero_le _⟩, Term.written_of_size_le (fun w hw => ?_) (by omega)⟩
    · rw [Term.vars_var, List.mem_singleton] at hw
      simp [held w (hw ▸ List.mem_cons_self)]
    · simp [held w (List.mem_cons_of_mem v hw)]

theorem unify_ne_endless (hs : s.Acyclic) (t u : Term) : s.unify t u ≠ .error .endless := by
  obtain ⟨names, hc, hs, ht, hu⟩ := written_of_acyclic hs t u
  refine unifyWithin_ne_endless hs ht hu fun r hr _ => ?_
  have hle := hr.height_subst_value_le ht
  have : (names.card + 1) * (s.size + t.size + u.size) ≤
      (s.size + t.size + u.size + 1) * (s.size + t.size + u.size) :=
    Nat.mul_le_mul_right _ (Nat.succ_le_succ hc)
  have := Nat.mul_lt_mul_of_pos_left (Nat.lt_succ_self (s.size + t.size + u.size))
    (Nat.succ_pos (s.size + t.size + u.size))
  exact Nat.lt_of_le_of_lt hle (Nat.lt_of_le_of_lt ‹_› this)

/-! ### More levels than are needed -/

theorem unifyWithin_congr (h : ∀ ts us, s.walk? t = some (.tuple ts) → s.walk? u = some (.tuple us) →
    Term.tuple ts ≠ .tuple us → ts.length = us.length →
    (ts.zip us).foldlM (fun s e => unifyWithin m s e.1 e.2) s =
      (ts.zip us).foldlM (fun s e => unifyWithin n s e.1 e.2) s) :
    unifyWithin (m + 1) s t u = unifyWithin (n + 1) s t u := by
  rw [unifyWithin, unifyWithin]
  split
  · next ht hu =>
    split
    · rfl
    · next hne =>
      split
      · rfl
      · rfl
      · split
        · next hl => exact h _ _ ht hu hne hl
        · rfl
      · rfl
  · rfl

theorem unifyWithin_succ (h : unifyWithin n s t u ≠ .error .endless) :
    unifyWithin (n + 1) s t u = unifyWithin n s t u := by
  induction n generalizing s t u with
  | zero => exact absurd rfl h
  | succ n ih =>
    -- a list of pairs that is solved without running out of levels is solved the same with one more
    have fold : ∀ (es : List (Term × Term)) s,
        es.foldlM (fun s e => unifyWithin n s e.1 e.2) s ≠ .error .endless →
        es.foldlM (fun s e => unifyWithin (n + 1) s e.1 e.2) s =
          es.foldlM (fun s e => unifyWithin n s e.1 e.2) s := by
      intro es
      induction es with
      | nil => intro s _; rfl
      | cons e es ihes =>
        intro s h
        rw [List.foldlM_cons, List.foldlM_cons] at *
        have hne : unifyWithin n s e.1 e.2 ≠ .error .endless := fun he => h (by rw [he]; rfl)
        rw [ih hne]
        match hr : unifyWithin n s e.1 e.2 with
        | .ok r => exact ihes r (by rw [hr] at h; exact h)
        | .error x => rfl
    refine unifyWithin_congr fun ts us ht hu hne hl => fold _ _ ?_
    simp only [unifyWithin, ht, hu, if_neg hne, if_pos hl] at h
    exact h

theorem unifyWithin_eq_of_le (h : unifyWithin n s t u ≠ .error .endless) (hm : n ≤ m) :
    unifyWithin m s t u = unifyWithin n s t u := by
  induction hm with
  | refl => rfl
  | step _ ih => rw [unifyWithin_succ (ih ▸ h), ih]

end Subst
end ProofSearch
