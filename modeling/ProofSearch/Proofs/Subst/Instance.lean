import ProofSearch.Proofs.Subst.Overlap
import ProofSearch.Subst.Instance

/-!
# One-way matching

A match gives the pattern's variables values under which the pattern becomes the term (`eq_of_instance?`). The
term's own variables have no part in it, so a pattern and a term that match overlap, whatever names they share.
Whatever values do the same, the match is found, and they agree with it (`exists_instance?`); so what it binds is
the least that turns the pattern into the term (`instance?_least`).
-/

namespace ProofSearch.Subst
variable {s r r' : Subst} {p t u : Term} {ps ts : List Term} {f : Var → Term}

/-- What the variable is bound to, read once. -/
def bound (s : Subst) (v : Var) : Term := (s.get? v).getD (.var v)

theorem bound_of_get? {v : Var} (h : s.get? v = some t) : s.bound v = t := by rw [bound, h]; rfl

/-- Once the term has been matched, the pattern is the term under whatever bindings are added. -/
structure Matched (s : Subst) (p t : Term) (r : Subst) : Prop where
  keeps : r.Extends s
  eq : ∀ r' : Subst, r'.Extends r → p.subst r'.bound = t

theorem matched_var {v : Var} (h : s.instance? (.var v) t = some r) : Matched s (.var v) t r := by
  rw [instance?] at h
  cases hv : s.get? v with
  | none =>
    rw [hv] at h
    obtain rfl := Option.some.inj h
    exact ⟨extends_bind hv t, fun r' hr => bound_of_get? (hr v t (get?_bind_self s v t))⟩
  | some u =>
    rw [hv] at h
    replace h : (if u = t then some s else none) = some r := h
    split at h
    · next hu =>
      obtain rfl := Option.some.inj h
      exact ⟨fun _ _ h => h, fun r' hr => bound_of_get? (hr v t (hu ▸ hv))⟩
    · cases h

theorem matched_all (ih : ∀ p ∈ ps, ∀ (s r : Subst) (t : Term), s.instance? p t = some r → Matched s p t r)
    (h : s.instanceAll? ps ts = some r) :
    r.Extends s ∧ ∀ r' : Subst, r'.Extends r → ps.map (Term.subst r'.bound) = ts := by
  induction ps generalizing s ts with
  | nil =>
    cases ts with
    | nil =>
      obtain rfl := Option.some.inj h
      exact ⟨fun _ _ h => h, fun _ _ => rfl⟩
    | cons t ts => cases h
  | cons p ps ihps =>
    cases ts with
    | nil => cases h
    | cons t ts =>
      obtain ⟨hp, hps⟩ := List.forall_mem_cons.1 ih
      rw [instanceAll?] at h
      cases hm : s.instance? p t with
      | none => rw [hm] at h; cases h
      | some m =>
        rw [hm] at h
        obtain ⟨keeps, heq⟩ := hp s m t hm
        obtain ⟨keeps', heq'⟩ := ihps hps h
        refine ⟨fun v u hv => keeps' v u (keeps v u hv), fun r' hr => ?_⟩
        rw [List.map_cons, heq r' fun v u hv => hr v u (keeps' v u hv), heq' r' hr]

theorem matched_of_instance? (h : s.instance? p t = some r) : Matched s p t r := by
  induction p using Term.induction generalizing s r t with
  | var v => exact matched_var h
  | sym c =>
    cases t with
    | sym d =>
      rw [instance?] at h
      split at h
      · next hc =>
        obtain rfl := Option.some.inj h
        exact ⟨fun _ _ h => h, fun _ _ => congrArg Term.sym hc⟩
      · cases h
    | var v => cases h
    | tuple ts => cases h
  | tuple ps ih =>
    cases t with
    | tuple ts =>
      obtain ⟨keeps, heq⟩ := matched_all (fun p hp s r t => ih p hp) h
      exact ⟨keeps, fun r' hr => by rw [Term.subst_tuple, heq r' hr]⟩
    | var v => cases h
    | sym d => cases h

theorem eq_of_instance? (h : s.instance? p t = some r) : p.subst r.bound = t :=
  (matched_of_instance? h).eq r fun _ _ h => h

theorem overlaps_of_instance? (h : s.instance? p t = some r) : t.Overlaps p :=
  ⟨.var, r.bound, by rw [Term.subst_id, eq_of_instance? h]⟩

/-! ### The least match -/

/-- On the variables bound the assignment has the values they are bound to. -/
def AgreesWith (s : Subst) (f : Var → Term) : Prop := ∀ v t, s.get? v = some t → f v = t

theorem AgreesWith.bind (h : s.AgreesWith f) (v : Var) : (s.bind v (f v)).AgreesWith f := fun w u hw => by
  rw [get?_bind] at hw
  split at hw
  · next he => exact he ▸ Option.some.inj hw
  · exact h w u hw

theorem exists_instanceAll? (ih : ∀ p ∈ ps, ∀ s : Subst, s.AgreesWith f →
      ∃ r, s.instance? p (p.subst f) = some r ∧ r.AgreesWith f) (h : s.AgreesWith f) :
    ∃ r, s.instanceAll? ps (ps.map (Term.subst f)) = some r ∧ r.AgreesWith f := by
  induction ps generalizing s with
  | nil => exact ⟨s, rfl, h⟩
  | cons p ps ihps =>
    obtain ⟨hp, hps⟩ := List.forall_mem_cons.1 ih
    obtain ⟨m, hm, hmf⟩ := hp s h
    obtain ⟨r, hr, hrf⟩ := ihps hps hmf
    refine ⟨r, ?_, hrf⟩
    rw [List.map_cons, instanceAll?, hm]
    exact hr

/-- What an assignment makes of the pattern is matched, with bindings that the assignment agrees with. -/
theorem exists_instance? (h : s.AgreesWith f) :
    ∃ r, s.instance? p (p.subst f) = some r ∧ r.AgreesWith f := by
  induction p using Term.induction generalizing s with
  | var v =>
    rw [Term.subst_var, instance?]
    cases hv : s.get? v with
    | none => exact ⟨_, rfl, h.bind v⟩
    | some u => exact ⟨s, if_pos (h v u hv).symm, h⟩
  | sym c => exact ⟨s, if_pos rfl, h⟩
  | tuple ps ih =>
    rw [Term.subst_tuple]
    exact exists_instanceAll? (fun p hp s => ih p hp) h

theorem isSome_get?_of_instanceAll?
    (ih : ∀ p ∈ ps, ∀ (s r : Subst) (t : Term), s.instance? p t = some r →
      ∀ v, (r.get? v).isSome ↔ (s.get? v).isSome ∨ v ∈ p.vars)
    (h : s.instanceAll? ps ts = some r) (v : Var) :
    (r.get? v).isSome ↔ (s.get? v).isSome ∨ ∃ p ∈ ps, v ∈ p.vars := by
  induction ps generalizing s ts with
  | nil =>
    cases ts with
    | nil =>
      obtain rfl := Option.some.inj h
      simp
    | cons t ts => cases h
  | cons p ps ihps =>
    cases ts with
    | nil => cases h
    | cons t ts =>
      obtain ⟨hp, hps⟩ := List.forall_mem_cons.1 ih
      rw [instanceAll?] at h
      cases hm : s.instance? p t with
      | none => rw [hm] at h; cases h
      | some m =>
        rw [hm] at h
        rw [ihps hps h, hp s m t hm, or_assoc, List.exists_mem_cons_iff]

/-- The variables of the pattern come to be bound, and no others. -/
theorem isSome_get?_of_instance? (h : s.instance? p t = some r) (v : Var) :
    (r.get? v).isSome ↔ (s.get? v).isSome ∨ v ∈ p.vars := by
  induction p using Term.induction generalizing s r t v with
  | var w =>
    rw [Term.vars_var, List.mem_singleton]
    rw [instance?] at h
    cases hw : s.get? w with
    | none =>
      rw [hw] at h
      obtain rfl := Option.some.inj h
      rw [get?_bind]
      split <;> simp [*]
    | some u =>
      rw [hw] at h
      obtain ⟨-, hr⟩ := Option.ite_none_right_eq_some.1 h
      obtain rfl := Option.some.inj hr
      refine ⟨.inl, fun hv => hv.elim id ?_⟩
      rintro rfl
      rw [hw]
      rfl
  | sym c =>
    cases t with
    | sym d =>
      obtain ⟨-, hr⟩ := Option.ite_none_right_eq_some.1 h
      obtain rfl := Option.some.inj hr
      simp
    | var v => cases h
    | tuple ts => cases h
  | tuple ps ih =>
    cases t with
    | tuple ts =>
      rw [Term.mem_vars_tuple]
      exact isSome_get?_of_instanceAll? (fun p hp s r t h v => ih p hp h v) h v
    | var v => cases h
    | sym d => cases h

/-- A pattern is matched with a term just when some assignment of values, put in place of the pattern's
variables all at once, turns it into the term and agrees with what is bound already. The bindings found do so,
each read once; every such assignment agrees with them, and nothing is bound beside what was and the variables
of the pattern. -/
theorem instance?_least (s : Subst) (p t : Term) :
    ((∃ r, s.instance? p t = some r) ↔ ∃ f, s.AgreesWith f ∧ p.subst f = t) ∧
    ∀ r, s.instance? p t = some r → r.Extends s ∧ p.subst r.bound = t ∧
      (∀ f, s.AgreesWith f → p.subst f = t → r.AgreesWith f) ∧
      ∀ v, (r.get? v).isSome ↔ (s.get? v).isSome ∨ v ∈ p.vars := by
  refine ⟨⟨fun ⟨r, hr⟩ => ⟨r.bound, fun v u hv => ?_, eq_of_instance? hr⟩, ?_⟩, fun r hr => ?_⟩
  · exact bound_of_get? ((matched_of_instance? hr).keeps v u hv)
  · rintro ⟨f, hf, rfl⟩
    obtain ⟨r, hr, -⟩ := exists_instance? (p := p) hf
    exact ⟨r, hr⟩
  · refine ⟨(matched_of_instance? hr).keeps, eq_of_instance? hr, ?_, isSome_get?_of_instance? hr⟩
    rintro f hf rfl
    obtain ⟨r', hr', hrf⟩ := exists_instance? (p := p) hf
    obtain rfl : r = r' := Option.some.inj (hr.symm.trans hr')
    exact hrf

/-- `$x` stands for `$y`, and `$y` for `a`; the first is not read on into the second. -/
example :
    let x : Var := ⟨"$x", rfl⟩
    let y : Var := ⟨"$y", rfl⟩
    let a : Term := .ofText "a"
    empty.instance? (.tuple [.var x, .var y]) (.tuple [.var y, a]) = some ⟨[(y, a), (x, .var y)]⟩ := by decide

end ProofSearch.Subst
