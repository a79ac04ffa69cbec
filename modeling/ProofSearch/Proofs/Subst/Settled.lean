import ProofSearch.Proofs.Fresh
import ProofSearch.Term.Parts

/-!
# Settled bindings

Reading a substitution and unifying terms under it bring in no name: what they come to is settled where the
bindings and the terms are (`Settled.instantiate?`, `Settled.unify`). Unlike with `Subst.Unified.settled`,
nothing is asked of cycles, so this holds of any bindings that a search is begun with.
-/

namespace ProofSearch
variable {n : Nat} {t u a b : Term} {s r : Subst} {v : Var}

namespace Term

theorem Settled.subst? {p : Var → Option Term} (ht : t.Settled n)
    (hp : ∀ (v : Var) (u : Term), v.Settled n → p v = some u → u.Settled n) (h : t.subst? p = some u) :
    u.Settled n := by
  induction t using Term.induction generalizing u with
  | var v => exact hp v u (settled_var.1 ht) h
  | sym c =>
    cases h
    exact settled_sym c
  | tuple ts ih =>
    obtain ⟨us, hus, rfl⟩ := subst?_tuple_eq_some_iff.1 h
    rw [settled_tuple] at ht ⊢
    induction hus with
    | nil => exact ht
    | @cons t u ts us hu hus ihs =>
      obtain ⟨htop, ht⟩ := List.forall_mem_cons.1 ht
      obtain ⟨ihtop, ih⟩ := List.forall_mem_cons.1 ih
      exact List.forall_mem_cons.2 ⟨ihtop htop hu, ihs ih ht (subst?_tuple_eq_some_iff.2 ⟨us, hus, rfl⟩)⟩

/-- One character alone is no variable. -/
theorem settled_ofText_char (c : Char) (n : Nat) : (ofText c.toString).Settled n := by
  have hc : ¬ marked c.toString = true := by simp [marked]
  rw [ofText, dif_neg hc]
  exact settled_sym _

theorem Settled.halves (ht : t.Settled n) (h : t.halves = .ok (a, b)) : a.Settled n ∧ b.Settled n := by
  have chars : ∀ cs, halves.ofChars cs = .ok (a, b) → a.Settled n ∧ b.Settled n := by
    intro cs hcs
    unfold halves.ofChars at hcs
    split at hcs
    · cases hcs
      exact ⟨settled_ofText_char _ n, settled_ofText_char _ n⟩
    · cases hcs
  unfold Term.halves at h
  split at h
  · cases h
    rw [settled_tuple] at ht
    exact ⟨ht a (by simp), ht b (by simp)⟩
  · cases h
  · exact chars _ h
  · exact chars _ h

theorem Settled.item {i : Nat} (ht : t.Settled n) (h : t.item i = .ok u) : u.Settled n := by
  have found : ∀ x : Option Term, (match x with
      | some v => (.ok v : Except Fault Term)
      | none => .error .outOfRange) = .ok u → x = some u := by
    intro x hx
    split at hx
    · cases hx
      rfl
    · cases hx
  have chars : ∀ cs : List Char, cs[i]?.map (fun c => ofText c.toString) = some u → u.Settled n := by
    intro cs hcs
    obtain ⟨c, _, rfl⟩ := Option.map_eq_some_iff.1 hcs
    exact settled_ofText_char c n
  cases t with
  | var w => exact chars _ (found _ h)
  | sym c => exact chars _ (found _ h)
  | tuple ts => exact settled_tuple.1 ht u (List.mem_of_getElem? (found _ h))

end Term

namespace Subst

theorem Settled.resolveWithin (hs : s.Settled n) (k : Nat) (hv : v.Settled n)
    (h : s.resolveWithin k v = some t) : t.Settled n := by
  induction k generalizing v t with
  | zero =>
    unfold Subst.resolveWithin at h
    split at h
    · cases h
    · cases h
      exact Term.settled_var.2 hv
  | succ k ih =>
    unfold Subst.resolveWithin at h
    split at h
    · cases h
      exact Term.settled_var.2 hv
    · next hg => exact (hs v _ hg).2.subst? (fun w u hw hu => ih hw hu) h

theorem Settled.instantiate? (hs : s.Settled n) (ht : t.Settled n) (h : s.instantiate? t = some u) :
    u.Settled n :=
  ht.subst? (fun _ _ hv hu => hs.resolveWithin _ hv hu) h

theorem Settled.walkWithin (hs : s.Settled n) (k : Nat) (ht : t.Settled n)
    (h : s.walkWithin k t = some u) : u.Settled n := by
  induction k generalizing t with
  | zero =>
    cases t with
    | var v =>
      rw [Subst.walkWithin] at h
      split at h
      · cases h
      · cases h
        exact ht
    | sym c =>
      cases h
      exact ht
    | tuple ts =>
      cases h
      exact ht
  | succ k ih =>
    cases t with
    | var v =>
      rw [Subst.walkWithin] at h
      split at h
      · cases h
        exact ht
      · next hg => exact ih (hs v _ hg).2 h
    | sym c =>
      rw [Subst.walkWithin] at h
      cases h
      exact ht
    | tuple ts =>
      rw [Subst.walkWithin] at h
      cases h
      exact ht

theorem Settled.bind (hs : s.Settled n) (hv : v.Settled n) (ht : t.Settled n) : (s.bind v t).Settled n := by
  intro w u hw
  rw [get?_bind] at hw
  split at hw
  · next heq =>
    cases hw
    exact ⟨Term.settled_var.2 (heq ▸ hv), ht⟩
  · exact hs w u hw

theorem Settled.assign (hs : s.Settled n) (hv : v.Settled n) (ht : t.Settled n)
    (h : s.assign v t = .ok r) : r.Settled n := by
  unfold Subst.assign at h
  split at h
  · cases h
  · split at h
    · cases h
    · cases h
      exact hs.bind hv ht

theorem Settled.foldlM {run : Subst → Term × Term → Except Refusal Subst} {es : List (Term × Term)}
    (hrun : ∀ s e r, s.Settled n → e ∈ es → run s e = .ok r → r.Settled n) (hs : s.Settled n)
    (h : es.foldlM run s = .ok r) : r.Settled n := by
  induction es generalizing s with
  | nil =>
    cases h
    exact hs
  | cons e es ih =>
    rw [List.foldlM_cons] at h
    cases hr : run s e with
    | error x =>
      rw [hr] at h
      cases h
    | ok r' =>
      rw [hr] at h
      have hr' := hrun s e r' hs List.mem_cons_self hr
      exact ih (fun s e' r hs he' => hrun s e' r hs (List.mem_cons_of_mem e he')) hr' h

theorem Settled.unifyWithin (hs : s.Settled n) (k : Nat) (ht : t.Settled n) (hu : u.Settled n)
    (h : unifyWithin k s t u = .ok r) : r.Settled n := by
  induction k generalizing s t u r with
  | zero => cases h
  | succ k ih =>
    unfold Subst.unifyWithin at h
    split at h
    · next t' u' ht' hu' =>
      have ht' := hs.walkWithin _ ht ht'
      have hu' := hs.walkWithin _ hu hu'
      split at h
      · cases h
        exact hs
      · split at h
        · exact hs.assign (Term.settled_var.1 ht') hu' h
        · exact hs.assign (Term.settled_var.1 hu') ht' h
        · next ts us =>
          rw [Term.settled_tuple] at ht' hu'
          split at h
          · refine Settled.foldlM (fun s e r hs he hr => ?_) hs h
            exact ih hs (ht' _ (List.of_mem_zip he).1) (hu' _ (List.of_mem_zip he).2) hr
          · cases h
        · cases h
    · cases h

theorem Settled.unify (hs : s.Settled n) (ht : t.Settled n) (hu : u.Settled n) (h : s.unify t u = .ok r) :
    r.Settled n :=
  hs.unifyWithin _ ht hu h

end Subst
end ProofSearch
