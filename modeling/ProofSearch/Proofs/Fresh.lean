import ProofSearch.Environment
import ProofSearch.Proofs.Subst.Unifier

/-!
# Names still to be drawn

A variable that does not end in a number still to be drawn (`Settled`) is none of those to come: the
digits behind the last underscore tell the draw (`eq_of_endings`). What is made of settled terms and of
names drawn on the way is settled at the counter reached. Stored judgments come with names of one draw
each, so nothing is asked of the variables they are written with.
-/

namespace ProofSearch
variable {k m n : Nat} {v w : Var} {t u : Term} {s r : Subst} {es : List (Term × Term)}

theorem underscore_notMem_digits (n : Nat) : '_' ∉ (toString n).toList := by
  rw [Nat.toString_eq_repr, Nat.toList_repr]
  exact Nat.underscore_not_in_toDigits

theorem eq_of_ending_suffix (h : (ending k).toList <:+ (ending n).toList) : k = n := by
  rw [ending_toList, ending_toList, List.suffix_cons_iff] at h
  rcases h with h | h
  · rw [List.cons.injEq, Nat.toString_eq_repr, Nat.toString_eq_repr, Nat.toList_repr, Nat.toList_repr] at h
    rw [← Nat.ofDigitChars_ten_toDigits (n := k), h.2, Nat.ofDigitChars_ten_toDigits]
  · exact absurd (h.subset List.mem_cons_self) (underscore_notMem_digits n)

/-- A text ends in the number of one draw at most. -/
theorem eq_of_endings {cs : List Char} (hk : (ending k).toList <:+ cs) (hn : (ending n).toList <:+ cs) :
    k = n := by
  rcases List.suffix_or_suffix_of_suffix hk hn with h | h
  · exact eq_of_ending_suffix h
  · exact (eq_of_ending_suffix h).symm

namespace Var

/-- The variable ends in no number from `n` on. -/
def Settled (n : Nat) (v : Var) : Prop := ∀ k, n ≤ k → ¬ (ending k).toList <:+ v.text.toList

theorem Settled.mono (h : v.Settled n) (hm : n ≤ m) : v.Settled m := fun k hk => h k (hm.trans hk)

theorem settled_of_underscore_notMem (h : '_' ∉ v.text.toList) (n : Nat) : v.Settled n := fun k _ hk =>
  h (hk.subset (by rw [ending_toList]; exact List.mem_cons_self))

theorem settled_of_ending (h : (ending n).toList <:+ v.text.toList) (hm : n < m) : v.Settled m :=
  fun k hk he => by have := eq_of_endings he h; omega

theorem ending_suffix_drawn (stem : String) (n : Nat) :
    (ending n).toList <:+ (drawn stem n).text.toList := by
  simp only [drawn, String.toList_append]
  exact (List.suffix_append _ _).trans (List.suffix_append _ _)

theorem ending_suffix_tag (n : Nat) (v : Var) : (ending n).toList <:+ (v.tag (ending n)).text.toList := by
  simp only [tag, String.toList_append]
  exact List.suffix_append _ _

theorem settled_drawn (stem : String) (h : n < m) : (drawn stem n).Settled m :=
  settled_of_ending (ending_suffix_drawn stem n) h

theorem settled_tag (v : Var) (h : n < m) : (v.tag (ending n)).Settled m :=
  settled_of_ending (ending_suffix_tag n v) h

/-- The variables of `k` draws, the first of them number `n`. -/
def drawnList (stem : String) : (n k : Nat) → List Var
  | _, 0 => []
  | n, k + 1 => drawn stem n :: drawnList stem (n + 1) k

@[simp] theorem length_drawnList (stem : String) (n k : Nat) : (drawnList stem n k).length = k := by
  induction k generalizing n with
  | zero => rfl
  | succ k ih => rw [drawnList, List.length_cons, ih]

theorem mem_drawnList {stem : String} (h : v ∈ drawnList stem n k) :
    ∃ i, n ≤ i ∧ i < n + k ∧ v = drawn stem i := by
  induction k generalizing n with
  | zero => cases h
  | succ k ih =>
    rcases List.mem_cons.1 h with rfl | h
    · exact ⟨n, Nat.le_refl n, by omega, rfl⟩
    · obtain ⟨i, hn, hi, rfl⟩ := ih h
      exact ⟨i, by omega, by omega, rfl⟩

theorem not_settled_drawn (stem : String) (h : m ≤ n) : ¬ (drawn stem n).Settled m := fun hset =>
  hset n h (ending_suffix_drawn stem n)

theorem not_settled_of_mem_drawnList {stem : String} (h : v ∈ drawnList stem n k) (hm : m ≤ n) :
    ¬ v.Settled m := by
  obtain ⟨i, hi, _, rfl⟩ := mem_drawnList h
  exact not_settled_drawn stem (hm.trans hi)

theorem nodup_drawnList (stem : String) (n k : Nat) : (drawnList stem n k).Nodup := by
  induction k generalizing n with
  | zero => exact List.nodup_nil
  | succ k ih =>
    rw [drawnList, List.nodup_cons]
    refine ⟨fun h => not_settled_of_mem_drawnList h (Nat.le_refl _) ?_, ih (n + 1)⟩
    exact settled_drawn stem (Nat.lt_succ_self n)

theorem settled_of_mem_drawnList {stem : String} (h : v ∈ drawnList stem n k) (hm : n + k ≤ m) :
    v.Settled m := by
  obtain ⟨i, _, hi, rfl⟩ := mem_drawnList h
  exact settled_drawn stem (by omega)

theorem tag_ne (v : Var) (n : Nat) : v.tag (ending n) ≠ v := fun h => by
  have hlen : (v.text ++ ending n).toList.length = v.text.toList.length :=
    congrArg (fun w : Var => w.text.toList.length) h
  simp [ending_toList] at hlen

theorem tag_inj {e : String} (h : v.tag e = w.tag e) : v = w := by
  obtain ⟨a, ha⟩ := v
  obtain ⟨b, hb⟩ := w
  have : a ++ e = b ++ e := congrArg Var.text h
  obtain rfl := (String.append_left_inj e).1 this
  rfl

end Var

namespace Term

def Settled (n : Nat) (t : Term) : Prop := ∀ v ∈ t.vars, v.Settled n

theorem Settled.mono (h : t.Settled n) (hm : n ≤ m) : t.Settled m := fun v hv => (h v hv).mono hm

theorem settled_of_underscore_notMem (h : ∀ v ∈ t.vars, '_' ∉ v.text.toList) (n : Nat) : t.Settled n :=
  fun v hv => Var.settled_of_underscore_notMem (h v hv) n

@[simp] theorem settled_var : (var v).Settled n ↔ v.Settled n := by simp [Settled]

@[simp] theorem settled_sym (c : Sym) : (sym c).Settled n := fun v hv => by simp at hv

@[simp] theorem settled_tuple {ts : List Term} : (tuple ts).Settled n ↔ ∀ t ∈ ts, t.Settled n :=
  ⟨fun h t ht v hv => h v (mem_vars_tuple.2 ⟨t, ht, hv⟩), fun h v hv =>
    let ⟨t, ht, hv⟩ := mem_vars_tuple.1 hv; h t ht v hv⟩

theorem settled_arrow {premises : List Term} {conclusion : Term} :
    (arrow premises conclusion).Settled n ↔ (∀ p ∈ premises, p.Settled n) ∧ conclusion.Settled n := by
  simp [arrow, or_imp, forall_and]

theorem settled_abstraction {x body : Term} :
    (abstraction x body).Settled n ↔ x.Settled n ∧ body.Settled n := by
  simp [abstraction]

theorem settled_judgment {j : Judgment} : j.term.Settled n ↔ j.proof.Settled n ∧ j.statement.Settled n := by
  simp [Judgment.term]

theorem settled_tag (t : Term) (h : n < m) : (t.tag (ending n)).Settled m := fun v hv => by
  obtain ⟨w, _, hw⟩ := mem_vars_subst.1 hv
  rw [vars_var, List.mem_singleton] at hw
  exact hw ▸ w.settled_tag h

/-- A drawn symbol has no variable. -/
theorem settled_drawnAtom {c : Char} {stem : String} (hc : c ≠ '$') (hs : stem.toList = [c]) (n k : Nat) :
    (drawnAtom stem k).Settled n := by
  have : marked (stem ++ toString k) = false := by
    unfold marked
    rw [String.toList_append, hs]
    split
    · next he => exact absurd (List.cons.inj he).1 hc
    · rfl
  rw [drawnAtom, ofText, dif_neg (by rw [this]; exact Bool.false_ne_true)]
  exact settled_sym _

end Term

namespace Subst

def Settled (n : Nat) (s : Subst) : Prop :=
  ∀ v t, s.get? v = some t → (Term.var v).Settled n ∧ t.Settled n

theorem Settled.mono (h : s.Settled n) (hm : n ≤ m) : s.Settled m := fun v t hv =>
  (h v t hv).imp (·.mono hm) (·.mono hm)

theorem settled_empty (n : Nat) : empty.Settled n := fun v t hv => by cases hv

theorem Unified.settled (h : Unified s es r) (hs : s.Settled n)
    (hes : ∀ e ∈ es, e.1.Settled n ∧ e.2.Settled n) : r.Settled n :=
  h.closed (fun _ _ h hu => Term.settled_tuple.1 h _ hu) hs hes

theorem Settled.subst_value (h : s.Settled n) (hs : s.Acyclic) (ht : t.Settled n) :
    (t.subst s.value).Settled n := by
  have value : ∀ v : Var, v.Settled n → (s.value v).Settled n := fun v hv => by
    induction v using hs.induction with
    | step v ih =>
      cases hg : s.get? v with
      | none => rw [value_of_get?_none hg]; simpa using hv
      | some u =>
        rw [hs.value_of_get? hg]
        intro w hw
        obtain ⟨x, hx, hw⟩ := Term.mem_vars_subst.1 hw
        exact ih x ⟨u, hg, hx⟩ ((h v u hg).2 x hx) w hw
  intro w hw
  obtain ⟨v, hv, hw⟩ := Term.mem_vars_subst.1 hw
  exact value v (ht v hv) w hw

end Subst

def Environment.Settled (n : Nat) (env : Environment) : Prop := ∀ j ∈ env.entries, j.term.Settled n

theorem Environment.Settled.extend {env : Environment} {j : Judgment} (h : env.Settled n)
    (hj : j.term.Settled n) : (env.extend j).Settled n :=
  List.forall_mem_append.2 ⟨h, List.forall_mem_singleton.2 hj⟩

theorem Environment.Settled.mono {env : Environment} (h : env.Settled n) (hm : n ≤ m) : env.Settled m :=
  fun j hj => (h j hj).mono hm

end ProofSearch
