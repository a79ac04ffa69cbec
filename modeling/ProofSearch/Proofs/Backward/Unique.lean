import ProofSearch.Proofs.Backward.Soundness
import ProofSearch.Proofs.Search.AtMostOne

/-!
# Goals that are proved in one way at most

How often a goal is proved depends on what it can still become: its class, which the bindings to come must not take
it out of (`Stays`). One that only a single stored judgment matches, and that no application proves, is proved at
most once, by that match (`sole_of_stored`). One that nothing matches is proved by applications alone, so at most
once if that is said of the heads' goals and of the arguments' goals that their proofs lead to
(`sole_of_application`). Both are for arguments taken one at a time, with nothing assumed.
-/

namespace ProofSearch.Backward
open Search
variable {ν α : Type} {js : List Judgment} {F : Fault → Prop} {n : Nat} {q : Judgment} {r s : Subst}
variable {G H A : Judgment → Prop}

/-- Whatever the goal becomes by further bindings is in the class. -/
def Stays (G : Judgment → Prop) (g : Judgment) (s : Subst) : Prop :=
  ∀ r : Subst, r.Extends s → r.Acyclic → G (g.subst r.value)

theorem Stays.of_extends {g : Judgment} (h : Stays G g s) (hr : r.Extends s) : Stays G g r := fun r' hr' =>
  h r' fun v t hv => hr' v t (hr v t hv)

theorem atMostOne_unify (hs : s.Acyclic) {t u : Term} {k : Subst → Search ν α}
    (h : ∀ r, s.Unified [(t, u)] r → (k r).AtMostOne js n) : (ofUnify (s.unify t u) k).AtMostOne js n :=
  .ofUnify fun r hr => h r (Subst.unified_of_unify hs hr)

theorem barren_matchApart (hs : s.Acyclic) {is : List Judgment}
    (h : Stays (fun j => ∀ i ∈ is, ∀ f, j ≠ i.subst f) q s) :
    (matchApart q.term s is : Search ν Subst).Barren js n := by
  induction is generalizing n with
  | nil => trivial
  | cons i is ih =>
    refine Always.append (n := n + 1) (always_unify hs fun r hr => ?_) fun m _ =>
      ih fun r hr hr' j hj => h r hr hr' j (List.mem_cons_of_mem i hj)
    obtain ⟨f, hf⟩ := exists_eq_subst_of_unified hr
    exact absurd hf (h r hr.keeps hr.acyclic i List.mem_cons_self f)

theorem atMostOne_matchApart (hs : s.Acyclic) {is : List Judgment} (his : is.Nodup) {i₀ : Judgment}
    (h : Stays (fun j => ∀ i ∈ is, ∀ f, j = i.subst f → i = i₀) q s) :
    (matchApart q.term s is : Search ν Subst).AtMostOne js n := by
  induction is generalizing n with
  | nil => trivial
  | cons i is ih =>
    obtain ⟨hi, his⟩ := List.nodup_cons.1 his
    have hrest : Stays (fun j => ∀ i ∈ is, ∀ f, j = i.subst f → i = i₀) q s := fun r hr hr' j hj =>
      h r hr hr' j (List.mem_cons_of_mem i hj)
    show ((ofUnify (s.unify q.term (i.tag (ending n)).term) one).append _).AtMostOne js (n + 1)
    by_cases he : i = i₀
    · refine .append_left (atMostOne_unify hs fun r _ => .one r) fun m _ => barren_matchApart hs ?_
      intro r hr hr' j hj f hf
      have hij : j = i := (hrest r hr hr' j hj f hf).trans he.symm
      exact hi (hij ▸ hj)
    · refine .append_right (always_unify hs fun r hr => ?_) fun m _ => ih his hrest
      obtain ⟨f, hf⟩ := exists_eq_subst_of_unified hr
      exact absurd (h r hr.keeps hr.acyclic i List.mem_cons_self f hf) he

theorem atMostOne_base (hs : s.Acyclic) (hjs : js.Nodup) {i₀ : Judgment}
    (h : Stays (fun j => ∀ i ∈ js, ∀ f, j = i.subst f → i = i₀) q s) (traced : Bool) (level : Datum) :
    (base traced level {} q.term s).AtMostOne js n := by
  have hknown : (known {} q.term s : Search Note Subst).AtMostOne js n :=
    .append_left (t := stored q.term s) (atMostOne_matchApart hs hjs h) fun _ _ => trivial
  rw [base, event_eq hs, atMostOne_noteIf]
  refine hknown.bind (always_known (F := fun _ => False) (o := {}) (d := 0) hs) fun m r _ hr => ?_
  rw [event_eq hr.acyclic, atMostOne_noteIf]
  exact .one r

/-- Applied to one argument, a goal is proved in one way at most if its head is, and its argument with each proof
of the head. -/
theorem atMostOne_expand {prove : Term → Subst → Search Note Subst} {o : SearchOptions} {d : Nat}
    (hp : Proves o js d {} F prove) (hs : s.Acyclic)
    (hone : ∀ abs prm s₁ m, s₁.Extends s → s₁.Acyclic →
      let head := Judgment.mk (.var abs) (.arrow [.var prm] q.statement)
      (prove head.term s₁).AtMostOne js m ∧ ∀ i r, Proved o js d {} [head] s₁ i r →
        ∀ arg, (prove (Judgment.mk (.var arg) (.var prm)).term r).AtMostOne js i)
    (traced : Bool) (level : Datum) : (expand prove traced level q.term s 1).AtMostOne js n := by
  have hargs : ∀ k, (expand prove traced level q.term s k).AtMostOne js n ↔
      (drawVars "arg" k fun args =>
        ofUnify (s.unify q.proof (.tuple ((Var.drawn "abs" n :: args).map .var))) fun s =>
          event traced .expand level s q.term fun _ => drawVars "prms" k fun prms =>
            (prove (Judgment.mk (.var (Var.drawn "abs" n)) (.arrow (prms.map .var) q.statement)).term s).bind
              (proveAll prove (goals args prms))).AtMostOne js (n + 1) := fun k => Iff.rfl
  rw [hargs, atMostOne_drawVars]
  refine atMostOne_unify hs fun s₁ h₁ => ?_
  rw [event_eq h₁.acyclic, atMostOne_noteIf, atMostOne_drawVars]
  obtain ⟨hhead, harg⟩ := hone _ _ s₁ _ h₁.keeps h₁.acyclic
  refine hhead.bind (hp ⟨_, .arrow [_] q.statement⟩ s₁ _ h₁.acyclic) fun i r₁ _ hr₁ => ?_
  show ((prove _ r₁).bind one).AtMostOne js i
  rw [bind_one]
  exact harg i r₁ hr₁ _

/-- A goal that stays in the class is proved in one way at most, within whatever depth. -/
def Sole (js : List Judgment) (G : Judgment → Prop) : Prop :=
  ∀ (d : Nat) (g : Judgment) (s : Subst) (n : Nat), s.Acyclic → Stays G g s →
    (solve {} d {} g.term s).AtMostOne js n

theorem Sole.results (h : Sole js G) {d : Nat} (hq : Stays G q .empty) :
    (results {} d {} q.term).AtMostOne js n :=
  (h d q .empty n Subst.acyclic_empty hq).bind (proves_solve rfl d {} q .empty n Subst.acyclic_empty)
    fun _ _ _ _ => .ofOption .one

theorem sole_of_stored (i₀ : Judgment) (hjs : js.Nodup)
    (hG : ∀ j, G j → ∀ i ∈ js, ∀ f, j = i.subst f → i = i₀)
    (htuple : ∀ d j ts, G j → Derivable {} js d {} j → j.proof ≠ .tuple ts) : Sole js G := by
  intro d g s n hs hg
  have hbase : ∀ level, (base false level {} g.term s).AtMostOne js n :=
    atMostOne_base hs hjs (fun r hr hr' => hG _ (hg r hr hr')) false
  cases d with
  | zero => exact hbase _
  | succ d =>
    refine .append_left (hbase _) fun m _ => Always.append (.ofList_bind fun k hk i _ => ?_) fun _ _ => trivial
    refine (always_expand_tuple (proves_solve rfl d {}) hs false _ hk).barren fun _ r h => ?_
    obtain ⟨hr, ts, hts⟩ := h
    have hd := hr.derivable g (List.mem_singleton_self g)
    exact htuple _ _ ts (hg r hr.keeps hr.acyclic) hd hts

theorem sole_of_application (hunknown : ∀ j, G j → ¬ Known js {} j) (hH : Sole js H) (hA : Sole js A)
    (hhead : ∀ j head x, G j → H ⟨head, .arrow [x] j.statement⟩)
    (harg : ∀ d j head x arg, G j → Derivable {} js d {} ⟨head, .arrow [x] j.statement⟩ → A ⟨arg, x⟩) :
    Sole js G := by
  intro d g s n hs hg
  have hbase : ∀ level, (base false level {} g.term s).Barren js n := fun level => by
    refine (always_base (F := fun _ => False) (o := {}) (d := 0) hs false level).barren fun _ r hr => ?_
    exact hunknown _ (hg r hr.keeps hr.acyclic) (hr.derivable g (List.mem_singleton_self g)).known
  cases d with
  | zero => exact .of_barren (hbase _)
  | succ d =>
    refine .append_right (hbase _) fun m _ => .append_left (.append_left ?_ fun _ _ => trivial) fun _ _ => trivial
    refine atMostOne_expand (proves_solve rfl d {}) hs (fun abs prm s₁ i h₁ hs₁ => ?_) false _
    refine ⟨hH d _ s₁ i hs₁ fun r hr hr' => ?_, fun i r₁ hr₁ arg => hA d _ r₁ i hr₁.acyclic fun r hr hr' => ?_⟩
    · rw [Judgment.subst, Term.subst_arrow]
      exact hhead _ _ _ (hg.of_extends h₁ r hr hr')
    · have hd := (hr₁.derivable _ (List.mem_singleton_self _)).of_extends hr₁.acyclic hr' hr
      rw [Judgment.subst, Term.subst_arrow] at hd
      exact harg d _ _ _ _ (hg.of_extends (fun v t hv => hr₁.keeps v t (h₁ v t hv)) r hr hr') hd

end ProofSearch.Backward
