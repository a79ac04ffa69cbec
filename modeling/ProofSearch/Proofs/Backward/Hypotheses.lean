import ProofSearch.Proofs.Backward.Monotone

/-!
# Ground hypotheses

An entry of the environment stands as it is, a judgment stored is renamed each time it is looked at. For a
judgment without variables the two come to the same, so ground entries of the environment may as well be
stored behind the judgments there are (`read_results_assumed`). What is stored draws a number at every goal,
and what is assumed does not. So ground judgments are looked at in two searches that draw the line between
stored and assumed at different places among them (`embeds_ground`), whatever abstractions have moved into
the scope since (`scopes_divided`), and neither search gives more than the other.
-/

namespace ProofSearch

theorem Judgment.image_of_ground {symbols : Bool} {l : Pairing symbols} {j : Judgment}
    (hj : j.term.vars = []) (hkept : j.Kept l) : Term.Image l j.term j.term := fun π hπ =>
  Term.rename_eq_self (fun c hc => hkept c hc π hπ) fun v hv => by
    rw [hj] at hv
    cases hv

namespace Search
variable {ν : Type} {p : Placement} {js js' hyps : List Judgment} {symbols : Bool} {l : Pairing symbols}
variable {s s' : Subst} {q q' : Term}

theorem matchApart_append (q : Term) (s : Subst) (is is' : List Judgment) :
    (matchApart q s (is ++ is') : Search ν Subst) =
      (matchApart q s is).append fun _ => matchApart q s is' := by
  induction is with
  | nil => rfl
  | cons i is ih =>
    simp only [List.cons_append, matchApart, ih]
    refine congrArg draw (funext fun n => ?_)
    rw [append_assoc]

theorem matchAll_append (q : Term) (s : Subst) (is is' : List Judgment) :
    (matchAll q s (is ++ is') : Search ν Subst) = (matchAll q s is).append fun _ => matchAll q s is' := by
  induction is with
  | nil => rfl
  | cons i is ih =>
    simp only [List.cons_append, matchAll, ih]
    rw [append_assoc]

/-- The number drawn for a ground judgment is of no use. -/
theorem matchApart_cons_of_ground {j : Judgment} (hj : j.term.vars = []) (q : Term) (s : Subst)
    (is : List Judgment) : (matchApart q s (j :: is) : Search ν Subst) =
      .draw fun _ => (ofUnify (s.unify q j.term) one).append fun _ => matchApart q s is := by
  have htag : ∀ n, j.tag (ending n) = j := fun n => Judgment.subst_eq_self hj _
  simp only [matchApart, htag]

/-- Ground judgments of which the first ones are stored and the others assumed, wherever the line is drawn. -/
theorem embeds_ground {stored assumed stored' assumed' : List Judgment}
    (hl : stored ++ assumed = hyps) (hr : stored' ++ assumed' = hyps)
    (hground : ∀ j ∈ hyps, j.term.vars = []) (hkept : ∀ j ∈ hyps, j.Kept l) (hs : Subst.Image l s s')
    (hq : Term.Image l q q') :
    Embeds p js js' Subst.Image l
      ((matchApart q s stored : Search ν Subst).append fun _ => matchAll q s assumed)
      ((matchApart q' s' stored').append fun _ => matchAll q' s' assumed') := by
  induction hyps generalizing l stored stored' assumed assumed' with
  | nil =>
    obtain ⟨rfl, rfl⟩ := List.append_eq_nil_iff.1 hl
    exact .nil
  | cons j hyps ih =>
    obtain ⟨hj, hground⟩ := List.forall_mem_cons.1 hground
    obtain ⟨hkeptj, hkept⟩ := List.forall_mem_cons.1 hkept
    have both : ∀ (l₁ : Pairing symbols) {t t' : Unit → Search ν Subst}, l.GrowsTo l₁ →
        (∀ l₂, l.GrowsTo l₂ → Embeds p js js' Subst.Image l₂ (t ()) (t' ())) →
        Embeds p js js' Subst.Image l₁ ((ofUnify (s.unify q j.term) one).append t)
          ((ofUnify (s'.unify q' j.term) one).append t') := by
      intro l₁ t t' hl₁ hrest
      have himage := (Judgment.image_of_ground hj hkeptj).mono hl₁
      exact Embeds.append (.unify (hs.mono hl₁) (hq.mono hl₁) himage fun r r' hr => .one hr)
        fun l₂ hl₂ => hrest l₂ (hl₁.trans hl₂)
    have rest : ∀ {stored assumed stored' assumed' : List Judgment} (l₂ : Pairing symbols),
        l.GrowsTo l₂ → stored ++ assumed = hyps → stored' ++ assumed' = hyps →
        Embeds p js js' Subst.Image l₂
          ((matchApart q s stored : Search ν Subst).append fun _ => matchAll q s assumed)
          ((matchApart q' s' stored').append fun _ => matchAll q' s' assumed') :=
      fun l₂ hl₂ hl hr =>
        ih hl hr hground (fun i hi => (hkept i hi).mono hl₂) (hs.mono hl₂) (hq.mono hl₂)
    -- on each side the first judgment is stored, and draws a number, or it is assumed
    cases stored with
    | nil =>
      cases stored' with
      | nil =>
        obtain rfl : assumed = j :: hyps := hl
        obtain rfl : assumed' = j :: hyps := hr
        exact both l (.refl l) fun l₂ hl₂ =>
          rest l₂ hl₂ (List.nil_append hyps) (List.nil_append hyps)
      | cons i stored' =>
        obtain rfl : assumed = j :: hyps := hl
        obtain ⟨rfl, hr'⟩ := List.cons.inj hr
        rw [matchApart_cons_of_ground hj]
        refine .drawRight fun l₁ hl₁ => ?_
        rw [append_assoc]
        exact both l₁ hl₁ fun l₂ hl₂ => rest l₂ hl₂ (List.nil_append hyps) hr'
    | cons i stored =>
      obtain ⟨rfl, hl'⟩ := List.cons.inj hl
      rw [matchApart_cons_of_ground hj]
      cases stored' with
      | nil =>
        obtain rfl : assumed' = i :: hyps := hr
        refine .drawLeft fun l₁ hl₁ => ?_
        rw [append_assoc]
        exact both l₁ hl₁ fun l₂ hl₂ => rest l₂ hl₂ hl' (List.nil_append hyps)
      | cons i' stored' =>
        obtain ⟨rfl, hr'⟩ := List.cons.inj hr
        rw [matchApart_cons_of_ground hj]
        refine .draw ?_
        rw [append_assoc, append_assoc]
        exact both l.draw l.growsTo_draw fun l₂ hl₂ => rest l₂ hl₂ hl' hr'

end Search

namespace Backward
open Search
variable {o : SearchOptions} {js hyps stored stored' assumed assumed' : List Judgment} {symbols : Bool}
variable {n : Nat}

/-- The environments begin with the hypotheses assumed, and go on with what goes with each other. -/
structure Divided (js hyps assumed assumed' : List Judgment) (l : Pairing symbols)
    (env env' : Environment) : Prop where
  kept : ∀ j ∈ js ++ hyps, j.Kept l
  scopes : ∃ scope scope', env.entries = assumed ++ scope ∧ env'.entries = assumed' ++ scope' ∧
    List.Forall₂ (Judgment.Image l) scope scope'

theorem scopes_divided (hl : stored ++ assumed = hyps) (hr : stored' ++ assumed' = hyps)
    (hground : ∀ j ∈ hyps, j.term.vars = []) :
    Scopes .ordered (js ++ stored) (js ++ stored')
      fun (l : Pairing symbols) => Divided js hyps assumed assumed' l where
  mono l l' env env' h hl := by
    obtain ⟨scope, scope', he, he', hscope⟩ := h.scopes
    exact ⟨fun j hj => (h.kept j hj).mono hl, scope, scope', he, he', hscope.imp fun _ _ hj => hj.mono hl⟩
  extend l env env' j j' h hj := by
    obtain ⟨scope, scope', he, he', hscope⟩ := h.scopes
    refine ⟨h.kept, scope ++ [j], scope' ++ [j'], ?_, ?_, List.rel_append hscope (.cons hj .nil)⟩
    · rw [Environment.extend, he, List.append_assoc]
    · rw [Environment.extend, he', List.append_assoc]
  known l env env' q q' s s' h hq hs := by
    obtain ⟨scope, scope', he, he', hscope⟩ := h.scopes
    obtain ⟨hjs, hhyps⟩ := List.forall_mem_append.1 h.kept
    refine Embeds.look ?_
    show Embeds .ordered (js ++ stored) (js ++ stored') Subst.Image l
      ((matchApart q s (js ++ stored)).append fun _ => matchAll q s env.entries)
      ((matchApart q' s' (js ++ stored')).append fun _ => matchAll q' s' env'.entries)
    simp only [he, he', matchAll_append, matchApart_append, append_assoc]
    refine Embeds.append (.matchApart hs hq (.refl _ js) hjs) fun l₁ hl₁ => ?_
    rw [← append_assoc _ (fun _ => matchAll q s assumed) fun _ => matchAll q s scope,
      ← append_assoc _ (fun _ => matchAll q' s' assumed') fun _ => matchAll q' s' scope']
    refine Embeds.append ?_ fun l₂ hl₂ => ?_
    · have hhyps₁ : ∀ j ∈ hyps, j.Kept l₁ := fun j hj => (hhyps j hj).mono hl₁
      exact embeds_ground hl hr hground hhyps₁ (hs.mono hl₁) (hq.mono hl₁)
    · have hl := hl₁.trans hl₂
      exact .matchAll (hs.mono hl) (hq.mono hl) (hscope.imp fun _ _ hj => hj.mono hl)

/-- One way round: the results of the first search are found among those of the second. -/
theorem read_results_divided (hl : stored ++ assumed = hyps) (hr : stored' ++ assumed' = hyps)
    (hground : ∀ j ∈ hyps, j.term.vars = []) (ho : o.arities.broken = false) (d : Nat) (q : Judgment)
    {k k' : Nat} (hk : n ≤ k) (hk' : n ≤ k') (hq : q.term.Settled n)
    (hsyms : ∀ j ∈ q :: (js ++ hyps), j.term.SymsSettled o.lambdaIntro n) :
    let left := (results o d ⟨assumed⟩ q.term).read none ⟨js ++ stored, k⟩
    let right := (results o d ⟨assumed'⟩ q.term).read none ⟨js ++ stored', k'⟩
    left.status = .ended ∧ right.status = .ended ∧ ∃ ρ : Renaming, ρ.Spares o.lambdaIntro n ∧
      (left.results.toList.map (Term.rename ρ)).Sublist right.results.toList := by
  obtain ⟨hsymsq, hsyms⟩ := List.forall_mem_cons.1 hsyms
  have hwithin : o.Within .ordered o := ⟨.refl _ _, id, ho, ho⟩
  have hdivided : Divided js hyps assumed assumed' (.start o.lambdaIntro n) ⟨assumed⟩ ⟨assumed'⟩ := by
    refine ⟨fun j hj => Judgment.kept_start (hsyms j hj), [], [], ?_, ?_, .nil⟩
    · exact (List.append_nil assumed).symm
    · exact (List.append_nil assumed').symm
  exact read_results_of_scopes hwithin (Nat.le_refl d) hk hk' (scopes_divided hl hr hground) hdivided q hq
    hsymsq

/-- Ground entries of the environment may be stored behind the judgments there are: the search gives as many
results in the same order, each the other's under one renaming of the names drawn. -/
theorem read_results_assumed (hground : ∀ j ∈ hyps, j.term.vars = []) (ho : o.arities.broken = false)
    (d : Nat) (q : Judgment) {k k' : Nat} (hk : n ≤ k) (hk' : n ≤ k') (hq : q.term.Settled n)
    (hsyms : ∀ j ∈ q :: (js ++ hyps), j.term.SymsSettled o.lambdaIntro n) :
    let assumed := (results o d ⟨hyps⟩ q.term).read none ⟨js, k⟩
    let stored := (results o d {} q.term).read none ⟨js ++ hyps, k'⟩
    assumed.status = .ended ∧ stored.status = .ended ∧ ∃ ρ : Renaming, ρ.Spares o.lambdaIntro n ∧
      assumed.results.map (Term.rename ρ) = stored.results := by
  intro assumed stored
  have hassumed : [] ++ hyps = hyps := List.nil_append hyps
  have hstored : hyps ++ [] = hyps := List.append_nil hyps
  have hthere := read_results_divided hassumed hstored hground ho d q hk hk' hq hsyms
  have hback := read_results_divided hstored hassumed hground ho d q hk' hk hq hsyms
  rw [List.append_nil] at hthere hback
  obtain ⟨hended, hended', ρ, hρ, hsub⟩ := hthere
  obtain ⟨-, -, ρ', -, hsub'⟩ := hback
  -- a sublist that is no shorter is the whole list
  have hle : stored.results.toList.length ≤ (assumed.results.toList.map (Term.rename ρ)).length := by
    have h := hsub'.length_le
    rw [List.length_map] at h ⊢
    exact h
  refine ⟨hended, hended', ρ, hρ, ?_⟩
  have heq := hsub.eq_of_length_le hle
  rw [← Array.toList_map] at heq
  exact Array.toList_inj.1 heq

/-- `a : A` assumed, and the same stored: the bound variables have other symbols then. -/
theorem read_results_assumed_inA : (∀ j ∈ [inA], j.term.vars = []) ∧ fromA.term.Settled 0 ∧
    (∀ j ∈ fromA :: ([listing] ++ [inA]), j.term.SymsSettled true 0) ∧
    let assumed := (results { lambdaIntro := true } 1 ⟨[inA]⟩ fromA.term).read none ⟨[listing], 0⟩
    let stored := (results { lambdaIntro := true } 1 {} fromA.term).read none ⟨[listing] ++ [inA], 0⟩
    assumed.results.size = 4 ∧ assumed.results ≠ stored.results ∧ ∃ ρ : Renaming, ρ.Spares true 0 ∧
      assumed.results.map (Term.rename ρ) = stored.results := by
  have hground : ∀ j ∈ [inA], j.term.vars = [] := by decide
  have hq : fromA.term.Settled 0 := Term.settled_of_underscore_notMem (by decide) 0
  have hplain : ∀ j ∈ fromA :: ([listing] ++ [inA]), ∀ c ∈ j.term.syms,
      c.text.toList.head? ≠ some 'x' := by decide
  have hsyms : ∀ j ∈ fromA :: ([listing] ++ [inA]), j.term.SymsSettled true 0 := fun j hj =>
    Term.symsSettled_of_head_ne (hplain j hj) 0
  obtain ⟨-, -, hfound⟩ := read_results_assumed (o := { lambdaIntro := true }) hground rfl 1 fromA
    (Nat.le_refl 0) (Nat.le_refl 0) hq hsyms
  exact ⟨hground, hq, hsyms, by decide +kernel, by decide +kernel, hfound⟩

end Backward
end ProofSearch
