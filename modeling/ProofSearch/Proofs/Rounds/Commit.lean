import ProofSearch.Proofs.Rounds.Conservative
import ProofSearch.Proofs.Subst.Overlap

/-!
# What a commit puts into the store

A judgment is held by a store that has one overlapping with it. Where the numbers still to be drawn end none of
its variables, the store is asked just that (`returns_holds`), so a commit puts in, one after the other, those of
its items that are not held when they come (`returns_commit_admitted`), and holds all of them in the end
(`returns_commit`). Nothing can go wrong with it, the items being judgments; and rounds of lemmas are commits one
after the other (`returns_lemmas`).
-/

namespace ProofSearch
variable {ν : Type} {F : Fault → Prop} {I : List Judgment → Prop} {w w' w'' : World}
variable {is js as bs items : List Judgment} {i j : Judgment} {ts us : List Term}

/-- One of the judgments overlaps with it. -/
def Judgment.HeldBy (j : Judgment) (js : List Judgment) : Prop := ∃ i ∈ js, j.Overlaps i

instance (j : Judgment) (js : List Judgment) : Decidable (j.HeldBy js) :=
  inferInstanceAs (Decidable (∃ i ∈ js, j.Overlaps i))

theorem Judgment.HeldBy.of_subset (h : j.HeldBy is) (hi : is ⊆ js) : j.HeldBy js :=
  let ⟨i, hmem, hj⟩ := h
  ⟨i, hi hmem, hj⟩

theorem Judgment.heldBy_of_mem (h : j ∈ js) : j.HeldBy js := ⟨j, h, .refl j.term⟩

@[simp] theorem Judgment.not_heldBy_nil : ¬ j.HeldBy [] := fun ⟨_, h, _⟩ => List.not_mem_nil h

theorem Judgment.heldBy_cons : j.HeldBy (i :: js) ↔ j.Overlaps i ∨ j.HeldBy js := by simp [HeldBy]

/-- A renaming that leaves the symbols of the judgment makes no difference to whether it is held. -/
theorem Judgment.heldBy_rename_iff {ρ : Renaming} (hj : j.term = i.term.rename ρ)
    (hsym : ∀ c ∈ i.term.syms, ρ.sym c = c) : j.HeldBy js ↔ i.HeldBy js := by
  refine exists_congr fun k => and_congr_right fun _ => ?_
  rw [Overlaps, Overlaps, hj, Term.overlaps_rename_iff hsym]

/-- Nor does one that leaves the symbols of all that is stored. -/
theorem Judgment.HeldBy.rename {ρ : Renaming} (h : i.HeldBy js) (hj : j.term = i.term.rename ρ)
    (hsym : ∀ k ∈ js, ∀ c ∈ k.term.syms, ρ.sym c = c) : j.HeldBy js := by
  obtain ⟨k, hk, hik⟩ := h
  refine ⟨k, hk, ?_⟩
  rw [Overlaps, hj]
  exact Term.Overlaps.rename_left hik (hsym k hk)

/-! ### Judgments that were not held -/

/-- None of the judgments is held by `js`, and none overlaps with one before it. -/
structure Novel (js added : List Judgment) : Prop where
  apart : ∀ j ∈ added, ¬ j.HeldBy js
  pairwise : added.Pairwise fun i j => ¬ j.Overlaps i

namespace Novel

theorem nil (js : List Judgment) : Novel js [] := ⟨fun _ h => absurd h List.not_mem_nil, .nil⟩

theorem append (h : Novel js as) (h' : Novel (js ++ as) bs) : Novel js (as ++ bs) where
  apart := by
    refine List.forall_mem_append.2 ⟨h.apart, fun j hj hheld => h'.apart j hj ?_⟩
    exact hheld.of_subset (List.subset_append_left js as)
  pairwise := by
    refine List.pairwise_append.2 ⟨h.pairwise, h'.pairwise, fun i hi j hj hij => h'.apart j hj ?_⟩
    exact ⟨i, List.mem_append_right js hi, hij⟩

theorem singleton (h : ¬ j.HeldBy js) : Novel js [j] :=
  ⟨List.forall_mem_singleton.2 h, List.pairwise_singleton _ j⟩

theorem tail (h : Novel js (j :: as)) : Novel (js ++ [j]) as := by
  obtain ⟨hj, has⟩ := List.pairwise_cons.1 h.pairwise
  refine ⟨fun i hi hheld => ?_, has⟩
  obtain ⟨k, hk, hik⟩ := hheld
  rcases List.mem_append.1 hk with hk | hk
  · exact h.apart i (List.mem_cons_of_mem j hi) ⟨k, hk, hik⟩
  · exact hj i hi (List.mem_singleton.1 hk ▸ hik)

end Novel

/-- Of the items those that `js` lets in when they come to it one after the other: each that overlaps with none
of `js`, and with none let in before it. -/
def admitted (js : List Judgment) : List Judgment → List Judgment
  | [] => []
  | j :: items => if j.HeldBy js then admitted js items else j :: admitted (js ++ [j]) items

theorem admitted_of_heldBy (h : j.HeldBy js) : admitted js (j :: items) = admitted js items := if_pos h

theorem admitted_of_not_heldBy (h : ¬ j.HeldBy js) :
    admitted js (j :: items) = j :: admitted (js ++ [j]) items := if_neg h

theorem novel_admitted (js items : List Judgment) : Novel js (admitted js items) := by
  induction items generalizing js with
  | nil => exact .nil js
  | cons j items ih =>
    by_cases h : j.HeldBy js
    · rw [admitted_of_heldBy h]
      exact ih js
    · rw [admitted_of_not_heldBy h]
      exact (Novel.singleton h).append (ih (js ++ [j]))

theorem admitted_sublist (js items : List Judgment) : (admitted js items).Sublist items := by
  induction items generalizing js with
  | nil => exact .refl _
  | cons j items ih =>
    by_cases h : j.HeldBy js
    · rw [admitted_of_heldBy h]
      exact (ih js).cons j
    · rw [admitted_of_not_heldBy h]
      exact (ih (js ++ [j])).cons_cons j

/-- Each of the items is held in the end, let in or not. -/
theorem heldBy_append_admitted (h : j ∈ items) : j.HeldBy (js ++ admitted js items) := by
  induction items generalizing js with
  | nil => cases h
  | cons i items ih =>
    by_cases hi : i.HeldBy js
    · rw [admitted_of_heldBy hi]
      rcases List.mem_cons.1 h with rfl | h
      · exact hi.of_subset (List.subset_append_left _ _)
      · exact ih h
    · rw [admitted_of_not_heldBy hi, List.append_cons]
      rcases List.mem_cons.1 h with rfl | h
      · exact Judgment.heldBy_of_mem (by simp)
      · exact ih h

theorem admitted_eq_nil_iff : admitted js items = [] ↔ ∀ j ∈ items, j.HeldBy js := by
  induction items with
  | nil => simp [admitted]
  | cons j items ih =>
    rw [List.forall_mem_cons]
    by_cases h : j.HeldBy js
    · rw [admitted_of_heldBy h, ih, and_iff_right h]
    · rw [admitted_of_not_heldBy h]
      exact iff_of_false (List.cons_ne_nil _ _) fun hall => h hall.1

/-- The world has come to `w'` by putting in the judgments `ts`, none of which was held when it was. -/
def World.Adds (w : World) (ts : List Term) (w' : World) : Prop :=
  ∃ added, w'.judgments = w.judgments ++ added ∧ Novel w.judgments added ∧ ts = added.map Judgment.term

namespace World.Adds

theorem nil (h : w'.judgments = w.judgments) : w.Adds [] w' :=
  ⟨[], h.trans (List.append_nil _).symm, .nil _, rfl⟩

theorem trans (h : w.Adds ts w') (h' : w'.Adds us w'') : w.Adds (ts ++ us) w'' := by
  obtain ⟨as, hw, has, rfl⟩ := h
  obtain ⟨bs, hw', hbs, rfl⟩ := h'
  rw [hw] at hw' hbs
  exact ⟨as ++ bs, hw'.trans (List.append_assoc _ _ _), has.append hbs, List.map_append.symm⟩

theorem subset (h : w.Adds ts w') : w.judgments ⊆ w'.judgments := by
  obtain ⟨added, hw, -, -⟩ := h
  exact hw ▸ List.subset_append_left _ _

end World.Adds

/-- Putting in what was not held keeps it. -/
def KeptByCommits (I : List Judgment → Prop) : Prop :=
  ∀ (js : List Judgment) (j : Judgment), I js → ¬ j.HeldBy js → I (js ++ [j])

theorem KeptByCommits.of_novel (hI : KeptByCommits I) (hjs : I js) (h : Novel js as) : I (js ++ as) := by
  induction as generalizing js with
  | nil => rwa [List.append_nil]
  | cons j as ih =>
    rw [List.append_cons]
    exact ih (hI js j hjs (h.apart j List.mem_cons_self)) h.tail

theorem KeptByCommits.of_adds (hI : KeptByCommits I) (hw : I w.judgments) (h : w.Adds ts w') :
    I w'.judgments := by
  obtain ⟨added, he, hnovel, -⟩ := h
  exact he ▸ hI.of_novel hw hnovel

/-- The term of a judgment whose variables end in no number from `n` on. -/
abbrev Term.JudgesSettled (n : Nat) (t : Term) : Prop := t.Judges fun j => j.term.Settled n

namespace Search

theorem returns_first_matchApart (hj : j.term.Settled w.drawn) (is : List Judgment) :
    (matchApart j.term .empty is : Search ν Subst).first.Returns F I
      (fun w' x => w'.judgments = w.judgments ∧ (x.isSome = true ↔ j.HeldBy is)) w := by
  induction is generalizing w with
  | nil => exact .one ⟨rfl, by simp⟩
  | cons i is ih =>
    have hfound := Term.exists_unify_tag_iff (u := i.term) hj.tag_notMem
    show ((ofUnify (Subst.empty.unify j.term (i.term.tag (ending w.drawn))) one).append _).first.Returns F I _ _
    match h : Subst.empty.unify j.term (i.term.tag (ending w.drawn)) with
    | .ok r =>
      exact .one ⟨rfl, iff_of_true rfl (Judgment.heldBy_cons.2 (.inl (hfound.1 ⟨r, h⟩)))⟩
    | .error .clash =>
      have hi : ¬ j.Overlaps i := fun hi => by
        obtain ⟨r, hr⟩ := hfound.2 hi
        rw [h] at hr
        cases hr
      rw [Judgment.heldBy_cons, or_iff_right hi]
      exact ih (w := { w with drawn := w.drawn + 1 }) (hj.mono (Nat.le_succ _))
    | .error .endless => exact absurd h (Subst.unify_ne_endless Subst.acyclic_empty _ _)

theorem returns_holds (hj : j.term.Settled w.drawn) :
    (holds j.term : Search ν Bool).Returns F I
      (fun w' held => w'.judgments = w.judgments ∧ (held = true ↔ j.HeldBy w.judgments)) w := by
  have hstored : (stored j.term .empty : Search ν Subst).first.Returns F I _ w :=
    returns_first_matchApart hj w.judgments
  exact hstored.map fun _ _ _ h => h

theorem returns_insertIfAbsent (hI : KeptByCommits I) (hw : I w.judgments) (hj : j.term.Settled w.drawn) :
    (insertIfAbsent j.term : Search ν Bool).Returns F I (fun w' put =>
      (put = true ↔ ¬ j.HeldBy w.judgments) ∧ w'.judgments = w.judgments ++ if put then [j] else []) w := by
  refine (returns_holds hj).bind fun w' held _ h => ?_
  obtain ⟨hstore, hheld⟩ := h
  cases held with
  | true => exact .one ⟨iff_of_false Bool.false_ne_true (not_not_intro (hheld.1 rfl)), by simp [hstore]⟩
  | false =>
    have hnot : ¬ j.HeldBy w.judgments := fun h => Bool.false_ne_true (hheld.2 h)
    show (map _ (insert j.term)).Returns F I _ w'
    rw [insert, Judgment.check_term, ← hstore]
    exact ⟨hI _ j (hstore ▸ hw) (hstore ▸ hnot), .one ⟨iff_of_true rfl (hstore ▸ hnot), rfl⟩⟩

end Search

namespace Rounds
open Search

/-- A commit puts in, and comes back with, those of its items that the store lets in one after the other. -/
theorem returns_commit_admitted (hI : KeptByCommits I) (hw : I w.judgments) (verbose : Bool)
    (hitems : ∀ j ∈ items, j.term.Settled w.drawn) :
    (commit verbose (items.map Judgment.term)).Returns F I (fun w' new =>
      new = (admitted w.judgments items).map Judgment.term ∧
      w'.judgments = w.judgments ++ admitted w.judgments items) w := by
  induction items generalizing w with
  | nil => exact .one ⟨rfl, (List.append_nil _).symm⟩
  | cons j items ih =>
    obtain ⟨hj, hrest⟩ := List.forall_mem_cons.1 hitems
    refine (returns_insertIfAbsent hI hw hj).bind fun w₁ put hgrows h => ?_
    obtain ⟨hput, hstore⟩ := h
    have hrest₁ : ∀ i ∈ items, i.term.Settled w₁.drawn := fun i hi => (hrest i hi).mono hgrows.drawn_le
    cases put with
    | true =>
      have hnot := hput.1 rfl
      have hstore : w₁.judgments = w.judgments ++ [j] := hstore
      rw [admitted_of_not_heldBy hnot, ← hstore, List.append_cons, ← hstore, List.map_cons]
      refine .noteIf ((ih (hstore ▸ hI _ j hw hnot) hrest₁).map fun w₂ new _ h => ?_)
      exact ⟨congrArg _ h.1, h.2⟩
    | false =>
      have hheld : j.HeldBy w.judgments := not_not.1 fun h => Bool.false_ne_true (hput.2 h)
      have hstore : w₁.judgments = w.judgments := hstore.trans (List.append_nil _)
      rw [admitted_of_heldBy hheld, ← hstore]
      exact ih (hstore ▸ hw) hrest₁

/-- Committing them comes to its end with just that done to the store. -/
theorem read_commit_admitted (verbose : Bool) (hitems : ∀ j ∈ items, j.term.Settled w.drawn) :
    let new := admitted w.judgments items
    let reading := (commit verbose (items.map Judgment.term)).read none w
    reading.results = #[new.map Judgment.term] ∧ reading.status = .ended ∧ w.GrowsTo reading.world ∧
      reading.world.judgments = w.judgments ++ new := by
  intro new reading
  have hreturns : (commit verbose (items.map Judgment.term)).Returns (fun _ => False) (fun _ => True) _ w :=
    returns_commit_admitted (fun _ _ _ _ => trivial) trivial verbose hitems
  obtain ⟨_, hresults, hended, hgrows, rfl, hstore⟩ := (hreturns.mono fun _ _ hw h => And.intro hw h).exists_read
  exact ⟨hresults, hended, hgrows, hstore⟩

theorem returns_commit (hI : KeptByCommits I) (hw : I w.judgments) (verbose : Bool) {items : List Term}
    (hitems : ∀ t ∈ items, t.JudgesSettled w.drawn) :
    (commit verbose items).Returns F I
      (fun w' new => w.Adds new w' ∧ ∀ t ∈ items, t.Judges (·.HeldBy w'.judgments)) w := by
  obtain ⟨js, rfl, hjs⟩ := Term.exists_map_term hitems
  refine (returns_commit_admitted hI hw verbose hjs).mono fun w' new _ h => ?_
  obtain ⟨hnew, hstore⟩ := h
  refine ⟨⟨_, hstore, novel_admitted _ _, hnew⟩, fun t ht => ?_⟩
  obtain ⟨j, hj, rfl⟩ := List.mem_map.1 ht
  exact ⟨j, rfl, hstore ▸ heldBy_append_admitted hj⟩

/-- Rounds of lemmas put in what they come back with, and nothing else. -/
theorem returns_lemmas (hI : KeptByCommits I) {search : Search Note Term}
    (hsearch : ∀ w', w.GrowsTo w' →
      search.Always w'.judgments F (fun m t => t.JudgesSettled m) w'.drawn)
    (verbose : Bool) (r number : Nat) (hw : I w.judgments) :
    (lemmas search verbose r number).Returns F I (fun w' new => w.Adds new w') w := by
  induction r generalizing number w with
  | zero => exact .one (.nil rfl)
  | succ r ih =>
    refine (hsearch w (.refl w)).returns_collapse.bind fun w₁ results h₁ h => ?_
    obtain ⟨hstore, hresults⟩ := h
    rw [← hstore] at hw
    have hsettled : ∀ t ∈ results, t.JudgesSettled w₁.drawn := fun t ht => by
      obtain ⟨m, hm, h⟩ := hresults t ht
      exact h.imp fun _ h => h.mono hm
    refine .noteIf ((returns_commit hI hw verbose hsettled).bind fun w₂ new h₂ h => ?_)
    have hadds : w.Adds new w₂ := (World.Adds.nil hstore).trans h.1
    show Returns F I _ (if _ then _ else _) w₂
    split
    · next hnone =>
      rw [List.isEmpty_iff] at hnone
      exact .one (hnone ▸ hadds)
    · have hsearch₂ := fun w' h₃ => hsearch w' (h₁.trans (h₂.trans h₃))
      exact (ih hsearch₂ (number + 1) (hI.of_adds hw h.1)).map fun _ _ _ h => hadds.trans h

end Rounds

namespace Request

/-- The judgment `$prf : $thm`. -/
def openPattern : Judgment := ⟨.ofText "$prf", .ofText "$thm"⟩

theorem settled_openPattern (n : Nat) : openPattern.term.Settled n :=
  Term.settled_of_underscore_notMem (by decide) n

/-- What follows the rounds of lemmas has what they put in. -/
theorem returns_lemmaRounds {o : Settings} {P : World → Search Note Answer → Prop}
    (hI : KeptByCommits I) (d r : Nat) (pattern : Judgment) (hw : I w.judgments)
    (hsearch : ∀ w', w.GrowsTo w' →
      (backwardStep o d pattern.term).Always w'.judgments F (fun m t => t.JudgesSettled m) w'.drawn)
    {k : Nat → List Term → Search Note (Search Note Answer)}
    (hk : ∀ w' new, w.GrowsTo w' → w.Adds new w' → (k d new).Returns F I P w') :
    (lemmaRounds o (.int d) (.int r) pattern.term k).Returns F I P w := by
  unfold lemmaRounds
  rw [checkQuery_term]
  exact (Rounds.returns_lemmas hI hsearch (o.verbose.getD false) r 1 hw).bind hk

end Request
end ProofSearch
