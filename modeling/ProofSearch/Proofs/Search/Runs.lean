import Mathlib.Data.List.Perm.Subperm
import Mathlib.Data.List.Flatten
import ProofSearch.Proofs.Search.Always
import ProofSearch.Search.Draws

/-!
# The alternatives of a run

A run of a search over judgments that do not change has a list of alternatives and a number at which it ends
(`Yields`). While an alternative is with whoever took it the counter may rise, since takers draw numbers too;
so a search has many runs, and a reading of it alone is one (`Unfailing.yields_read`). The numbers that the
takers draw are spanned by the alternatives, one stretch for each (`InTurn`), and the others are the run's
own. The runs of `append` and of `bind` are put together from those of the parts. Where one run has found
its place among the alternatives of another, in order or in any order, is said of the two lists (`Placement`).
-/

namespace ProofSearch

/-! ### Places in a list -/

/-- How the members of one list are found among those of another. -/
inductive Placement
  | ordered
  | scattered

namespace Placement
variable {α β : Type} {p : Placement} {as bs cs : List α}

/-- The members of the first list are members of the second one, each at a place of its own. -/
def Picks : Placement → List α → List α → Prop
  | ordered, as, bs => as.Sublist bs
  | scattered, as, bs => as.Subperm bs

namespace Picks

theorem refl (p : Placement) (as : List α) : p.Picks as as := by
  cases p with
  | ordered => exact List.Sublist.refl as
  | scattered => exact List.Subperm.refl as

theorem nil (p : Placement) (bs : List α) : p.Picks [] bs := by
  cases p with
  | ordered => exact List.nil_sublist bs
  | scattered => exact List.nil_subperm

theorem trans (h : p.Picks as bs) (h' : p.Picks bs cs) : p.Picks as cs := by
  cases p with
  | ordered => exact List.Sublist.trans h h'
  | scattered => exact List.Subperm.trans h h'

theorem subset (h : p.Picks as bs) : as ⊆ bs := by
  cases p with
  | ordered => exact List.Sublist.subset h
  | scattered => exact List.Subperm.subset h

theorem pairwise {R : α → α → Prop} (hR : ∀ a b, R a b → R b a) (h : p.Picks as bs) (hbs : bs.Pairwise R) :
    as.Pairwise R := by
  cases p with
  | ordered => exact hbs.sublist h
  | scattered =>
    obtain ⟨cs, hperm, hsub⟩ := h
    exact (hperm.pairwise_iff fun h => hR _ _ h).1 (hbs.sublist hsub)

theorem append {as' bs' : List α} (h : p.Picks as bs) (h' : p.Picks as' bs') :
    p.Picks (as ++ as') (bs ++ bs') := by
  cases p with
  | ordered => exact List.Sublist.append h h'
  | scattered => exact List.Subperm.append h h'

theorem map (f : α → β) (h : p.Picks as bs) : p.Picks (as.map f) (bs.map f) := by
  cases p with
  | ordered => exact List.Sublist.map f h
  | scattered =>
    obtain ⟨cs, hperm, hsub⟩ := h
    exact ⟨cs.map f, hperm.map f, hsub.map f⟩

theorem flatten {ass bss : List (List α)} (h : p.Picks ass bss) : p.Picks ass.flatten bss.flatten := by
  cases p with
  | ordered => exact List.Sublist.flatten h
  | scattered =>
    obtain ⟨css, hperm, hsub⟩ := h
    exact ⟨css.flatten, hperm.flatten, hsub.flatten⟩

/-- What goes with the members of the longer list goes with those picked. -/
theorem exists_forall₂ {R : α → β → Prop} {ds : List β} (h : p.Picks as bs) (hR : List.Forall₂ R bs ds) :
    ∃ es, List.Forall₂ R as es ∧ p.Picks es ds := by
  -- the induction is on how `as` is a sublist; members picked in any order are a permutation of one
  have inOrder : ∀ {as bs : List α} {ds : List β}, as.Sublist bs → List.Forall₂ R bs ds →
      ∃ es, List.Forall₂ R as es ∧ es.Sublist ds := by
    intro as bs ds h hR
    induction h generalizing ds with
    | slnil => exact ⟨[], .nil, List.nil_sublist ds⟩
    | cons b _ ih =>
      cases hR with
      | cons _ hR =>
        obtain ⟨es, hes, hsub⟩ := ih hR
        exact ⟨es, hes, hsub.cons _⟩
    | cons_cons b _ ih =>
      cases hR with
      | @cons _ d _ _ hd hR =>
        obtain ⟨es, hes, hsub⟩ := ih hR
        exact ⟨d :: es, .cons hd hes, hsub.cons_cons d⟩
  cases p with
  | ordered => exact inOrder h hR
  | scattered =>
    obtain ⟨cs, hperm, hsub⟩ := h
    obtain ⟨es, hes, hsub⟩ := inOrder hsub hR
    obtain ⟨es', hes', hperm⟩ := List.perm_comp_forall₂ hperm.symm hes
    exact ⟨es', hes', es, hperm.symm, hsub⟩

end Picks
end Placement

/-! ### Runs -/

namespace Search

/-- An alternative of a run, with the number that was next when it was given, and the one that was next when
the search was resumed. -/
structure Given (α : Type) where
  value : α
  drawn : Nat
  resumed : Nat

section Given
variable {α β : Type} {a : Given α} {as bs : List (Given α)} {xs ys : List (Given β)} {i k m n : Nat}

/-- The number was drawn while the alternative was with its taker. -/
def Given.Spans (a : Given α) (i : Nat) : Prop := a.drawn ≤ i ∧ i < a.resumed

/-- The number was drawn by a taker. -/
def Spanned (as : List (Given α)) (i : Nat) : Prop := ∃ a ∈ as, a.Spans i

/-- The first alternatives were taken and given back while the second ones were with their takers. -/
def Nested (xs : List (Given β)) (as : List (Given α)) : Prop := ∀ i, Spanned xs i → Spanned as i

/-- The run from `n` to `m` has drawn the number itself. -/
structure Own (n m : Nat) (as : List (Given α)) (i : Nat) : Prop where
  ge : n ≤ i
  lt : i < m
  free : ¬ Spanned as i

/-- The takers of `as` have drawn the number themselves: it was not drawn by a taker of `xs`. -/
structure Between (as : List (Given α)) (xs : List (Given β)) (i : Nat) : Prop where
  spanned : Spanned as i
  free : ¬ Spanned xs i

/-- Between `n` and `m` the alternatives were taken one at a time. -/
structure InTurn (n m : Nat) (as : List (Given α)) : Prop where
  le : n ≤ m
  ge : ∀ a ∈ as, n ≤ a.drawn
  resumed_le : ∀ a ∈ as, a.resumed ≤ m
  apart : as.Pairwise fun a b => ∀ i, a.Spans i → ¬ b.Spans i

theorem Spanned.of_subset (h : Spanned as i) (hbs : as ⊆ bs) : Spanned bs i :=
  let ⟨a, ha, hi⟩ := h
  ⟨a, hbs ha, hi⟩

theorem Spanned.head (as : List (Given α)) (h : Spanned [a] i) : Spanned (a :: as) i :=
  h.of_subset (List.cons_subset_cons a (List.nil_subset as))

theorem Spanned.cons (a : Given α) (h : Spanned as i) : Spanned (a :: as) i :=
  h.of_subset (List.subset_cons_self a as)

theorem spanned_append : Spanned (as ++ bs) i ↔ Spanned as i ∨ Spanned bs i := by
  simp only [Spanned, List.mem_append, or_and_right, exists_or]

theorem not_spanned_nil (i : Nat) : ¬ Spanned ([] : List (Given α)) i := fun ⟨_, h, _⟩ => by cases h

theorem Nested.of_subset (h : Nested xs as) (hys : ys ⊆ xs) : Nested ys as := fun i hi =>
  h i (hi.of_subset hys)

namespace InTurn

theorem bounds (h : InTurn n m as) (hi : Spanned as i) : n ≤ i ∧ i < m := by
  obtain ⟨a, ha, hd, hr⟩ := hi
  exact ⟨(h.ge a ha).trans hd, hr.trans_le (h.resumed_le a ha)⟩

theorem not_spanned_of_lt (h : InTurn n m as) (hi : i < n) : ¬ Spanned as i := fun hs =>
  Nat.not_le_of_lt hi (h.bounds hs).1

theorem own_of_lt (h : InTurn k m as) (hn : n ≤ i) (hi : i < k) : Own n m as i :=
  ⟨hn, hi.trans_le h.le, h.not_spanned_of_lt hi⟩

theorem nested (h : InTurn a.drawn a.resumed xs) : Nested xs [a] := fun _ hi =>
  ⟨a, List.mem_singleton_self a, h.bounds hi⟩

theorem nil (h : n ≤ m) : InTurn n m ([] : List (Given α)) :=
  ⟨h, fun _ ha => (by cases ha), fun _ ha => (by cases ha), .nil⟩

theorem cons {v : α} (hi : n ≤ i) (h : InTurn i m as) : InTurn n m (⟨v, n, i⟩ :: as) where
  le := hi.trans h.le
  ge := List.forall_mem_cons.2 ⟨Nat.le_refl n, fun a ha => hi.trans (h.ge a ha)⟩
  resumed_le := List.forall_mem_cons.2 ⟨h.le, h.resumed_le⟩
  apart := by
    refine List.pairwise_cons.2 ⟨fun a ha k hk hak => ?_, h.apart⟩
    exact absurd (h.bounds ⟨a, ha, hak⟩).1 (Nat.not_le_of_lt hk.2)

theorem mono (h : InTurn n m as) (hk : k ≤ n) : InTurn k m as :=
  ⟨hk.trans h.le, fun a ha => hk.trans (h.ge a ha), h.resumed_le, h.apart⟩

theorem tail (h : InTurn n m (a :: as)) : InTurn n m as where
  le := h.le
  ge := (List.forall_mem_cons.1 h.ge).2
  resumed_le := (List.forall_mem_cons.1 h.resumed_le).2
  apart := (List.pairwise_cons.1 h.apart).2

theorem not_spanned_tail (h : InTurn n m (a :: as)) (hi : Spanned [a] i) : ¬ Spanned as i := by
  rintro ⟨b, hb, hbi⟩
  obtain ⟨a', ha', hai⟩ := hi
  rw [List.mem_singleton.1 ha'] at hai
  exact (List.pairwise_cons.1 h.apart).1 b hb i hai hbi

theorem of_picks {p : Placement} (h : InTurn n m bs) (hp : p.Picks as bs) : InTurn n m as where
  le := h.le
  ge a ha := h.ge a (hp.subset ha)
  resumed_le a ha := h.resumed_le a (hp.subset ha)
  apart := hp.pairwise (fun _ _ hab k hb ha => hab k ha hb) h.apart

end InTurn

namespace Own

theorem mono (h : Own n m as i) (hk : k ≤ n) : Own k m as i := ⟨hk.trans h.ge, h.lt, h.free⟩

theorem append_left (h : Own n k as i) (hbs : InTurn k m bs) : Own n m (as ++ bs) i where
  ge := h.ge
  lt := h.lt.trans_le hbs.le
  free hi := (spanned_append.1 hi).elim h.free (hbs.not_spanned_of_lt h.lt)

theorem append_right (h : Own k m bs i) (has : InTurn n k as) : Own n m (as ++ bs) i where
  ge := has.le.trans h.ge
  lt := h.lt
  free hi := (spanned_append.1 hi).elim (fun hi => Nat.not_le_of_lt (has.bounds hi).2 h.ge) h.free

theorem of_nested (h : Own n m as i) (hxs : Nested xs as) : Own n m xs i :=
  ⟨h.ge, h.lt, fun hi => h.free (hxs i hi)⟩

theorem between (h : Own a.drawn a.resumed xs i) : Between [a] xs i :=
  ⟨⟨a, List.mem_singleton_self a, h.ge, h.lt⟩, h.free⟩

end Own

namespace Between

theorem own (h : Between as xs i) (has : InTurn n m as) : Own n m xs i :=
  ⟨(has.bounds h.spanned).1, (has.bounds h.spanned).2, h.free⟩

theorem head (h : Between [a] xs i) (has : InTurn n m (a :: as)) (hys : Nested ys as) :
    Between (a :: as) (xs ++ ys) i where
  spanned := h.spanned.head as
  free hi := (spanned_append.1 hi).elim h.free fun hi => has.not_spanned_tail h.spanned (hys i hi)

theorem tail (h : Between as ys i) (has : InTurn n m (a :: as)) (hxs : Nested xs [a]) :
    Between (a :: as) (xs ++ ys) i where
  spanned := h.spanned.cons a
  free hi := (spanned_append.1 hi).elim (fun hi => has.not_spanned_tail (hxs i hi) h.spanned) h.free

end Between
end Given

variable {ν α β : Type} {js : List Judgment} {m n : Nat} {as : List (Given α)} {cs : List (Given β)}

/-- Over the judgments `js` the search comes to its end, from the number `n` to the number `m`, with these
alternatives. -/
def Yields (js : List Judgment) : Search ν α → Nat → List (Given α) → Nat → Prop
  | done, n, as, m => as = [] ∧ m = n
  | fail _, _, _, _ => False
  | give a k, n, as, m => ∃ i, n ≤ i ∧ ∃ rest, (k ()).Yields js i rest m ∧ as = ⟨a, n, i⟩ :: rest
  | draw k, n, as, m => (k n).Yields js (n + 1) as m
  | look k, n, as, m => (k js).Yields js n as m
  | add _ _, _, _, _ => False
  | note _ k, n, as, m => (k ()).Yields js n as m

namespace Yields

theorem inTurn {t : Search ν α} (h : t.Yields js n as m) : InTurn n m as := by
  induction t generalizing n as with
  | done =>
    obtain ⟨rfl, rfl⟩ := h
    exact .nil (Nat.le_refl _)
  | fail e => exact h.elim
  | give b k ih =>
    obtain ⟨i, hi, rest, hrest, rfl⟩ := h
    exact .cons hi (ih () hrest)
  | draw k ih => exact (ih n h).mono (Nat.le_succ n)
  | look k ih => exact ih js h
  | add j k ih => exact h.elim
  | note x k ih => exact ih () h

theorem of_append {t : Search ν α} {u : Unit → Search ν α} (h : (t.append u).Yields js n as m) :
    ∃ bs cs i, t.Yields js n bs i ∧ (u ()).Yields js i cs m ∧ as = bs ++ cs := by
  induction t generalizing n as with
  | done => exact ⟨[], as, n, ⟨rfl, rfl⟩, h, rfl⟩
  | fail e => exact h.elim
  | give b k ih =>
    obtain ⟨i, hi, rest, hrest, rfl⟩ := h
    obtain ⟨bs, cs, j, hbs, hcs, rfl⟩ := ih () hrest
    exact ⟨⟨b, n, i⟩ :: bs, cs, j, ⟨i, hi, bs, hbs, rfl⟩, hcs, rfl⟩
  | draw k ih => exact ih n h
  | look k ih => exact ih js h
  | add j k ih => exact h.elim
  | note x k ih => exact ih () h

/-- What follows an alternative is a run from where it was given to where the search was resumed. -/
theorem of_bind {t : Search ν α} {f : α → Search ν β} (h : (t.bind f).Yields js n cs m) :
    ∃ as css, t.Yields js n as m ∧
      List.Forall₂ (fun a cs => (f a.value).Yields js a.drawn cs a.resumed) as css ∧ cs = css.flatten := by
  induction t generalizing n cs with
  | done =>
    obtain ⟨rfl, rfl⟩ := h
    exact ⟨[], [], ⟨rfl, rfl⟩, .nil, rfl⟩
  | fail e => exact h.elim
  | give b k ih =>
    -- `b` was resumed where what follows it came to its end
    obtain ⟨cs₁, cs₂, i, hhead, htail, rfl⟩ := of_append h
    obtain ⟨as, css, has, hcss, rfl⟩ := ih () htail
    exact ⟨⟨b, n, i⟩ :: as, cs₁ :: css, ⟨i, hhead.inTurn.le, as, has, rfl⟩, .cons hhead hcss, rfl⟩
  | draw k ih => exact ih n h
  | look k ih => exact ih js h
  | add j k ih => exact h.elim
  | note x k ih => exact ih () h

theorem map_value_of_ofList {is : List α} (h : (ofList is : Search ν α).Yields js n as m) :
    as.map Given.value = is := by
  induction is generalizing n as with
  | nil => rw [h.1]; rfl
  | cons i is ih =>
    obtain ⟨m, _, rest, hrest, rfl⟩ := h
    rw [List.map_cons, ih hrest]

end Yields

@[simp] theorem yields_noteIf (b : Bool) (x : ν) (k : Unit → Search ν α) :
    (noteIf b x k).Yields js n as m ↔ (k ()).Yields js n as m := by cases b <;> rfl

/-- A run goes on where the computation has returned, with the number that is next there. -/
theorem Yields.of_ofDraws {d : Draws β} {k : β → Search ν α} (h : (ofDraws d k).Yields js n as m) :
    ∃ b, (d.run n).1 = .ok b ∧ n ≤ (d.run n).2 ∧ (k b).Yields js (d.run n).2 as m := by
  induction d generalizing n with
  | ret b => exact ⟨b, rfl, Nat.le_refl n, h⟩
  | raise e => exact h.elim
  | draw d ih =>
    obtain ⟨b, hb, hn, hk⟩ := ih n h
    exact ⟨b, hb, (Nat.le_succ n).trans hn, hk⟩

/-- What follows an alternative is given while that is with its taker. -/
theorem nested_flatten {f : α → Search ν β} {css : List (List (Given β))}
    (h : List.Forall₂ (fun a cs => (f a.value).Yields js a.drawn cs a.resumed) as css) :
    Nested css.flatten as := by
  intro i hi
  induction h with
  | nil => exact absurd hi (not_spanned_nil i)
  | @cons a cs as css ha _ ih =>
    rcases spanned_append.1 hi with hi | hi
    · exact (ha.inTurn.nested i hi).head as
    · exact (ih hi).cons a

/-! ### Readings -/

theorem Unfailing.yields_readOn {t : Search ν α} {w : World} (h : t.Unfailing w.judgments w.drawn)
    (bs : Array α) (ns : Array ν) : (t.readOn none bs ns w).status = .ended ∧
    ∃ as, t.Yields w.judgments w.drawn as (t.readOn none bs ns w).world.drawn ∧
      (t.readOn none bs ns w).results.toList = bs.toList ++ as.map Given.value := by
  induction t generalizing bs ns w with
  | done => exact ⟨rfl, [], ⟨rfl, rfl⟩, by simp [readOn]⟩
  | fail e => exact h.elim
  | give b k ih =>
    obtain ⟨hstatus, as, has, hresults⟩ := ih () (h.2 _ (Nat.le_refl _)) (bs.push b) ns
    refine ⟨hstatus, ⟨b, w.drawn, w.drawn⟩ :: as, ⟨_, Nat.le_refl _, as, has, rfl⟩, ?_⟩
    show ((k ()).readOn none (bs.push b) ns w).results.toList = _
    rw [hresults]
    simp
  | draw k ih => exact ih w.drawn (w := { w with drawn := w.drawn + 1 }) h bs ns
  | look k ih => exact ih w.judgments h bs ns
  | add j k ih => exact h.elim
  | note x k ih => exact ih () h bs _

/-- A search that meets no failure is read to its end, and what is read is a run of it. -/
theorem Unfailing.yields_read {t : Search ν α} {w : World} (h : t.Unfailing w.judgments w.drawn) :
    (t.read none w).status = .ended ∧ ∃ as, t.Yields w.judgments w.drawn as (t.read none w).world.drawn ∧
      (t.read none w).results.toList = as.map Given.value :=
  h.yields_readOn #[] #[]

end Search
end ProofSearch
