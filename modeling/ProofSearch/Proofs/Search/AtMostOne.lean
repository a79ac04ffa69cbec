import ProofSearch.Proofs.Search.Always

/-!
# Searches with one alternative at most

Of the ways that a search tries most come to nothing, and where at most one of them gives anything, and at most
once, so does the search. Both are said for a reader who draws numbers between two alternatives, as `Always` is; so
they pass through `append` and `bind` in the same way, with `Barren` for the ways that come to nothing.
-/

namespace ProofSearch.Search
variable {ν α β : Type} {js : List Judgment} {P : Nat → α → Prop} {n : Nat}

/-- No alternative is given. -/
abbrev Barren (js : List Judgment) (t : Search ν α) (n : Nat) : Prop :=
  t.Always js (fun _ => True) (fun _ _ => False) n

/-- After the first alternative there is no other. -/
def AtMostOne (js : List Judgment) : Search ν α → Nat → Prop
  | done, _ => True
  | fail _, _ => True
  | give _ k, n => ∀ m, n ≤ m → (k ()).Barren js m
  | draw k, n => (k n).AtMostOne js (n + 1)
  | look k, n => (k js).AtMostOne js n
  | add _ _, _ => False
  | note _ k, n => (k ()).AtMostOne js n

/-- What every alternative is cannot be so. -/
theorem Always.barren {F : Fault → Prop} {t : Search ν α} (h : t.Always js F P n) (hP : ∀ m a, ¬ P m a) :
    t.Barren js n :=
  (h.mono fun m a _ ha => hP m a ha).allow fun _ _ => trivial

theorem Barren.readOn {t : Search ν α} {w : World} (h : t.Barren w.judgments w.drawn) (as : Array α)
    (ns : Array ν) : (t.readOn none as ns w).results = as := by
  induction t generalizing ns w with
  | done => rfl
  | fail e => rfl
  | give a k ih => exact h.1.elim
  | draw k ih => exact ih w.drawn (w := { w with drawn := w.drawn + 1 }) h ns
  | look k ih => exact ih w.judgments h ns
  | add j k ih => exact h.elim
  | note x k ih => exact ih () h _

namespace AtMostOne

theorem one (a : α) : (one a : Search ν α).AtMostOne js n := fun _ _ => trivial

theorem of_barren {t : Search ν α} (h : t.Barren js n) : t.AtMostOne js n := by
  induction t generalizing n with
  | done => trivial
  | fail e => trivial
  | give a k ih => exact h.1.elim
  | draw k ih => exact ih n h
  | look k ih => exact ih js h
  | add j k ih => exact h
  | note x k ih => exact ih () h

theorem append_left {t : Search ν α} {u : Unit → Search ν α} (h : t.AtMostOne js n)
    (hu : ∀ m, n ≤ m → (u ()).Barren js m) : (t.append u).AtMostOne js n := by
  induction t generalizing n with
  | done => exact of_barren (hu n (Nat.le_refl n))
  | fail e => trivial
  | give a k ih => exact fun m hm => (h m hm).append fun i hi => hu i (hm.trans hi)
  | draw k ih => exact ih n h fun i hi => hu i ((Nat.le_succ n).trans hi)
  | look k ih => exact ih js h hu
  | add j k ih => exact h
  | note x k ih => exact ih () h hu

theorem append_right {t : Search ν α} {u : Unit → Search ν α} (h : t.Barren js n)
    (hu : ∀ m, n ≤ m → (u ()).AtMostOne js m) : (t.append u).AtMostOne js n := by
  induction t generalizing n with
  | done => exact hu n (Nat.le_refl n)
  | fail e => trivial
  | give a k ih => exact h.1.elim
  | draw k ih => exact ih n h fun i hi => hu i ((Nat.le_succ n).trans hi)
  | look k ih => exact ih js h hu
  | add j k ih => exact h
  | note x k ih => exact ih () h hu

theorem bind {F : Fault → Prop} {t : Search ν α} {f : α → Search ν β} (h : t.AtMostOne js n)
    (ht : t.Always js F P n) (hf : ∀ m a, n ≤ m → P m a → (f a).AtMostOne js m) :
    (t.bind f).AtMostOne js n := by
  induction t generalizing n with
  | done => trivial
  | fail e => trivial
  | give a k ih =>
    refine (hf n a (Nat.le_refl n) ht.1).append_left fun m hm => ?_
    exact Always.bind ((h m hm).mono fun _ _ _ h => h.elim)
  | draw k ih => exact ih n h ht fun m a hm => hf m a ((Nat.le_succ n).trans hm)
  | look k ih => exact ih js h ht hf
  | add j k ih => exact h
  | note x k ih => exact ih () h ht hf

theorem ofUnify {x : Except Refusal Subst} {k : Subst → Search ν α} (h : ∀ r, x = .ok r → (k r).AtMostOne js n) :
    (Search.ofUnify x k).AtMostOne js n := by
  match x with
  | .ok r => exact h r rfl
  | .error .clash => trivial
  | .error .endless => trivial

theorem ofOption {x : Option β} {k : β → Search ν α} (h : ∀ b, (k b).AtMostOne js n) :
    (Search.ofOption x k).AtMostOne js n := by
  cases x with
  | none => trivial
  | some b => exact h b

theorem size_results_le {t : Search ν α} {w : World} (h : t.AtMostOne w.judgments w.drawn) :
    (t.read none w).results.size ≤ 1 := by
  have on : ∀ ns, (t.readOn none #[] ns w).results.size ≤ 1 := by
    induction t generalizing w with
    | done => exact fun _ => Nat.zero_le 1
    | fail e => exact fun _ => Nat.zero_le 1
    | give a k ih =>
      intro ns
      rw [readOn, (h w.drawn (Nat.le_refl _)).readOn]
      exact Nat.le_refl 1
    | draw k ih => exact ih w.drawn (w := { w with drawn := w.drawn + 1 }) h
    | look k ih => exact ih w.judgments h
    | add j k ih => exact h.elim
    | note x k ih => exact fun ns => ih () h _
  exact on #[]

end AtMostOne

/-! ### Notes and draws -/

@[simp] theorem atMostOne_noteIf (b : Bool) (x : ν) (k : Unit → Search ν α) :
    (noteIf b x k).AtMostOne js n ↔ (k ()).AtMostOne js n := by cases b <;> rfl

theorem atMostOne_drawVars (stem : String) (k : Nat) (f : List Var → Search ν α) :
    (drawVars stem k f).AtMostOne js n ↔ (f (Var.drawnList stem n k)).AtMostOne js (n + k) := by
  induction k generalizing n f with
  | zero => rfl
  | succ k ih =>
    show (drawVars stem k _).AtMostOne js (n + 1) ↔ _
    rw [ih, Nat.add_right_comm, Nat.add_assoc]
    rfl

end ProofSearch.Search
