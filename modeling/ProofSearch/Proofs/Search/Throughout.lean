import ProofSearch.Proofs.Search.FilterNotes
import ProofSearch.Proofs.Search.Moments

/-!
# What holds throughout a search

Of a search read from a counter on, behind the notes left so far and whatever judgments it gets to see: every note
is as `N` says at the counter at which it is left and behind the notes before it, and every alternative as `P`
says. Failures are let pass, and between two alternatives the counter may rise by any amount and any notes may be
left. So it passes through `append` and `bind`, and holds at every moment of consuming the search
(`Throughout.comesTo`); each note of a reading is as `N` says behind those before it (`Throughout.noted_read`).
-/

namespace ProofSearch.Search
variable {ν α β : Type} {N N' : Nat → List ν → ν → Prop} {P Q : Nat → List ν → α → Prop}
variable {R : Nat → List ν → β → Prop} {n : Nat} {past : List ν} {t : Search ν α}

def Throughout (N : Nat → List ν → ν → Prop) (P : Nat → List ν → α → Prop) :
    Search ν α → Nat → List ν → Prop
  | done, _, _ => True
  | fail _, _, _ => True
  | give a k, n, past => P n past a ∧ ∀ m past', n ≤ m → (k ()).Throughout N P m past'
  | draw k, n, past => (k n).Throughout N P (n + 1) past
  | look k, n, past => ∀ js, (k js).Throughout N P n past
  | add _ k, n, past => (k ()).Throughout N P n past
  | note x k, n, past => N n past x ∧ (k ()).Throughout N P n (past ++ [x])

namespace Throughout

theorem append {u : Unit → Search ν α} (h : t.Throughout N P n past)
    (hu : ∀ m past', n ≤ m → (u ()).Throughout N P m past') : (t.append u).Throughout N P n past := by
  induction t generalizing n past with
  | done => exact hu n past (Nat.le_refl n)
  | fail e => trivial
  | give a k ih =>
    exact ⟨h.1, fun m past' hm => ih () (h.2 m past' hm) fun i past'' hi => hu i past'' (hm.trans hi)⟩
  | draw k ih => exact ih n h fun i past' hi => hu i past' ((Nat.le_succ n).trans hi)
  | look k ih => exact fun js => ih js (h js) hu
  | add j k ih => exact ih () h hu
  | note x k ih => exact ⟨h.1, ih () h.2 hu⟩

theorem bind {f : α → Search ν β} (h : t.Throughout N P n past)
    (hf : ∀ m past' a, n ≤ m → P m past' a → (f a).Throughout N R m past') :
    (t.bind f).Throughout N R n past := by
  induction t generalizing n past with
  | done => trivial
  | fail e => trivial
  | give a k ih =>
    refine (hf n past a (Nat.le_refl n) h.1).append fun m past' hm => ih () (h.2 m past' hm) ?_
    exact fun i past'' b hi => hf i past'' b (hm.trans hi)
  | draw k ih => exact ih n h fun i past' b hi => hf i past' b ((Nat.le_succ n).trans hi)
  | look k ih => exact fun js => ih js (h js) hf
  | add j k ih => exact ih () h hf
  | note x k ih => exact ⟨h.1, ih () h.2 hf⟩

theorem imp (h : t.Throughout N P n past) (hN : ∀ m past' x, N m past' x → N' m past' x)
    (hP : ∀ m past' a, P m past' a → Q m past' a) : t.Throughout N' Q n past := by
  induction t generalizing n past with
  | done => trivial
  | fail e => trivial
  | give a k ih => exact ⟨hP n past a h.1, fun m past' hm => ih () (h.2 m past' hm)⟩
  | draw k ih => exact ih n h
  | look k ih => exact fun js => ih js (h js)
  | add j k ih => exact ih () h
  | note x k ih => exact ⟨hN n past x h.1, ih () h.2⟩

theorem one {a : α} (h : P n past a) : (one a : Search ν α).Throughout N P n past := ⟨h, fun _ _ _ => trivial⟩

theorem ofExcept {x : Except Fault β} {k : β → Search ν α}
    (h : ∀ b, x = .ok b → (k b).Throughout N P n past) : (Search.ofExcept x k).Throughout N P n past := by
  cases x with
  | ok b => exact h b rfl
  | error e => trivial

theorem ofOption {x : Option β} {k : β → Search ν α} (h : ∀ b, x = some b → (k b).Throughout N P n past) :
    (Search.ofOption x k).Throughout N P n past := by
  cases x with
  | some b => exact h b rfl
  | none => trivial

theorem ofUnify {x : Except Refusal Subst} {k : Subst → Search ν α}
    (h : ∀ r, x = .ok r → (k r).Throughout N P n past) : (Search.ofUnify x k).Throughout N P n past := by
  match x with
  | .ok r => exact h r rfl
  | .error .clash => trivial
  | .error .endless => trivial

/-- Whether the note is left or not, the search goes on as it should. -/
theorem noteIf {b : Bool} {x : ν} {k : Unit → Search ν α} (hx : b = true → N n past x)
    (h : ∀ past', (k ()).Throughout N P n past') : (Search.noteIf b x k).Throughout N P n past := by
  cases b with
  | true => exact ⟨hx rfl, h _⟩
  | false => exact h past

theorem drawVars {stem : String} {k : Nat} {f : List Var → Search ν α}
    (h : (f (Var.drawnList stem n k)).Throughout N P (n + k) past) :
    (drawVars stem k f).Throughout N P n past := by
  induction k generalizing n f with
  | zero => exact h
  | succ k ih =>
    refine ih (n := n + 1) ?_
    rwa [Nat.add_assoc, Nat.add_comm 1 k]

/-- The computation leaves no note, and the search goes on with its value at the counter it has come to. -/
theorem ofDraws {d : Draws β} {k : β → Search ν α}
    (h : ∀ b m, n ≤ m → d.run n = (.ok b, m) → (k b).Throughout N P m past) :
    (Search.ofDraws d k).Throughout N P n past := by
  induction d generalizing n with
  | ret b => exact h b n (Nat.le_refl n) rfl
  | raise e => trivial
  | draw d ih => exact ih n fun b m hm hb => h b m ((Nat.le_succ n).trans hm) hb

theorem ofList_bind {as : List α} {f : α → Search ν β}
    (h : ∀ a ∈ as, ∀ m past', n ≤ m → (f a).Throughout N R m past') :
    ((ofList as).bind f).Throughout N R n past := by
  induction as generalizing n past with
  | nil => trivial
  | cons a as ih =>
    obtain ⟨ha, has⟩ := List.forall_mem_cons.1 h
    refine (ha n past (Nat.le_refl n)).append fun m past' hm => ih ?_
    exact fun b hb i past'' hi => has b hb i past'' (hm.trans hi)

/-- With the first alternative alone come the notes left before it, which are as `N` says. -/
theorem firstNoted (h : t.Throughout N P n past) {A : ν → Prop} (hA : ∀ m past' x, N m past' x → A x)
    (js : List Judgment) :
    (t.firstNoted js).Throughout N (fun _ past' _ => ∃ xs, past' = past ++ xs ∧ ∀ x ∈ xs, A x) n past := by
  have here : ∃ xs, past = past ++ xs ∧ ∀ x ∈ xs, A x := ⟨[], (List.append_nil past).symm, by simp⟩
  induction t generalizing js n past with
  | done => exact .one here
  | fail e => trivial
  | give a k _ => exact .one here
  | draw k ih => exact ih n h js here
  | look k ih => exact ih js (h js) js here
  | add j k ih => exact ih () h (js ++ [j]) here
  | note x k ih =>
    refine ⟨h.1, (ih () h.2 js ⟨[], by simp⟩).imp (fun _ _ _ h => h) fun _ past' _ => ?_⟩
    rintro ⟨xs, rfl, hxs⟩
    exact ⟨x :: xs, by simp, List.forall_mem_cons.2 ⟨hA _ _ _ h.1, hxs⟩⟩

/-! ### Moments -/

theorem comesTo {u : Search ν α} {w w' : World} {as : List α} {js : List Judgment}
    (h : t.Throughout N P w.drawn past) (ht : t.ComesTo w as js u w') :
    ∃ past', u.Throughout N P w'.drawn past' := by
  induction ht generalizing past with
  | here => exact ⟨past, h⟩
  | give hm _ ih => exact ih (h.2 _ [] hm)
  | draw _ ih => exact ih h
  | look _ ih => exact ih (h _)
  | add _ ih => exact ih h
  | note _ ih => exact ih h.2

end Throughout

/-! ### Readings -/

/-- Each of the notes is as `N` says behind those before it. -/
def Noted (N : Nat → List ν → ν → Prop) (xs : List ν) : Prop :=
  ∀ before x after, xs = before ++ x :: after → ∃ n, N n before x

theorem noted_nil : Noted N ([] : List ν) := fun before x after h => by simp at h

theorem Noted.concat {xs : List ν} {x : ν} (h : Noted N xs) (hx : N n xs x) : Noted N (xs ++ [x]) := by
  intro before y after hsplit
  rcases List.eq_nil_or_concat after with rfl | ⟨after, z, rfl⟩
  · obtain ⟨rfl, hy⟩ := List.append_inj' hsplit rfl
    cases hy
    exact ⟨n, hx⟩
  · have hsplit : xs ++ [x] = (before ++ y :: after) ++ [z] := by simpa using hsplit
    exact h before y after (List.append_inj' hsplit rfl).1

theorem Throughout.noted_readOn {w : World} (more : Option Nat) (as : Array α) (ns : Array ν)
    (h : t.Throughout N P w.drawn ns.toList) (hns : Noted N ns.toList) :
    Noted N (t.readOn more as ns w).notes.toList := by
  induction t generalizing more as ns w with
  | done => exact hns
  | fail e => exact hns
  | give a k ih =>
    have on : ∀ more, Noted N ((k ()).readOn more (as.push a) ns w).notes.toList := fun more =>
      ih () more (as.push a) ns (h.2 _ _ (Nat.le_refl _)) hns
    match more with
    | none => exact on none
    | some 0 => exact hns
    | some (i + 1) => exact on (some i)
  | draw k ih => exact ih w.drawn (w := { w with drawn := w.drawn + 1 }) more as ns h hns
  | look k ih => exact ih w.judgments more as ns (h w.judgments) hns
  | add j k ih => exact ih () (w := { w with judgments := w.judgments ++ [j] }) more as ns h hns
  | note x k ih =>
    rw [readOn]
    refine ih () more as (ns.push x) ?_ ?_
    · exact Array.toList_push ▸ h.2
    · exact Array.toList_push ▸ hns.concat h.1

theorem Throughout.noted_read {w : World} (h : t.Throughout N P w.drawn []) (limit : Option Nat) :
    Noted N (t.read limit w).notes.toList := by
  match limit with
  | none => exact noted_readOn none #[] #[] h noted_nil
  | some 0 => exact noted_nil
  | some (i + 1) => exact noted_readOn (some i) #[] #[] h noted_nil

end ProofSearch.Search
