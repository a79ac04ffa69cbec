import ProofSearch.Proofs.Search.Always

/-!
# Searches that add to the store

A search that puts judgments into the store reads them again further on, so what holds of it is said of
the world it has come to. `Ensures` asks of each addition that it keeps an invariant of the store, and of
each alternative what is to hold in its world. Between two alternatives the world may have grown in any
way that keeps the invariant: whoever takes them may add to the store too. What is ensured holds at every
moment of consuming a search (`Ensures.consumed`), and where a reading stops is one of them.
-/

namespace ProofSearch

/-- Numbers have been drawn and judgments added, and nothing else has changed. -/
structure World.GrowsTo (w w' : World) : Prop where
  drawn_le : w.drawn ≤ w'.drawn
  isPrefix : w.judgments <+: w'.judgments

namespace World.GrowsTo
variable {w w' w'' : World}

theorem refl (w : World) : w.GrowsTo w := ⟨Nat.le_refl _, List.prefix_rfl⟩

theorem trans (h : w.GrowsTo w') (h' : w'.GrowsTo w'') : w.GrowsTo w'' :=
  ⟨h.drawn_le.trans h'.drawn_le, h.isPrefix.trans h'.isPrefix⟩

theorem draw (w : World) : w.GrowsTo { w with drawn := w.drawn + 1 } := ⟨Nat.le_succ _, List.prefix_rfl⟩

theorem raise (w : World) {m : Nat} (hm : w.drawn ≤ m) : w.GrowsTo { w with drawn := m } :=
  ⟨hm, List.prefix_rfl⟩

theorem add (w : World) (j : Judgment) : w.GrowsTo { w with judgments := w.judgments ++ [j] } :=
  ⟨Nat.le_refl _, List.prefix_append _ _⟩

end World.GrowsTo

namespace Search
variable {ν α β : Type} {F : Fault → Prop} {I : List Judgment → Prop} {P Q : World → α → Prop} {w : World}

/-- Every addition keeps `I`, every alternative is as `P` says in its world, and a failure has a fault
that `F` allows. -/
def Ensures (F : Fault → Prop) (I : List Judgment → Prop) (P : World → α → Prop) :
    Search ν α → World → Prop
  | done, _ => True
  | fail e, _ => F e
  | give a k, w => P w a ∧ ∀ w', w.GrowsTo w' → I w'.judgments → (k ()).Ensures F I P w'
  | draw k, w => (k w.drawn).Ensures F I P { w with drawn := w.drawn + 1 }
  | look k, w => (k w.judgments).Ensures F I P w
  | add j k, w => I (w.judgments ++ [j]) ∧ (k ()).Ensures F I P { w with judgments := w.judgments ++ [j] }
  | note _ k, w => (k ()).Ensures F I P w

namespace Ensures

theorem mono {t : Search ν α} (h : t.Ensures F I P w) (hP : ∀ w' a, w.GrowsTo w' → P w' a → Q w' a) :
    t.Ensures F I Q w := by
  induction t generalizing w with
  | done => trivial
  | fail e => exact h
  | give a k ih =>
    refine ⟨hP w a (.refl w) h.1, fun w' hw hI => ?_⟩
    exact ih () (h.2 w' hw hI) fun w'' b hw' => hP w'' b (hw.trans hw')
  | draw k ih => exact ih _ h fun w' a hw => hP w' a ((World.GrowsTo.draw w).trans hw)
  | look k ih => exact ih _ h hP
  | add j k ih => exact ⟨h.1, ih () h.2 fun w' a hw => hP w' a ((World.GrowsTo.add w j).trans hw)⟩
  | note x k ih => exact ih () h hP

theorem append {t : Search ν α} {u : Unit → Search ν α} (h : t.Ensures F I P w) (hI : I w.judgments)
    (hu : ∀ w', w.GrowsTo w' → I w'.judgments → (u ()).Ensures F I P w') :
    (t.append u).Ensures F I P w := by
  induction t generalizing w with
  | done => exact hu w (.refl w) hI
  | fail e => exact h
  | give a k ih =>
    exact ⟨h.1, fun w' hw hI => ih () (h.2 w' hw hI) hI fun w'' hw' => hu w'' (hw.trans hw')⟩
  | draw k ih => exact ih _ h hI fun w' hw => hu w' ((World.GrowsTo.draw w).trans hw)
  | look k ih => exact ih _ h hI hu
  | add j k ih => exact ⟨h.1, ih () h.2 h.1 fun w' hw => hu w' ((World.GrowsTo.add w j).trans hw)⟩
  | note x k ih => exact ih () h hI hu

theorem bind {R : World → β → Prop} {t : Search ν α} {f : α → Search ν β} (hI : I w.judgments)
    (h : t.Ensures F I (fun w' a => I w'.judgments → (f a).Ensures F I R w') w) :
    (t.bind f).Ensures F I R w := by
  induction t generalizing w with
  | done => trivial
  | fail e => exact h
  | give a k ih => exact (h.1 hI).append hI fun w' hw hI => ih () hI (h.2 w' hw hI)
  | draw k ih => exact ih _ hI h
  | look k ih => exact ih _ hI h
  | add j k ih => exact ⟨h.1, ih () h.1 h.2⟩
  | note x k ih => exact ih () hI h

theorem one {a : α} (h : P w a) : (one a : Search ν α).Ensures F I P w := ⟨h, fun _ _ _ => trivial⟩

theorem map {R : World → β → Prop} {t : Search ν α} {f : α → β} (hI : I w.judgments)
    (h : t.Ensures F I (fun w' a => R w' (f a)) w) : (t.map f).Ensures F I R w :=
  bind hI (h.mono fun _ _ _ ha _ => .one ha)

theorem ofList_bind {R : World → β → Prop} {as : List α} {f : α → Search ν β} (hI : I w.judgments)
    (h : ∀ a ∈ as, ∀ w', w.GrowsTo w' → I w'.judgments → (f a).Ensures F I R w') :
    ((ofList as).bind f).Ensures F I R w := by
  induction as generalizing w with
  | nil => trivial
  | cons a as ih =>
    obtain ⟨ha, has⟩ := List.forall_mem_cons.1 h
    refine (ha w (.refl w) hI).append hI fun w' hw hI' => ih hI' fun b hb w'' hw' => ?_
    exact has b hb w'' (hw.trans hw')

theorem noteIf {b : Bool} {x : ν} {k : Unit → Search ν α} (h : (k ()).Ensures F I P w) :
    (Search.noteIf b x k).Ensures F I P w := by cases b <;> exact h

theorem ofExcept {x : Except Fault β} {k : β → Search ν α} (hx : ∀ e, x = .error e → F e)
    (h : ∀ b, x = .ok b → (k b).Ensures F I P w) : (Search.ofExcept x k).Ensures F I P w := by
  cases x with
  | ok b => exact h b rfl
  | error e => exact hx e rfl

end Ensures

/-! ### Consuming -/

/-- Consuming a search from a world comes to the alternatives `as` and the world `w'`, perhaps between two of
its acts and with more to come. While an alternative is with whoever took it, numbers may be drawn. -/
inductive Consumed : Search ν α → World → List α → World → Prop
  | here {t : Search ν α} {w : World} : Consumed t w [] w
  | give {a : α} {k : Unit → Search ν α} {w w' : World} {as : List α} {m : Nat} (hm : w.drawn ≤ m) :
      Consumed (k ()) { w with drawn := m } as w' → Consumed (give a k) w (a :: as) w'
  | draw {k : Nat → Search ν α} {w w' : World} {as : List α} :
      Consumed (k w.drawn) { w with drawn := w.drawn + 1 } as w' → Consumed (draw k) w as w'
  | look {k : List Judgment → Search ν α} {w w' : World} {as : List α} :
      Consumed (k w.judgments) w as w' → Consumed (look k) w as w'
  | add {j : Judgment} {k : Unit → Search ν α} {w w' : World} {as : List α} :
      Consumed (k ()) { w with judgments := w.judgments ++ [j] } as w' → Consumed (add j k) w as w'
  | note {x : ν} {k : Unit → Search ν α} {w w' : World} {as : List α} :
      Consumed (k ()) w as w' → Consumed (note x k) w as w'

/-- At every moment the store is as the invariant says, and so are the alternatives that have been given. -/
theorem Ensures.consumed {t : Search ν α} {w' : World} {as : List α} (h : t.Ensures F I P w)
    (hI : I w.judgments) (ht : t.Consumed w as w') : I w'.judgments ∧ ∀ a ∈ as, ∃ w'', P w'' a := by
  induction ht with
  | here => exact ⟨hI, fun a ha => absurd ha List.not_mem_nil⟩
  | @give a k w w' as m hm _ ih =>
    obtain ⟨hstore, has⟩ := ih (h.2 _ ⟨hm, List.prefix_rfl⟩ hI) hI
    exact ⟨hstore, List.forall_mem_cons.2 ⟨⟨w, h.1⟩, has⟩⟩
  | draw _ ih => exact ih h hI
  | look _ ih => exact ih h hI
  | add _ ih => exact ih h.2 h.1
  | note _ ih => exact ih h hI

/-- Where a reading stops is such a moment. -/
theorem consumed_readOn (t : Search ν α) (more : Option Nat) (as : Array α) (ns : Array ν) (w : World) :
    ∃ bs, (t.readOn more as ns w).results.toList = as.toList ++ bs ∧
      t.Consumed w bs (t.readOn more as ns w).world := by
  induction t generalizing more as ns w with
  | done => exact ⟨[], (List.append_nil _).symm, .here⟩
  | fail e => exact ⟨[], (List.append_nil _).symm, .here⟩
  | give a k ih =>
    have on : ∀ more, ∃ bs, ((k ()).readOn more (as.push a) ns w).results.toList = as.toList ++ bs ∧
        (give a k).Consumed w bs ((k ()).readOn more (as.push a) ns w).world := by
      intro more
      obtain ⟨bs, hbs, hk⟩ := ih () more (as.push a) ns w
      refine ⟨a :: bs, ?_, .give (Nat.le_refl _) hk⟩
      rw [hbs, Array.toList_push, List.append_assoc, List.singleton_append]
    match more with
    | none => exact on none
    | some 0 => exact ⟨[a], Array.toList_push, .give (Nat.le_refl _) .here⟩
    | some (n + 1) => exact on (some n)
  | draw k ih =>
    obtain ⟨bs, hbs, hk⟩ := ih w.drawn more as ns { w with drawn := w.drawn + 1 }
    exact ⟨bs, hbs, .draw hk⟩
  | look k ih =>
    obtain ⟨bs, hbs, hk⟩ := ih w.judgments more as ns w
    exact ⟨bs, hbs, .look hk⟩
  | add j k ih =>
    obtain ⟨bs, hbs, hk⟩ := ih () more as ns { w with judgments := w.judgments ++ [j] }
    exact ⟨bs, hbs, .add hk⟩
  | note x k ih =>
    obtain ⟨bs, hbs, hk⟩ := ih () more as (ns.push x) w
    exact ⟨bs, hbs, .note hk⟩

theorem consumed_read (t : Search ν α) (limit : Option Nat) (w : World) :
    t.Consumed w (t.read limit w).results.toList (t.read limit w).world := by
  have on : ∀ more, t.Consumed w (t.readOn more #[] #[] w).results.toList (t.readOn more #[] #[] w).world := by
    intro more
    obtain ⟨bs, hbs, ht⟩ := consumed_readOn t more #[] #[] w
    rw [hbs]
    exact ht
  match limit with
  | none => exact on none
  | some 0 => exact .here
  | some (n + 1) => exact on (some n)

/-- However far the search is read, the store is as the invariant says, and so are the alternatives. -/
theorem Ensures.read {t : Search ν α} (h : t.Ensures F I P w) (hI : I w.judgments) (limit : Option Nat) :
    I (t.read limit w).world.judgments ∧ ∀ a ∈ (t.read limit w).results, ∃ w', P w' a := by
  obtain ⟨hstore, hgiven⟩ := h.consumed hI (consumed_read t limit w)
  exact ⟨hstore, fun a ha => hgiven a (Array.mem_toList_iff.2 ha)⟩

end Search
end ProofSearch
