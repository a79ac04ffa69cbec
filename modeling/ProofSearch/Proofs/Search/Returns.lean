import ProofSearch.Proofs.Search.Ensures

/-!
# Searches that give one alternative

Some searches are run for what they come back with: a query of the store, a commit, a whole search run to its
end. Such a search gives one alternative and is over (`Returns`), unless it meets a failure. What it has come
back with holds in the world it has come to, so what goes on from there can be looked at by itself
(`Returns.bind`); and with no failure allowed, reading it to its end is reading that alternative
(`Returns.exists_read`).
-/

namespace ProofSearch.Search
variable {ν α β : Type} {F : Fault → Prop} {I : List Judgment → Prop} {P Q : World → α → Prop} {w : World}

/-- Every addition keeps `I`, and the search gives one alternative, as `P` says in its world, or fails with a
fault that `F` allows. -/
def Returns (F : Fault → Prop) (I : List Judgment → Prop) (P : World → α → Prop) :
    Search ν α → World → Prop
  | done, _ => False
  | fail e, _ => F e
  | give a k, w => P w a ∧ k () = done
  | draw k, w => (k w.drawn).Returns F I P { w with drawn := w.drawn + 1 }
  | look k, w => (k w.judgments).Returns F I P w
  | add j k, w => I (w.judgments ++ [j]) ∧ (k ()).Returns F I P { w with judgments := w.judgments ++ [j] }
  | note _ k, w => (k ()).Returns F I P w

namespace Returns

theorem one {a : α} (h : P w a) : (one a : Search ν α).Returns F I P w := ⟨h, rfl⟩

theorem mono {t : Search ν α} (h : t.Returns F I P w) (hP : ∀ w' a, w.GrowsTo w' → P w' a → Q w' a) :
    t.Returns F I Q w := by
  induction t generalizing w with
  | done => exact h
  | fail e => exact h
  | give a k _ => exact ⟨hP w a (.refl w) h.1, h.2⟩
  | draw k ih => exact ih _ h fun w' a hw => hP w' a ((World.GrowsTo.draw w).trans hw)
  | look k ih => exact ih _ h hP
  | add j k ih => exact ⟨h.1, ih () h.2 fun w' a hw => hP w' a ((World.GrowsTo.add w j).trans hw)⟩
  | note x k ih => exact ih () h hP

theorem bind {R : World → β → Prop} {t : Search ν α} {f : α → Search ν β} (h : t.Returns F I P w)
    (hf : ∀ w' a, w.GrowsTo w' → P w' a → (f a).Returns F I R w') : (t.bind f).Returns F I R w := by
  induction t generalizing w with
  | done => exact h.elim
  | fail e => exact h
  | give a k _ =>
    show ((f a).append fun _ => (k ()).bind f).Returns F I R w
    rw [h.2]
    exact (append_done (f a)).symm ▸ hf w a (.refl w) h.1
  | draw k ih => exact ih _ h fun w' a hw => hf w' a ((World.GrowsTo.draw w).trans hw)
  | look k ih => exact ih _ h hf
  | add j k ih => exact ⟨h.1, ih () h.2 fun w' a hw => hf w' a ((World.GrowsTo.add w j).trans hw)⟩
  | note x k ih => exact ih () h hf

theorem map {R : World → β → Prop} {t : Search ν α} {f : α → β} (h : t.Returns F I P w)
    (hf : ∀ w' a, w.GrowsTo w' → P w' a → R w' (f a)) : (t.map f).Returns F I R w :=
  h.bind fun w' a hw ha => .one (hf w' a hw ha)

theorem noteIf {b : Bool} {x : ν} {k : Unit → Search ν α} (h : (k ()).Returns F I P w) :
    (Search.noteIf b x k).Returns F I P w := by cases b <;> exact h

theorem ensures {t : Search ν α} (h : t.Returns F I P w) : t.Ensures F I P w := by
  induction t generalizing w with
  | done => trivial
  | fail e => exact h
  | give a k _ =>
    refine ⟨h.1, fun w' _ _ => ?_⟩
    rw [h.2]
    trivial
  | draw k ih => exact ih _ h
  | look k ih => exact ih _ h
  | add j k ih => exact ⟨h.1, ih () h.2⟩
  | note x k ih => exact ih () h

/-- What is ensured of every alternative is ensured of the one. -/
theorem and_ensures {J : List Judgment → Prop} {G : Fault → Prop} {t : Search ν α} (h : t.Returns F I P w)
    (h' : t.Ensures G J Q w) : t.Returns F I (fun w' a => P w' a ∧ Q w' a) w := by
  induction t generalizing w with
  | done => exact h
  | fail e => exact h
  | give a k _ => exact ⟨⟨h.1, h'.1⟩, h.2⟩
  | draw k ih => exact ih _ h h'
  | look k ih => exact ih _ h h'
  | add j k ih => exact ⟨h.1, ih () h.2 h'.2⟩
  | note x k ih => exact ih () h h'

/-- A search comes back with one thing, whatever is said of it. -/
theorem and_forall {ι : Type} {R : ι → World → α → Prop} {t : Search ν α} (h : t.Returns F I P w)
    (h' : ∀ i, t.Returns F I (R i) w) : t.Returns F I (fun w' a => P w' a ∧ ∀ i, R i w' a) w := by
  induction t generalizing w with
  | done => exact h
  | fail e => exact h
  | give a k _ => exact ⟨⟨h.1, fun i => (h' i).1⟩, h.2⟩
  | draw k ih => exact ih _ h h'
  | look k ih => exact ih _ h h'
  | add j k ih => exact ⟨h.1, ih () h.2 fun i => (h' i).2⟩
  | note x k ih => exact ih () h h'

/-- With no failure allowed there is one alternative and one world that it comes back with. -/
theorem exists_only {t : Search ν α} (h : t.Returns (fun _ => False) I P w) :
    ∃ w' a, P w' a ∧ t.Returns (fun _ => False) I (fun w'' b => w'' = w' ∧ b = a) w := by
  induction t generalizing w with
  | done => exact h.elim
  | fail e => exact h.elim
  | give a k _ => exact ⟨w, a, h.1, ⟨rfl, rfl⟩, h.2⟩
  | draw k ih => exact ih _ h
  | look k ih => exact ih _ h
  | add j k ih =>
    obtain ⟨w', a, ha, hk⟩ := ih () h.2
    exact ⟨w', a, ha, h.1, hk⟩
  | note x k ih => exact ih () h

/-- Where no failure is allowed, a reading comes to the one alternative and to the end. -/
theorem exists_read {t : Search ν α} (h : t.Returns (fun _ => False) I P w) :
    ∃ a, (t.read none w).results = #[a] ∧ (t.read none w).status = .ended ∧ P (t.read none w).world a := by
  have on : ∀ ns, ∃ a, (t.readOn none #[] ns w).results = #[a] ∧ (t.readOn none #[] ns w).status = .ended ∧
      P (t.readOn none #[] ns w).world a := by
    induction t generalizing w with
    | done => exact h.elim
    | fail e => exact h.elim
    | give a k _ =>
      intro ns
      rw [readOn, h.2]
      exact ⟨a, rfl, rfl, h.1⟩
    | draw k ih => exact ih _ h
    | look k ih => exact ih _ h
    | add j k ih => exact ih () h.2
    | note x k ih => exact fun ns => ih () h (ns.push x)
  exact on #[]

/-- A reading for one alternative comes to it, too, and stops there. -/
theorem exists_read_one {t : Search ν α} (h : t.Returns (fun _ => False) I P w) :
    ∃ a ns w' k, t.read (some 1) w = ⟨#[a], ns, w', .paused k⟩ ∧ P w' a := by
  have on : ∀ ns, ∃ a ns' w' k, t.readOn (some 0) #[] ns w = ⟨#[a], ns', w', .paused k⟩ ∧ P w' a := by
    induction t generalizing w with
    | done => exact h.elim
    | fail e => exact h.elim
    | give a k _ => exact fun ns => ⟨a, ns, w, k, rfl, h.1⟩
    | draw k ih => exact ih _ h
    | look k ih => exact ih _ h
    | add j k ih => exact ih () h.2
    | note x k ih => exact fun ns => ih () h (ns.push x)
  exact on #[]

end Returns

/-- The two have the same results, have ended in the same way and left the same judgments in the store. -/
structure Reading.Agrees (r r' : Reading ν α) : Prop where
  results : r.results = r'.results
  status : r.status = r'.status
  judgments : r.world.judgments = r'.world.judgments

/-- What comes back with the same and leaves the same store reads the same. -/
theorem Returns.agrees {t u : Search ν α} {a : α} {js : List Judgment}
    (ht : t.Returns (fun _ => False) I (fun w' b => b = a ∧ w'.judgments = js) w)
    (hu : u.Returns (fun _ => False) I (fun w' b => b = a ∧ w'.judgments = js) w) :
    (t.read none w).Agrees (u.read none w) := by
  obtain ⟨_, hresults, hended, rfl, hstore⟩ := ht.exists_read
  obtain ⟨_, hresults', hended', rfl, hstore'⟩ := hu.exists_read
  exact ⟨hresults.trans hresults'.symm, hended.trans hended'.symm, hstore.trans hstore'.symm⟩

/-! ### Searches that only look, run to their end -/

theorem Always.returns_collapseInto {p : Nat → α → Prop} {t : Search ν α}
    (h : t.Always w.judgments F p w.drawn) {as : Array α} (has : ∀ a ∈ as, ∃ m ≤ w.drawn, p m a) :
    (t.collapseInto as).Returns F I
      (fun w' bs => w'.judgments = w.judgments ∧ ∀ b ∈ bs, ∃ m ≤ w'.drawn, p m b) w := by
  induction t generalizing w as with
  | done => exact .one ⟨rfl, fun b hb => has b (Array.mem_toList_iff.1 hb)⟩
  | fail e => exact h
  | give a k ih =>
    refine ih () (h.2 _ (Nat.le_refl _)) fun b hb => ?_
    rcases Array.mem_push.1 hb with hb | rfl
    · exact has b hb
    · exact ⟨w.drawn, Nat.le_refl _, h.1⟩
  | draw k ih =>
    refine ih w.drawn (w := { w with drawn := w.drawn + 1 }) h fun b hb => ?_
    obtain ⟨m, hm, hb⟩ := has b hb
    exact ⟨m, hm.trans (Nat.le_succ _), hb⟩
  | look k ih => exact ih w.judgments h has
  | add j k ih => exact h.elim
  | note x k ih => exact ih () h has

theorem Always.returns_collapse {p : Nat → α → Prop} {t : Search ν α}
    (h : t.Always w.judgments F p w.drawn) :
    t.collapse.Returns F I
      (fun w' as => w'.judgments = w.judgments ∧ ∀ a ∈ as, ∃ m ≤ w'.drawn, p m a) w :=
  h.returns_collapseInto fun a ha => absurd ha (Array.not_mem_empty a)

theorem Unfailing.returns_collapseInto {t : Search ν α} (h : t.Unfailing w.judgments w.drawn) (as : Array α)
    (ns : Array ν) : (t.collapseInto as).Returns F I
      (fun w' bs => w' = (t.readOn none as ns w).world ∧ bs = (t.readOn none as ns w).results.toList) w := by
  induction t generalizing w as ns with
  | done => exact .one ⟨rfl, rfl⟩
  | fail e => exact h.elim
  | give a k ih => exact ih () (h.2 _ (Nat.le_refl _)) (as.push a) ns
  | draw k ih => exact ih w.drawn (w := { w with drawn := w.drawn + 1 }) h as ns
  | look k ih => exact ih w.judgments h as ns
  | add j k ih => exact h.elim
  | note x k ih => exact ih () h as (ns.push x)

/-- The list of all alternatives is what reads them one after the other. -/
theorem Unfailing.returns_collapse {t : Search ν α} (h : t.Unfailing w.judgments w.drawn) :
    t.collapse.Returns F I (fun w' as => w' = (t.read none w).world ∧ as = (t.read none w).results.toList) w :=
  h.returns_collapseInto #[] #[]

theorem Gives.returns_collapseInto {p : Nat → α → Prop} {t : Search ν α} {as : Array α}
    (h : t.Gives w.judgments p w.drawn ∨ ∃ a ∈ as, ∃ m, p m a) (ht : t.Unfailing w.judgments w.drawn) :
    (t.collapseInto as).Returns F I (fun _ bs => ∃ b ∈ bs, ∃ m, p m b) w := by
  induction t generalizing w as with
  | done => exact .one (h.elim False.elim fun ⟨a, ha, hp⟩ => ⟨a, Array.mem_toList_iff.2 ha, hp⟩)
  | fail e => exact ht.elim
  | give a k ih =>
    refine ih () ?_ (ht.2 _ (Nat.le_refl _))
    rcases h with (h | h) | ⟨b, hb, h⟩
    · exact .inr ⟨a, Array.mem_push_self, w.drawn, h⟩
    · exact .inl (h _ (Nat.le_refl _))
    · exact .inr ⟨b, Array.mem_push_of_mem a hb, h⟩
  | draw k ih => exact ih w.drawn (w := { w with drawn := w.drawn + 1 }) h ht
  | look k ih => exact ih w.judgments h ht
  | add j k ih => exact ht.elim
  | note x k ih => exact ih () h ht

/-- What is somewhere given is in the list of all alternatives. -/
theorem Gives.returns_collapse {p : Nat → α → Prop} {t : Search ν α} (h : t.Gives w.judgments p w.drawn)
    (ht : t.Unfailing w.judgments w.drawn) :
    t.collapse.Returns F I (fun _ as => ∃ a ∈ as, ∃ m, p m a) w :=
  Gives.returns_collapseInto (.inl h) ht

theorem Always.returns_first {p : Nat → α → Prop} {t : Search ν α}
    (h : t.Always w.judgments F p w.drawn) :
    t.first.Returns F I (fun w' x => w'.judgments = w.judgments ∧ ∀ a ∈ x, ∃ m ≤ w'.drawn, p m a) w := by
  induction t generalizing w with
  | done => exact .one ⟨rfl, fun a ha => by cases ha⟩
  | fail e => exact h
  | give a k _ => exact .one ⟨rfl, fun b hb => by cases hb; exact ⟨w.drawn, Nat.le_refl _, h.1⟩⟩
  | draw k ih => exact ih w.drawn (w := { w with drawn := w.drawn + 1 }) h
  | look k ih => exact ih w.judgments h
  | add j k ih => exact h.elim
  | note x k ih => exact ih () h

end ProofSearch.Search
