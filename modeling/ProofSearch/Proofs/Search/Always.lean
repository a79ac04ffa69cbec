import ProofSearch.Proofs.Fresh
import ProofSearch.Search.Note
import ProofSearch.Search.Reading

/-!
# What a search always and what it somewhere gives

Both are said of a search that is read from a counter on over judgments that do not change, and of the
counter at which an alternative is given. Between two alternatives the counter may rise by any amount:
whoever takes them draws numbers too. `Always` allows for nothing else, `Gives` for no failure before;
so both pass through `append` and `bind`, and what they say holds of every reading
(`Always.of_mem_read`, `Gives.exists_mem_read`).
-/

namespace ProofSearch.Search
variable {ν α β : Type} {js : List Judgment} {F : Fault → Prop} {P Q : Nat → α → Prop} {m n : Nat}

/-- Every alternative is as `P` says, at its counter, and a failure has a fault that `F` allows. -/
def Always (js : List Judgment) (F : Fault → Prop) (P : Nat → α → Prop) : Search ν α → Nat → Prop
  | done, _ => True
  | fail e, _ => F e
  | give a k, n => P n a ∧ ∀ m, n ≤ m → (k ()).Always js F P m
  | draw k, n => (k n).Always js F P (n + 1)
  | look k, n => (k js).Always js F P n
  | add _ _, _ => False
  | note _ k, n => (k ()).Always js F P n

/-- No failure is met. -/
def Unfailing (js : List Judgment) (t : Search ν α) (n : Nat) : Prop :=
  t.Always js (fun _ => False) (fun _ _ => True) n

/-- Some alternative is as `P` says, at its counter. -/
def Gives (js : List Judgment) (P : Nat → α → Prop) : Search ν α → Nat → Prop
  | done, _ => False
  | fail _, _ => False
  | give a k, n => P n a ∨ ∀ m, n ≤ m → (k ()).Gives js P m
  | draw k, n => (k n).Gives js P (n + 1)
  | look k, n => (k js).Gives js P n
  | add _ _, _ => False
  | note _ k, n => (k ()).Gives js P n

namespace Always

theorem mono {t : Search ν α} (h : t.Always js F P n) (hP : ∀ m a, n ≤ m → P m a → Q m a) :
    t.Always js F Q n := by
  induction t generalizing n with
  | done => trivial
  | fail e => exact h
  | give a k ih =>
    exact ⟨hP n a (Nat.le_refl n) h.1, fun m hm => ih () (h.2 m hm) fun i b hi => hP i b (hm.trans hi)⟩
  | draw k ih => exact ih n h fun i b hi => hP i b ((Nat.le_succ n).trans hi)
  | look k ih => exact ih js h hP
  | add j k ih => exact h
  | note x k ih => exact ih () h hP

theorem allow {G : Fault → Prop} {t : Search ν α} (h : t.Always js F P n) (hF : ∀ e, F e → G e) :
    t.Always js G P n := by
  induction t generalizing n with
  | done => trivial
  | fail e => exact hF e h
  | give a k ih => exact ⟨h.1, fun m hm => ih () (h.2 m hm)⟩
  | draw k ih => exact ih n h
  | look k ih => exact ih js h
  | add j k ih => exact h
  | note x k ih => exact ih () h

theorem unfailing {t : Search ν α} (h : t.Always js (fun _ => False) P n) : t.Unfailing js n :=
  h.mono fun _ _ _ _ => trivial

theorem and {t : Search ν α} (h : t.Always js F P n) (h' : t.Always js F Q n) :
    t.Always js F (fun m a => P m a ∧ Q m a) n := by
  induction t generalizing n with
  | done => trivial
  | fail e => exact h
  | give a k ih => exact ⟨⟨h.1, h'.1⟩, fun m hm => ih () (h.2 m hm) (h'.2 m hm)⟩
  | draw k ih => exact ih n h h'
  | look k ih => exact ih js h h'
  | add j k ih => exact h
  | note x k ih => exact ih () h h'

theorem append {t : Search ν α} {u : Unit → Search ν α} (h : t.Always js F P n)
    (hu : ∀ m, n ≤ m → (u ()).Always js F P m) : (t.append u).Always js F P n := by
  induction t generalizing n with
  | done => exact hu n (Nat.le_refl n)
  | fail e => exact h
  | give a k ih => exact ⟨h.1, fun m hm => ih () (h.2 m hm) fun i hi => hu i (hm.trans hi)⟩
  | draw k ih => exact ih n h fun i hi => hu i ((Nat.le_succ n).trans hi)
  | look k ih => exact ih js h hu
  | add j k ih => exact h
  | note x k ih => exact ih () h hu

theorem bind {R : Nat → β → Prop} {t : Search ν α} {f : α → Search ν β}
    (h : t.Always js F (fun m a => (f a).Always js F R m) n) : (t.bind f).Always js F R n := by
  induction t generalizing n with
  | done => trivial
  | fail e => exact h
  | give a k ih => exact h.1.append fun m hm => ih () (h.2 m hm)
  | draw k ih => exact ih n h
  | look k ih => exact ih js h
  | add j k ih => exact h
  | note x k ih => exact ih () h

theorem one {a : α} (h : P n a) : (one a : Search ν α).Always js F P n := ⟨h, fun _ _ => trivial⟩

theorem ofUnify {x : Except Refusal Subst} {k : Subst → Search ν α} (hx : x ≠ .error .endless)
    (h : ∀ r, x = .ok r → (k r).Always js F P n) : (Search.ofUnify x k).Always js F P n := by
  match x with
  | .ok r => exact h r rfl
  | .error .clash => trivial
  | .error .endless => exact absurd rfl hx

theorem ofList_bind {as : List α} {R : Nat → β → Prop} {f : α → Search ν β}
    (h : ∀ a ∈ as, ∀ m, n ≤ m → (f a).Always js F R m) :
    ((ofList as).bind f).Always js F R n := by
  induction as generalizing n with
  | nil => trivial
  | cons a as ih =>
    refine (h a List.mem_cons_self n (Nat.le_refl n)).append fun m hm => ih fun b hb i hi => ?_
    exact h b (List.mem_cons_of_mem a hb) i (hm.trans hi)

end Always

namespace Gives

theorem mono {t : Search ν α} (h : t.Gives js P n) (hP : ∀ m a, n ≤ m → P m a → Q m a) :
    t.Gives js Q n := by
  induction t generalizing n with
  | done => exact h
  | fail e => exact h
  | give a k ih =>
    exact h.imp (hP n a (Nat.le_refl n)) fun h m hm => ih () (h m hm) fun i b hi => hP i b (hm.trans hi)
  | draw k ih => exact ih n h fun i b hi => hP i b ((Nat.le_succ n).trans hi)
  | look k ih => exact ih js h hP
  | add j k ih => exact h
  | note x k ih => exact ih () h hP

theorem append_left {t : Search ν α} {u : Unit → Search ν α} (h : t.Gives js P n) :
    (t.append u).Gives js P n := by
  induction t generalizing n with
  | done => exact h.elim
  | fail e => exact h
  | give a k ih => exact h.imp id fun h m hm => ih () (h m hm)
  | draw k ih => exact ih n h
  | look k ih => exact ih js h
  | add j k ih => exact h
  | note x k ih => exact ih () h

theorem append_right {t : Search ν α} {u : Unit → Search ν α} (ht : t.Unfailing js n)
    (hu : ∀ m, n ≤ m → (u ()).Gives js P m) : (t.append u).Gives js P n := by
  induction t generalizing n with
  | done => exact hu n (Nat.le_refl n)
  | fail e => exact ht.elim
  | give a k ih => exact .inr fun m hm => ih () (ht.2 m hm) fun i hi => hu i (hm.trans hi)
  | draw k ih => exact ih n ht fun i hi => hu i ((Nat.le_succ n).trans hi)
  | look k ih => exact ih js ht hu
  | add j k ih => exact ht.elim
  | note x k ih => exact ih () ht hu

/-- Every alternative before the one looked for is followed to its end, so none of them may fail. -/
theorem bind {R : Nat → β → Prop} {t : Search ν α} {f : α → Search ν β} (h : t.Gives js P n)
    (ht : t.Always js (fun _ => False) (fun m a => (f a).Unfailing js m) n)
    (hf : ∀ m a, n ≤ m → P m a → (f a).Gives js R m) : (t.bind f).Gives js R n := by
  induction t generalizing n with
  | done => exact h.elim
  | fail e => exact h.elim
  | give a k ih =>
    rcases h with h | h
    · exact (hf n a (Nat.le_refl n) h).append_left
    · exact append_right ht.1 fun m hm => ih () (h m hm) (ht.2 m hm) fun i b hi => hf i b (hm.trans hi)
  | draw k ih => exact ih n h ht fun i b hi => hf i b ((Nat.le_succ n).trans hi)
  | look k ih => exact ih js h ht hf
  | add j k ih => exact h.elim
  | note x k ih => exact ih () h ht hf

theorem and {t : Search ν α} (h : t.Gives js P n) (ht : t.Always js F Q n) :
    t.Gives js (fun m a => Q m a ∧ P m a) n := by
  induction t generalizing n with
  | done => exact h
  | fail e => exact h
  | give a k ih => exact h.imp (fun h => ⟨ht.1, h⟩) fun h m hm => ih () (h m hm) (ht.2 m hm)
  | draw k ih => exact ih n h ht
  | look k ih => exact ih js h ht
  | add j k ih => exact h
  | note x k ih => exact ih () h ht

theorem one {a : α} (h : P n a) : (one a : Search ν α).Gives js P n := .inl h

theorem ofList_bind {as : List α} {R : Nat → β → Prop} {f : α → Search ν β} {a : α} (ha : a ∈ as)
    (h : ∀ m, n ≤ m → (f a).Gives js R m) (hf : ∀ b ∈ as, ∀ m, n ≤ m → (f b).Unfailing js m) :
    ((ofList as).bind f).Gives js R n := by
  induction as generalizing n with
  | nil => cases ha
  | cons b as ih =>
    rcases List.mem_cons.1 ha with rfl | ha
    · exact (h n (Nat.le_refl n)).append_left
    · obtain ⟨hb, hf⟩ := List.forall_mem_cons.1 hf
      exact append_right (hb n (Nat.le_refl n)) fun m hm =>
        ih ha (fun i hi => h i (hm.trans hi)) fun c hc i hi => hf c hc i (hm.trans hi)

end Gives

/-! ### Notes and draws -/

theorem event_eq {s : Subst} (hs : s.Acyclic) (traced : Bool) (e : Event) (level : Datum) (q : Term)
    (rest : Unit → Search Note α) :
    event traced e level s q rest = noteIf traced (.event e level (q.subst s.value)) rest := by
  rw [event, hs.instantiate?_eq]; rfl

@[simp] theorem always_noteIf (b : Bool) (x : ν) (k : Unit → Search ν α) :
    (noteIf b x k).Always js F P n ↔ (k ()).Always js F P n := by cases b <;> rfl

@[simp] theorem gives_noteIf (b : Bool) (x : ν) (k : Unit → Search ν α) :
    (noteIf b x k).Gives js P n ↔ (k ()).Gives js P n := by cases b <;> rfl

theorem always_drawVars (stem : String) (k : Nat) (f : List Var → Search ν α) :
    (drawVars stem k f).Always js F P n ↔ (f (Var.drawnList stem n k)).Always js F P (n + k) := by
  induction k generalizing n f with
  | zero => rfl
  | succ k ih =>
    show (drawVars stem k _).Always js F P (n + 1) ↔ _
    rw [ih, Nat.add_right_comm, Nat.add_assoc]
    rfl

theorem gives_drawVars (stem : String) (k : Nat) (f : List Var → Search ν α) :
    (drawVars stem k f).Gives js P n ↔ (f (Var.drawnList stem n k)).Gives js P (n + k) := by
  induction k generalizing n f with
  | zero => rfl
  | succ k ih =>
    show (drawVars stem k _).Gives js P (n + 1) ↔ _
    rw [ih, Nat.add_right_comm, Nat.add_assoc]
    rfl

/-! ### Readings -/

/-- The reading has left the store as it was in `w`. Its results are those of `as` and others, each of
which was given, as `P` says, at a counter that the reading has come to. -/
structure Reading.Within (P : Nat → α → Prop) (w : World) (as : Array α) (r : Reading ν α) : Prop where
  judgments : r.world.judgments = w.judgments
  drawn_le : w.drawn ≤ r.world.drawn
  results : ∀ a ∈ r.results, a ∈ as ∨ ∃ m ≤ r.world.drawn, P m a

theorem Reading.Within.of_mem {w : World} {r : Reading ν α} (h : r.Within P w #[]) {a : α}
    (ha : a ∈ r.results) : ∃ m ≤ r.world.drawn, P m a :=
  (h.results a ha).resolve_left (Array.not_mem_empty a)

theorem Always.readOn {t : Search ν α} {w : World} (h : t.Always w.judgments F P w.drawn)
    (more : Option Nat) (as : Array α) (ns : Array ν) : (t.readOn more as ns w).Within P w as := by
  induction t generalizing more as ns w with
  | done => exact ⟨rfl, Nat.le_refl _, fun a ha => .inl ha⟩
  | fail e => exact ⟨rfl, Nat.le_refl _, fun a ha => .inl ha⟩
  | give b k ih =>
    have pushed : ∀ n, w.drawn ≤ n → ∀ a ∈ as.push b, a ∈ as ∨ ∃ m ≤ n, P m a := by
      intro n hn a ha
      rcases Array.mem_push.1 ha with ha | rfl
      · exact .inl ha
      · exact .inr ⟨w.drawn, hn, h.1⟩
    have on : ∀ more, ((k ()).readOn more (as.push b) ns w).Within P w as := by
      intro more
      have hk := ih () (h.2 _ (Nat.le_refl _)) more (as.push b) ns
      refine ⟨hk.judgments, hk.drawn_le, fun a ha => ?_⟩
      rcases hk.results a ha with ha | ha
      · exact pushed _ hk.drawn_le a ha
      · exact .inr ha
    match more with
    | none => exact on none
    | some 0 => exact ⟨rfl, Nat.le_refl _, pushed _ (Nat.le_refl _)⟩
    | some (n + 1) => exact on (some n)
  | draw k ih =>
    have hk := ih w.drawn (w := { w with drawn := w.drawn + 1 }) h more as ns
    exact ⟨hk.judgments, (Nat.le_succ _).trans hk.drawn_le, hk.results⟩
  | look k ih => exact ih w.judgments h more as ns
  | add j k ih => exact h.elim
  | note x k ih => exact ih () h more as _

theorem Always.read {t : Search ν α} {w : World} (h : t.Always w.judgments F P w.drawn)
    (limit : Option Nat) : (t.read limit w).Within P w #[] := by
  match limit with
  | none => exact h.readOn none #[] #[]
  | some 0 => exact ⟨rfl, Nat.le_refl _, fun a ha => .inl ha⟩
  | some (n + 1) => exact h.readOn (some n) #[] #[]

theorem Always.of_mem_read {t : Search ν α} {w : World} (h : t.Always w.judgments F P w.drawn)
    {limit : Option Nat} {a : α} (ha : a ∈ (t.read limit w).results) : ∃ m, P m a := by
  obtain ⟨m, _, hm⟩ := (h.read limit).of_mem ha
  exact ⟨m, hm⟩

theorem Unfailing.status_read {t : Search ν α} {w : World} (h : t.Unfailing w.judgments w.drawn) :
    (t.read none w).status = .ended := by
  have on : ∀ as ns, (t.readOn none as ns w).status = .ended := by
    induction t generalizing w with
    | done => exact fun _ _ => rfl
    | fail e => exact h.elim
    | give a k ih => exact fun as => ih () (h.2 w.drawn (Nat.le_refl _)) (as.push a)
    | draw k ih => exact ih w.drawn (w := { w with drawn := w.drawn + 1 }) h
    | look k ih => exact ih w.judgments h
    | add j k ih => exact h.elim
    | note x k ih => exact fun as ns => ih () h as (ns.push x)
  exact on #[] #[]

theorem mem_readOn (t : Search ν α) {as : Array α} {ns : Array ν} {w : World} {a : α} (ha : a ∈ as) :
    a ∈ (t.readOn none as ns w).results := by
  induction t generalizing as ns w with
  | done => exact ha
  | fail e => exact ha
  | give b k ih => exact ih () (Array.mem_push.2 (.inl ha))
  | draw k ih => exact ih _ ha
  | look k ih => exact ih _ ha
  | add j k ih => exact ih () ha
  | note x k ih => exact ih () ha

theorem Gives.exists_mem_read {t : Search ν α} {w : World} (h : t.Gives w.judgments P w.drawn) :
    ∃ a ∈ (t.read none w).results, ∃ m, P m a := by
  have reading : ∀ {as ns}, ∃ a ∈ (t.readOn none as ns w).results, ∃ m, P m a := by
    induction t generalizing w with
    | done => exact h.elim
    | fail e => exact h.elim
    | give b k ih =>
      intro as ns
      rcases h with h | h
      · exact ⟨b, mem_readOn (k ()) (Array.mem_push.2 (.inr rfl)), _, h⟩
      · exact ih () (h w.drawn (Nat.le_refl _))
    | draw k ih => exact ih w.drawn h
    | look k ih => exact ih w.judgments h
    | add j k ih => exact h.elim
    | note x k ih => exact ih () h
  exact reading

end ProofSearch.Search
