import ProofSearch.Proofs.Search.Pairing
import ProofSearch.Proofs.Search.Runs
import ProofSearch.Search.Draws

/-!
# Searches found within searches

One search may try less than another, or the same in another order; then it draws other numbers, and gives
fewer alternatives. It is embedded in the other when each of its alternatives has a place of its own among
those of the other, whatever runs the two are on, and stands for what is there (`Search.Embeds`). All numbers
that the two runs draw at the same step are kept in one pairing, in which the alternatives are related; the
stretches that the alternatives span are left out of it, so that what follows them can put its pairs there
(`Search.exists_flatten`). Since unification does not depend on names, images are unified to images
(`Embeds.unify`), and two whole readings differ by one renaming of the names drawn (`Embeds.read`).
-/

namespace ProofSearch
variable {symbols : Bool} {l l' g g' : Pairing symbols} {s s' : Subst} {t t' u u' q q' : Term}
variable {env env' : Environment} {m m' n n' : Nat}

namespace Search
variable {ν α β γ δ : Type} {p : Placement} {js js' : List Judgment}
variable {R : Pairing symbols → α → β → Prop} {S : Pairing symbols → γ → δ → Prop}

/-! ### Two runs -/

/-- The two alternatives are as `R` says at a pairing that has grown from `l`, is part of `g` in the end, and
has the counters at which they were given. -/
def Related (R : Pairing symbols → α → β → Prop) (l g : Pairing symbols) (a : Given α) (b : Given β) : Prop :=
  ∃ l', l.GrowsTo l' ∧ l'.PartOf g ∧ l'.left = a.drawn ∧ l'.right = b.drawn ∧ R l' a.value b.value

/-- `g` has grown from `l` by pairs of numbers that the two runs have drawn themselves. -/
structure Covers (l g : Pairing symbols) (as : List (Given α)) (bs : List (Given β)) : Prop where
  grows : l.GrowsTo g
  own : ∀ i j, g.pairs i j → l.pairs i j ∨ Own l.left g.left as i ∧ Own l.right g.right bs j

/-- The alternatives of the run to `m` have places of their own among those of the run to `m'`. -/
def Found (p : Placement) (R : Pairing symbols → α → β → Prop) (l : Pairing symbols) (as : List (Given α))
    (m : Nat) (bs : List (Given β)) (m' : Nat) : Prop :=
  ∃ g cs, g.left = m ∧ g.right = m' ∧ Covers l g as cs ∧ p.Picks cs bs ∧ List.Forall₂ (Related R l g) as cs

/-- What the first search gives on any run over `js` is found in what the second one gives on any run over
`js'`. -/
def Embeds (p : Placement) (js js' : List Judgment) (R : Pairing symbols → α → β → Prop)
    (l : Pairing symbols) (t : Search ν α) (t' : Search ν β) : Prop :=
  ∀ as m bs m', t.Yields js l.left as m → t'.Yields js' l.right bs m' → Found p R l as m bs m'

namespace Related
variable {a : Given α} {b : Given β}

theorem of_growsTo (h : Related R l' g a b) (hl : l.GrowsTo l') : Related R l g a b :=
  let ⟨l'', hl', h⟩ := h
  ⟨l'', hl.trans hl', h⟩

theorem mono (h : Related R l g a b) (hg : g.PartOf g') : Related R l g' a b :=
  let ⟨l', hl, hpart, h⟩ := h
  ⟨l', hl, fun i j hi => hg i j (hpart i j hi), h⟩

end Related

theorem Found.of_growsTo {as : List (Given α)} {bs : List (Given β)} (h : Found p R l' as m bs m')
    (hl : l.GrowsTo l') (has : InTurn l'.left m as) (hbs : InTurn l'.right m' bs) :
    Found p R l as m bs m' := by
  obtain ⟨g, cs, rfl, rfl, hcovers, hpicks, hrel⟩ := h
  refine ⟨g, cs, rfl, rfl, ⟨hl.trans hcovers.grows, fun i j hg => ?_⟩, hpicks, ?_⟩
  · rcases hcovers.own i j hg with hl' | ⟨hi, hj⟩
    · obtain ⟨hi', hj'⟩ := l'.bounded i j hl'
      refine (hl.fresh i j hl').imp id fun ⟨hi, hj⟩ => ⟨has.own_of_lt hi hi', ?_⟩
      exact (hbs.of_picks hpicks).own_of_lt hj hj'
    · exact .inr ⟨hi.mono hl.left_le, hj.mono hl.right_le⟩
  · exact hrel.imp fun _ _ h => h.of_growsTo hl

/-! ### What follows the alternatives -/

/-- `g'` is `g` with pairs of numbers that the takers of `as` and of `cs` have drawn themselves. -/
structure Fills (g g' : Pairing symbols) (as : List (Given α)) (cs : List (Given β)) (xs : List (Given γ))
    (ws : List (Given δ)) : Prop where
  left : g'.left = g.left
  right : g'.right = g.right
  partOf : g.PartOf g'
  own : ∀ i j, g'.pairs i j → g.pairs i j ∨ Between as xs i ∧ Between cs ws j

/-- What the takers of `a` and `c` have drawn, others have not drawn: their pairs `h` go with those of the
others. -/
theorem Fills.join {h : Pairing symbols} {a : Given α} {c : Given β} {as : List (Given α)}
    {cs : List (Given β)} {xs xs' : List (Given γ)} {ws ws' : List (Given δ)}
    (hfills : Fills g g' as cs xs' ws') (hleft : h.left ≤ g.left) (hright : h.right ≤ g.right)
    (hnew : ∀ i j, h.pairs i j → g.pairs i j ∨ Between [a] xs i ∧ Between [c] ws j)
    (has : InTurn m n (a :: as)) (hcs : InTurn m' n' (c :: cs))
    (hfree : ∀ i j, g.pairs i j → ¬ Spanned (a :: as) i ∧ ¬ Spanned (c :: cs) j)
    (hxs : Nested xs [a]) (hxs' : Nested xs' as) (hws : Nested ws [c]) (hws' : Nested ws' cs) :
    ∃ g'', Fills g g'' (a :: as) (c :: cs) (xs ++ xs') (ws ++ ws') ∧ g'.PartOf g'' ∧ h.PartOf g'' := by
  -- the stretches of `a` and of `c` are disjoint from all the others, and `g` has no number in them
  have hold : ∀ i j, g'.pairs i j → ¬ Spanned [a] i ∧ ¬ Spanned [c] j := fun i j hi => by
    rcases hfills.own i j hi with hi | ⟨hi, hj⟩
    · exact (hfree i j hi).imp (fun hn ha => hn (ha.head as)) fun hn hc => hn (hc.head cs)
    · exact ⟨fun ha => has.not_spanned_tail ha hi.spanned, fun hc => hcs.not_spanned_tail hc hj.spanned⟩
  have hunique : ∀ i j i' j', g'.pairs i j → h.pairs i' j' → (i = i' ↔ j = j') := by
    intro i j i' j' hi hi'
    rcases hnew i' j' hi' with hi' | ⟨ha, hc⟩
    · exact g'.unique i j i' j' hi (hfills.partOf i' j' hi')
    · refine iff_of_false ?_ ?_
      · rintro rfl
        exact (hold i j hi).1 ha.spanned
      · rintro rfl
        exact (hold i j hi).2 hc.spanned
  let g'' := g'.join h (hfills.left ▸ hleft) (hfills.right ▸ hright) hunique
  refine ⟨g'', ⟨hfills.left, hfills.right, fun i j hi => .inl (hfills.partOf i j hi), ?_⟩,
    fun i j => .inl, fun i j => .inr⟩
  rintro i j (hi | hi)
  · exact (hfills.own i j hi).imp id fun ⟨hi, hj⟩ => ⟨hi.tail has hxs, hj.tail hcs hws⟩
  · exact (hnew i j hi).imp id fun ⟨hi, hj⟩ => ⟨hi.head has hxs', hj.head hcs hws'⟩

/-- What is embedded in what follows a related alternative is found there, and all the numbers drawn on the
way come together in one pairing. -/
theorem exists_flatten {f : α → Search ν γ} {f' : β → Search ν δ} {as : List (Given α)}
    {cs : List (Given β)} {xss : List (List (Given γ))} {zss : List (List (Given δ))}
    (hf : ∀ l' a b, l.GrowsTo l' → R l' a b → Embeds p js js' S l' (f a) (f' b))
    (hrel : List.Forall₂ (Related R l g) as cs)
    (hxss : List.Forall₂ (fun a xs => (f a.value).Yields js a.drawn xs a.resumed) as xss)
    (hzss : List.Forall₂ (fun c zs => (f' c.value).Yields js' c.drawn zs c.resumed) cs zss)
    (has : InTurn l.left g.left as) (hcs : InTurn l.right g.right cs)
    (hfree : ∀ i j, g.pairs i j → ¬ Spanned as i ∧ ¬ Spanned cs j) :
    ∃ g' ws, Fills g g' as cs xss.flatten ws ∧ p.Picks ws zss.flatten ∧
      List.Forall₂ (Related S l g') xss.flatten ws := by
  induction hrel generalizing xss zss with
  | nil =>
    cases hxss
    cases hzss
    exact ⟨g, [], ⟨rfl, rfl, fun _ _ h => h, fun _ _ => .inl⟩, .refl p [], .nil⟩
  | @cons a c as cs hac _ ih =>
    cases hxss with
    | @cons _ xs _ xss hxs hxss =>
    cases hzss with
    | @cons _ zs _ zss hzs hzss =>
    obtain ⟨g₁, ws₁, hfills, hpicks₁, hrel₁⟩ := ih hxss hzss has.tail hcs.tail fun i j hi =>
      (hfree i j hi).imp (fun hn hs => hn (hs.cons a)) fun hn hs => hn (hs.cons c)
    -- what follows `a` and `c` starts at the pairing they were given at, not at `g`
    obtain ⟨l₀, hl₀, hpart, hleft, hright, hR⟩ := hac
    obtain ⟨h, ws, hhleft, hhright, hcovers, hpicks, hrel⟩ :=
      hf l₀ _ _ hl₀ hR xs a.resumed zs c.resumed (hleft ▸ hxs) (hright ▸ hzs)
    have hnew : ∀ i j, h.pairs i j → g.pairs i j ∨ Between [a] xs i ∧ Between [c] ws j := fun i j hi => by
      refine (hcovers.own i j hi).imp (hpart i j) fun ⟨hi, hj⟩ => ⟨Own.between ?_, Own.between ?_⟩
      · rwa [← hleft, ← hhleft]
      · rwa [← hright, ← hhright]
    obtain ⟨g', hfills', hpart₁, hpart'⟩ := hfills.join
      (hhleft ▸ has.resumed_le a List.mem_cons_self) (hhright ▸ hcs.resumed_le c List.mem_cons_self)
      hnew has hcs hfree hxs.inTurn.nested (nested_flatten hxss)
      (hzs.inTurn.nested.of_subset hpicks.subset) ((nested_flatten hzss).of_subset hpicks₁.subset)
    refine ⟨g', ws ++ ws₁, hfills', hpicks.append hpicks₁, List.rel_append ?_ ?_⟩
    · exact hrel.imp fun _ _ hr => (hr.of_growsTo hl₀).mono hpart'
    · exact hrel₁.imp fun _ _ hr => hr.mono hpart₁

namespace Embeds

theorem nil {t' : Search ν β} : Embeds p js js' R l done t' := by
  rintro as m bs m' ⟨rfl, rfl⟩ hbs
  let g := l.raise (Nat.le_refl _) hbs.inTurn.le
  exact ⟨g, [], rfl, rfl, ⟨l.growsTo_raise _ _, fun _ _ => .inl⟩, .nil p bs, .nil⟩

theorem one {a : α} {b : β} (h : R l a b) : Embeds p js js' R l (one a : Search ν α) (one b) := by
  rintro as m bs m' ⟨i, hi, _, ⟨rfl, rfl⟩, rfl⟩ ⟨i', hi', _, ⟨rfl, rfl⟩, rfl⟩
  refine ⟨l.raise hi hi', _, rfl, rfl, ⟨l.growsTo_raise _ _, fun _ _ => .inl⟩, .refl p _, .cons ?_ .nil⟩
  exact ⟨l, .refl l, fun _ _ h => h, rfl, rfl, h⟩

theorem append {t : Search ν α} {t' : Search ν β} {u : Unit → Search ν α} {u' : Unit → Search ν β}
    (h : Embeds p js js' R l t t') (hu : ∀ l', l.GrowsTo l' → Embeds p js js' R l' (u ()) (u' ())) :
    Embeds p js js' R l (t.append u) (t'.append u') := by
  intro as m bs m' has hbs
  obtain ⟨as₁, as₂, i, h₁, h₂, rfl⟩ := has.of_append
  obtain ⟨bs₁, bs₂, i', h₁', h₂', rfl⟩ := hbs.of_append
  obtain ⟨g, cs₁, rfl, rfl, hcovers, hpicks, hrel⟩ := h as₁ i bs₁ i' h₁ h₁'
  -- the second search goes on from all the pairs that the first has left
  obtain ⟨g', cs₂, rfl, rfl, hcovers', hpicks', hrel'⟩ := hu g hcovers.grows as₂ m bs₂ m' h₂ h₂'
  refine ⟨g', cs₁ ++ cs₂, rfl, rfl, ⟨hcovers.grows.trans hcovers'.grows, fun k k' hk => ?_⟩,
    hpicks.append hpicks', List.rel_append ?_ ?_⟩
  · rcases hcovers'.own k k' hk with hk | ⟨hk, hk'⟩
    · refine (hcovers.own k k' hk).imp id fun ⟨hk, hk'⟩ => ⟨hk.append_left h₂.inTurn, ?_⟩
      exact hk'.append_left (h₂'.inTurn.of_picks hpicks')
    · exact .inr ⟨hk.append_right h₁.inTurn, hk'.append_right (h₁'.inTurn.of_picks hpicks)⟩
  · exact hrel.imp fun _ _ h => h.mono hcovers'.grows.partOf
  · exact hrel'.imp fun _ _ h => h.of_growsTo hcovers.grows

/-- The second search goes on after the first has come to its end. -/
theorem append_right {t : Search ν α} {t' : Search ν β} {u' : Unit → Search ν β}
    (h : Embeds p js js' R l t t') : Embeds p js js' R l t (t'.append u') := by
  rw [← append_done t]
  exact h.append fun _ _ => nil

theorem bind {t : Search ν α} {t' : Search ν β} {f : α → Search ν γ} {f' : β → Search ν δ}
    (h : Embeds p js js' R l t t')
    (hf : ∀ l' a b, l.GrowsTo l' → R l' a b → Embeds p js js' S l' (f a) (f' b)) :
    Embeds p js js' S l (t.bind f) (t'.bind f') := by
  intro xs m ys m' hxs hys
  obtain ⟨as, xss, has, hxss, rfl⟩ := hxs.of_bind
  obtain ⟨bs, yss, hbs, hyss, rfl⟩ := hys.of_bind
  obtain ⟨g, cs, rfl, rfl, hcovers, hpicks, hrel⟩ := h as m bs m' has hbs
  -- of the second run only what follows the alternatives picked is looked at
  obtain ⟨zss, hzss, hpicked⟩ := hpicks.exists_forall₂ hyss
  have hturn := has.inTurn
  have hturn' := hbs.inTurn.of_picks hpicks
  have hfree : ∀ i j, g.pairs i j → ¬ Spanned as i ∧ ¬ Spanned cs j := fun i j hi => by
    rcases hcovers.own i j hi with hi | ⟨hi, hj⟩
    · exact ⟨hturn.not_spanned_of_lt (l.bounded i j hi).1, hturn'.not_spanned_of_lt (l.bounded i j hi).2⟩
    · exact ⟨hi.free, hj.free⟩
  obtain ⟨g', ws, hfills, hws, hrel'⟩ := exists_flatten hf hrel hxss hzss hturn hturn' hfree
  have hown : ∀ i j, g'.pairs i j →
      l.pairs i j ∨ Own l.left g'.left xss.flatten i ∧ Own l.right g'.right ws j := fun i j hi => by
    rw [hfills.left, hfills.right]
    rcases hfills.own i j hi with hi | ⟨hi, hj⟩
    · refine (hcovers.own i j hi).imp id fun ⟨hi, hj⟩ => ⟨hi.of_nested (nested_flatten hxss), ?_⟩
      exact hj.of_nested ((nested_flatten hzss).of_subset hws.subset)
    · exact .inr ⟨hi.own hturn, hj.own hturn'⟩
  have hgrows : l.GrowsTo g' := by
    refine ⟨hfills.left ▸ hturn.le, hfills.right ▸ hturn'.le, fun i j hi => ?_, fun i j hi => ?_⟩
    · exact hfills.partOf i j (hcovers.grows.partOf i j hi)
    · exact (hown i j hi).imp id fun ⟨hi, hj⟩ => ⟨hi.ge, hj.ge⟩
  exact ⟨g', ws, hfills.left, hfills.right, ⟨hgrows, hown⟩, hws.trans hpicked.flatten, hrel'⟩

theorem draw {k : Nat → Search ν α} {k' : Nat → Search ν β}
    (h : Embeds p js js' R l.draw (k l.left) (k' l.right)) :
    Embeds p js js' R l (.draw k) (.draw k') := fun as m bs m' has hbs =>
  have has' : (k l.left).Yields js l.draw.left as m := has
  have hbs' : (k' l.right).Yields js' l.draw.right bs m' := hbs
  (h as m bs m' has' hbs').of_growsTo l.growsTo_draw has'.inTurn hbs'.inTurn

/-- The first search draws a number that the second has no use for. -/
theorem drawLeft {k : Nat → Search ν α} {t' : Search ν β}
    (h : ∀ l', l.GrowsTo l' → Embeds p js js' R l' (k l.left) t') : Embeds p js js' R l (.draw k) t' := by
  intro as m bs m' has hbs
  have hl := l.growsTo_raise (Nat.le_succ _) (Nat.le_refl _)
  have has : (k l.left).Yields js (l.left + 1) as m := has
  exact (h _ hl as m bs m' has hbs).of_growsTo hl has.inTurn hbs.inTurn

theorem drawRight {t : Search ν α} {k' : Nat → Search ν β}
    (h : ∀ l', l.GrowsTo l' → Embeds p js js' R l' t (k' l.right)) : Embeds p js js' R l t (.draw k') := by
  intro as m bs m' has hbs
  have hl := l.growsTo_raise (Nat.le_refl _) (Nat.le_succ _)
  have hbs : (k' l.right).Yields js' (l.right + 1) bs m' := hbs
  exact (h _ hl as m bs m' has hbs).of_growsTo hl has.inTurn hbs.inTurn

theorem look {k : List Judgment → Search ν α} {k' : List Judgment → Search ν β}
    (h : Embeds p js js' R l (k js) (k' js')) : Embeds p js js' R l (.look k) (.look k') := h

theorem noteIf {b b' : Bool} {x x' : ν} {k : Unit → Search ν α} {k' : Unit → Search ν β}
    (h : Embeds p js js' R l (k ()) (k' ())) :
    Embeds p js js' R l (noteIf b x k) (noteIf b' x' k') := fun as m bs m' has hbs =>
  h as m bs m' ((yields_noteIf b x k).1 has) ((yields_noteIf b' x' k').1 hbs)

/-- The first search gives up, with a note or without. -/
theorem givenUp {b : Bool} {x : ν} {t' : Search ν β} :
    Embeds p js js' R l (Search.noteIf b x fun _ => done) t' := fun as m bs m' has hbs =>
  nil as m bs m' ((yields_noteIf b x fun _ => done).1 has) hbs

theorem ofList {is bs is' : List α} {R : Pairing symbols → α → α → Prop}
    (hR : ∀ l' a b, l.GrowsTo l' → R l a b → R l' a b) (h : List.Forall₂ (R l) is bs)
    (hbs : p.Picks bs is') : Embeds p js js' R l (ofList is : Search ν α) (ofList is') := by
  intro as m as' m' has has'
  have hnum : List.Forall₂ (fun b c => b = c.value ∧ l.right ≤ c.drawn) is' as' := by
    rw [← has'.map_value_of_ofList, List.forall₂_map_left_iff]
    exact List.forall₂_same.2 fun c hc => ⟨rfl, has'.inTurn.ge c hc⟩
  obtain ⟨cs, hcs, hpicks⟩ := hbs.exists_forall₂ hnum
  -- the takers may have drawn: each pair of alternatives is related at `l` raised to its own counters
  have hrel : ∀ g : Pairing symbols, l.PartOf g → List.Forall₂ (Related R l g) as cs := by
    intro g hg
    have hge := has.inTurn.ge
    rw [← has.map_value_of_ofList, List.forall₂_map_left_iff] at h
    clear hpicks hbs has
    induction h generalizing cs with
    | nil =>
      cases hcs
      exact .nil
    | @cons a b as bs hab _ ih =>
      cases hcs with
      | @cons _ c _ cs hc hcs =>
        obtain ⟨ha, hge⟩ := List.forall_mem_cons.1 hge
        have hl := l.growsTo_raise ha hc.2
        exact .cons ⟨_, hl, hg, rfl, rfl, hR _ _ _ hl (hc.1 ▸ hab)⟩ (ih cs hcs hge)
  have hcovers : Covers l (l.raise has.inTurn.le has'.inTurn.le) as cs :=
    ⟨l.growsTo_raise _ _, fun _ _ => .inl⟩
  exact ⟨_, cs, rfl, rfl, hcovers, hpicks, hrel _ fun _ _ h => h⟩

/-- The names drawn in a row are images of each other. -/
theorem drawVars {stem : String} (hstem : stem.toList ≠ []) (k : Nat) {f : List Var → Search ν α}
    {f' : List Var → Search ν β}
    (h : ∀ l' vs vs', l.GrowsTo l' →
      List.Forall₂ (fun v v' => Term.Image l' (.var v) (.var v')) vs vs' →
      Embeds p js js' R l' (f vs) (f' vs')) :
    Embeds p js js' R l (drawVars stem k f) (drawVars stem k f') := by
  induction k generalizing l f f' with
  | zero => exact h l [] [] (.refl l) .nil
  | succ k ih =>
    refine .draw (ih fun l' vs vs' hl hvs => ?_)
    refine h l' _ _ (l.growsTo_draw.trans hl) (.cons ?_ hvs)
    exact (Term.image_drawn l stem hstem).mono hl

/-- The first search draws what the second has no use for. -/
theorem ofDraws {d : Draws γ} {k : γ → Search ν α} {t' : Search ν β}
    (h : ∀ l' c, l.GrowsTo l' → Embeds p js js' R l' (k c) t') : Embeds p js js' R l (ofDraws d k) t' := by
  induction d generalizing l with
  | ret c => exact h l c (.refl l)
  | raise e => exact fun _ _ _ _ has => has.elim
  | draw d ih => exact .drawLeft fun l' hl => ih l.left fun l'' c hl' => h l'' c (hl.trans hl')

/-- Both searches draw before they go on, each with what its computation has returned. -/
theorem ofDraws_both {d : Draws γ} {d' : Draws δ} {k : γ → Search ν α} {k' : δ → Search ν β}
    (h : ∀ l' c c', l.GrowsTo l' → (d.run l.left).1 = .ok c → (d'.run l.right).1 = .ok c' →
      Embeds p js js' R l' (k c) (k' c')) : Embeds p js js' R l (Search.ofDraws d k) (Search.ofDraws d' k') := by
  intro as m bs m' has hbs
  obtain ⟨c, hc, hleft, has⟩ := has.of_ofDraws
  obtain ⟨c', hc', hright, hbs⟩ := hbs.of_ofDraws
  have hl := l.growsTo_raise hleft hright
  exact (h _ c c' hl hc hc' as m bs m' has hbs).of_growsTo hl has.inTurn hbs.inTurn

theorem instantiate (hs : Subst.Image l s s') (ht : Term.Image l t t') {k : Term → Search ν α}
    {k' : Term → Search ν β} (h : ∀ u u', Term.Image l u u' → Embeds p js js' R l (k u) (k' u')) :
    Embeds p js js' R l (ofOption (s.instantiate? t) k) (ofOption (s'.instantiate? t') k') := by
  rw [hs.acyclic.instantiate?_eq, hs.acyclic'.instantiate?_eq]
  exact h _ _ (hs.subst_value ht)

/-- What is unified with images is unified, and the results are images. -/
theorem unify (hs : Subst.Image l s s') (ht : Term.Image l t t') (hu : Term.Image l u u')
    {k : Subst → Search ν α} {k' : Subst → Search ν β}
    (h : ∀ r r', Subst.Image l r r' → Embeds p js js' R l (k r) (k' r')) :
    Embeds p js js' R l (ofUnify (s.unify t u) k) (ofUnify (s'.unify t' u') k') := by
  have renamed : ∀ π, l.Follows π →
      s'.unify t' u' = (s.unify t u).map (Subst.rename (.redraw symbols π)) := fun π hπ => by
    rw [← hs.rename π hπ, ← ht π hπ, ← hu π hπ, Subst.unify_rename]
  -- one permutation shows that there is a result; that it is an image is shown for each of them
  obtain ⟨π, hπ⟩ := l.exists_follows
  match hr : s.unify t u with
  | .ok r =>
    rw [hr] at renamed
    have hr' : s'.unify t' u' = .ok (r.rename (.redraw symbols π)) := renamed π hπ
    rw [hr']
    refine h r _ ⟨(Subst.unified_of_unify hs.acyclic hr).acyclic,
      (Subst.unified_of_unify hs.acyclic' hr').acyclic, fun π' hπ' => ?_⟩
    exact Except.ok.inj ((renamed π' hπ').symm.trans hr')
  | .error .clash => exact nil
  | .error .endless => exact absurd hr (Subst.unify_ne_endless hs.acyclic t u)

/-! ### What is known -/

theorem matchApart_eq (q : Term) (s : Subst) (is : List Judgment) :
    (matchApart q s is : Search ν Subst) =
      (Search.ofList is).bind fun j => .draw fun n =>
        ofUnify (s.unify q (j.tag (ending n)).term) Search.one := by
  induction is with
  | nil => rfl
  | cons j is ih => rw [matchApart, ih]; rfl

theorem matchAll_eq (q : Term) (s : Subst) (is : List Judgment) :
    (matchAll q s is : Search ν Subst) =
      (Search.ofList is).bind fun j => ofUnify (s.unify q j.term) Search.one := by
  induction is with
  | nil => rfl
  | cons j is ih => rw [matchAll, ih]; rfl

theorem matchApart (hs : Subst.Image l s s') (hq : Term.Image l q q') {is is' : List Judgment}
    (his : p.Picks is is') (hkept : ∀ j ∈ is, j.Kept l) :
    Embeds p js js' Subst.Image l (matchApart q s is : Search ν Subst) (matchApart q' s' is') := by
  rw [matchApart_eq, matchApart_eq]
  have hsame : List.Forall₂ (fun j j' => j = j' ∧ j.Kept l) is is :=
    List.forall₂_same.2 fun j hj => ⟨rfl, hkept j hj⟩
  refine bind (R := fun l j j' => j = j' ∧ j.Kept l) (ofList ?_ hsame his) ?_
  · rintro l' j _ hl ⟨rfl, hj⟩
    exact ⟨rfl, hj.mono hl⟩
  · rintro l' j _ hl ⟨rfl, hj⟩
    have hl' := hl.trans l'.growsTo_draw
    exact .draw (unify (hs.mono hl') (hq.mono hl') (Judgment.image_tag hj) fun r r' hr => one hr)

theorem matchAll (hs : Subst.Image l s s') (hq : Term.Image l q q') {is is' : List Judgment}
    (his : List.Forall₂ (Judgment.Image l) is is') :
    Embeds p js js' Subst.Image l (matchAll q s is : Search ν Subst) (matchAll q' s' is') := by
  rw [matchAll_eq, matchAll_eq]
  refine bind (R := Judgment.Image) (ofList (fun _ _ _ hl hj => hj.mono hl) his (.refl p is')) ?_
  exact fun l' j j' hl hj => unify (hs.mono hl) (hq.mono hl) hj.term fun r r' hr => one hr

/-- What is known by fewer judgments is known by more. -/
theorem known (hjs : p.Picks js js') (hkept : ∀ j ∈ js, j.Kept l) (hs : Subst.Image l s s')
    (hq : Term.Image l q q') (henv : Environment.Image l env env') :
    Embeds p js js' Subst.Image l (known env q s : Search ν Subst) (known env' q' s') := by
  have hstored : Embeds p js js' Subst.Image l (stored q s : Search ν Subst) (stored q' s') :=
    look (matchApart hs hq hjs hkept)
  exact hstored.append fun _ hl => matchAll (hs.mono hl) (hq.mono hl) (henv.mono hl)

/-! ### Readings -/

theorem instances {t t' : Search ν Subst} (h : Embeds p js js' Subst.Image l t t') (hq : Term.Image l q q') :
    Embeds p js js' Term.Image l (instances q t) (instances q' t') :=
  h.bind fun _ _ _ hl hr => instantiate hr (hq.mono hl) fun _ _ hu => one hu

/-- Read to their ends, the embedded search gives results whose images are results of the other, all under one
pairing of the numbers that the two have drawn. -/
theorem read_images {w w' : World} {t t' : Search ν Term} (hn : n ≤ w.drawn) (hn' : n ≤ w'.drawn)
    (ht : t.Unfailing w.judgments w.drawn) (ht' : t'.Unfailing w'.judgments w'.drawn)
    (h : Embeds p w.judgments w'.judgments Term.Image ((Pairing.start symbols n).raise hn hn') t t') :
    (t.read none w).status = .ended ∧ (t'.read none w').status = .ended ∧
      ∃ (g : Pairing symbols) (us : List Term), ((Pairing.start symbols n).raise hn hn').GrowsTo g ∧
        g.left = (t.read none w).world.drawn ∧ g.right = (t'.read none w').world.drawn ∧
        List.Forall₂ (Term.Image g) (t.read none w).results.toList us ∧
        p.Picks us (t'.read none w').results.toList := by
  obtain ⟨hended, as, has, hresults⟩ := ht.yields_read
  obtain ⟨hended', bs, hbs, hresults'⟩ := ht'.yields_read
  obtain ⟨g, cs, hleft, hright, hcovers, hcs, hrel⟩ := h as _ bs _ has hbs
  refine ⟨hended, hended', g, cs.map Given.value, hcovers.grows, hleft, hright, ?_, ?_⟩
  · rw [hresults, List.forall₂_map_left_iff, List.forall₂_map_right_iff]
    exact hrel.imp fun a c ⟨_, _, hpart, _, _, himage⟩ π hπ => himage π (hpart.follows hπ)
  · rw [hresults']
    exact hcs.map Given.value

/-- Read to their ends, the embedded search gives results that one renaming of the names drawn takes to
results of the other. -/
theorem read {w w' : World} {t t' : Search ν Term} (hn : n ≤ w.drawn) (hn' : n ≤ w'.drawn)
    (ht : t.Unfailing w.judgments w.drawn) (ht' : t'.Unfailing w'.judgments w'.drawn)
    (h : Embeds p w.judgments w'.judgments Term.Image ((Pairing.start symbols n).raise hn hn') t t') :
    (t.read none w).status = .ended ∧ (t'.read none w').status = .ended ∧
      ∃ ρ : Renaming, ρ.Spares symbols n ∧
        p.Picks ((t.read none w).results.toList.map (Term.rename ρ)) (t'.read none w').results.toList := by
  obtain ⟨hended, hended', g, us, hgrows, -, -, himages, hpicks⟩ := h.read_images hn hn' ht ht'
  obtain ⟨π, hπ⟩ := g.exists_follows
  have hfixed : ∀ i, i < n → π i = i := fun i hi => hgrows.follows hπ i i ⟨rfl, hi⟩
  refine ⟨hended, hended', .redraw symbols π, Renaming.spares_redraw hfixed, ?_⟩
  have hsame : (t.read none w).results.toList.map (Term.rename (.redraw symbols π)) = us := by
    rw [← List.forall₂_eq_eq_eq, List.forall₂_map_left_iff]
    exact himages.imp fun a c himage => himage π hπ
  exact hsame ▸ hpicks

end Embeds
end Search
end ProofSearch
