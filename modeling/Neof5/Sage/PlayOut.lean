import Neof5.Sage.Plan
import Neof5.Sage.Strength

/-!
# Playing a plan out

A plan assumes that a strong hand clears the table. After a weak hand the table holds that hand,
so the next one has to be put on it. Below the root the search enumerates the hands against an
empty table, and only two of the three places that create children there look at the hand of the
node: the finishing hand and the strong hand must have as many cards. In one order of the cards
such a hand is the stronger one (`canPut_of_strong`).

`Slip` names the expansions that attach a hand which cannot be put on the node's: a weak hand
beside a strong one, which is not compared at all, and a hand on four or more cards, which were
evaluated before they turned the order around.

* `Run`: the states that the search goes through.
* `playsOut_iff_not_slip`: an expansion attaches only hands that can be played exactly if it is
  no slip.
* `plan_plays_out`: in every run without a slip, the plan can be played out.
-/

namespace Neof5

open CardSet

namespace SagePlayer

variable {α : Type} [Score α]

/-- The state in which the search starts. -/
def startConf (w : World) (ba deck : CardSet) (k : Bool) (m : Mach) : Conf α :=
  ⟨0, ba, w.order 0 [[]], ⟨m, EvalNode.new deck k, []⟩⟩

/-- The states that the search goes through. -/
def Run (w : World) (env : SearchEnv α) (ba deck : CardSet) (k : Bool) (m : Mach) :
    Conf α → Prop :=
  Relation.ReflTransGen (Step w env) (startConf w ba deck k m)

section

variable {w : World} {env : SearchEnv α} {cls : RuleClass} {ba deck : CardSet} {k : Bool} {m : Mach}

/-- The invariant of the search holds in a run. -/
theorem Run.inv (hev : env.Evaluates) (hm : m.rule.cls = cls) {c : Conf α}
    (h : Run w env ba deck k m c) : SearchInv env cls ba deck k m.ticks c := by
  induction h with
  | refl => exact .start w hm
  | tail _ hstep ih =>
    cases hstep with
    | visit hv =>
      obtain ⟨out, hrun, hend⟩ := visit_spec (w := w) hev ih
      cases hv.symm.trans hrun
      exact hend
    | level _ => exact ih.nextLevel

/-- **The edges of the tree.** What holds of every node that is expanded in a run and of the
children that can be attached to it, holds along the edges of the final tree. -/
theorem thinkRecursive_edges (hev : env.Evaluates) (w : World) (ba deck : CardSet) (k : Bool)
    (hm : m.rule.cls = cls)
    {E : NodePtr → Bool → Pos α → Pos α → Prop}
    (hE : ∀ c, Run w env ba deck k m c → ∀ p todo n, c.todo = p :: todo →
      c.state.tree.get? p = some n → ∀ v,
      Attached env cls p.isRoot (lookAhead c.state.tree p) (tableAt ba p) n.label.pos v →
      E p (lookAhead c.state.tree p) n.label.pos v) :
    ∃ (s : Search α) (r : Option NodePtr),
      thinkRecursive w env (deck.size + 2) 0 ba [[]] m (EvalNode.new deck k) =
        .ok (s.mach, s.tree, r) ∧ Edges E s.tree := by
  refine thinkRecursive_rule
    (I := fun c => Run w env ba deck k m c ∧ Edges E c.state.tree) (Q := fun s _ => Edges E s.tree)
    (fun d ba' p todo s h => ?_) (fun d ba' s h hne => ?_) (fun d ba' s h _ => h.2)
    (fun c h hne => (h.1.inv hev hm).level_lt hne) (deck.size + 2) 0 ba [[]] m (EvalNode.new deck k)
    (by omega) (by simp) ⟨.refl, .new deck k⟩
  · have hinv := h.1.inv hev hm
    obtain ⟨⟨s', o⟩, hrun, -⟩ := visit_spec (w := w) hev hinv
    obtain ⟨n, n', hn, htree, hkids⟩ := visit_kids hev hinv hrun
    have hedges : Edges E s'.tree := by
      rw [htree]
      exact h.2.modify hn hkids.pos hkids.leaf fun c hc =>
        hE _ h.1 p todo n rfl hn _ (hkids.attached c hc)
    refine ⟨_, hrun, ?_⟩
    cases o with
    | none => exact ⟨h.1.tail (.visit hrun), hedges⟩
    | some r => exact hedges
  · exact ⟨h.1.tail (.level hne), h.2⟩

end

/-! ## Slips -/

section Slip

variable (env : SearchEnv α) (cls : RuleClass) (look : Bool) (u : Pos α)

/-- The expansion of the weak hand of `u` attaches a hand that cannot be put on it. -/
inductive Slip : Prop
  /-- a weak hand beside a strong one -/
  | poor {beh peh} : u.hand ≠ ∅ → env.isStrongHand u.p1 = false → look = true →
      Offered env cls ∅ u beh → env.isStrongHand beh.p1 = true → Follows env u beh.hand →
      Offered env cls ∅ u peh → env.isStrongHand peh.p1 = false → Apart peh.hand beh.hand →
      DaifugoRule.canPut ⟨cls, u.isKakumei⟩ peh.hand u.hand ≠ .ok .ok → Slip
  /-- a strong hand on four or more cards -/
  | turned {eh} : 4 ≤ u.hand.size → env.isStrongHand u.p1 = false →
      Offered env cls ∅ u eh → env.isStrongHand eh.p1 = true → eh.hand.size = u.hand.size →
      u.tefda \ eh.hand = ∅ ∧ DaifugoRule.canAgari ⟨cls, u.isKakumei⟩ eh.hand = .ok .ok ∨
        look = true ∧ Follows env u eh.hand →
      DaifugoRule.canPut ⟨cls, u.isKakumei⟩ eh.hand u.hand ≠ .ok .ok → Slip

end Slip

variable {env : SearchEnv α} {cls : RuleClass} {look : Bool} {u v : Pos α}

/-- Three hands that are played from three cards are cards. -/
theorem singles_of_size_le {deck H B P : CardSet} (hdeck : deck.size ≤ 3) (hH : H ≠ ∅) (hB : B ≠ ∅)
    (hP : P ≠ ∅) (hHd : H ⊆ deck) (hBd : B ⊆ deck) (hPd : P ⊆ deck) (hHB : Apart H B)
    (hHP : Apart H P) (hPB : Apart P B) :
    ∃ x ∈ deck, ∃ y ∈ deck, ∃ z ∈ deck, H = single x ∧ B = single y ∧ P = single z := by
  have hdisj : ∀ {s t : CardSet}, Apart s t → Disjoint s.toFinset t.toFinset := fun h =>
    Finset.disjoint_left.mpr fun c hs ht => h c (mem_toFinset.mp hs) (mem_toFinset.mp ht)
  have hunion : (H.toFinset ∪ B.toFinset ∪ P.toFinset).card ≤ deck.toFinset.card :=
    Finset.card_le_card (Finset.union_subset (Finset.union_subset (toFinset_subset.mpr hHd)
      (toFinset_subset.mpr hBd)) (toFinset_subset.mpr hPd))
  rw [Finset.card_union_of_disjoint (Finset.disjoint_union_left.mpr
      ⟨hdisj hHP, (hdisj hPB).symm⟩), Finset.card_union_of_disjoint (hdisj hHB), ← size_eq_card,
    ← size_eq_card, ← size_eq_card, ← size_eq_card] at hunion
  have hsingle : ∀ {s : CardSet}, s ≠ ∅ → s.size ≤ 1 → s ⊆ deck → ∃ c ∈ deck, s = single c := by
    intro s hs h1 hsub
    obtain ⟨c, hc⟩ := exists_mem_of_ne hs
    refine ⟨c, subset_iff.mp hsub c hc, ?_⟩
    rw [size_eq_card, Finset.card_le_one] at h1
    ext d
    rw [mem_single]
    refine ⟨fun hd => h1 d (by simpa using hd) c (by simpa using hc), ?_⟩
    rintro rfl
    exact hc
  have h1 := size_pos.mpr hH
  have h2 := size_pos.mpr hB
  have h3 := size_pos.mpr hP
  obtain ⟨x, hx, rfl⟩ := hsingle hH (by omega) hHd
  obtain ⟨y, hy, rfl⟩ := hsingle hB (by omega) hBd
  obtain ⟨z, hz, rfl⟩ := hsingle hP (by omega) hPd
  exact ⟨x, hx, y, hy, z, hz, rfl, rfl, rfl⟩

/-- Whether a card on its own clears the table. -/
def SearchEnv.strongCard (env : SearchEnv α) (k : Bool) (c : Card) : Except Fault Bool :=
  (env.potential (single c) k).map env.isStrongHand

theorem strongCard_eq {k : Bool} {c : Card} {p : α} (h : env.potential (single c) k = .ok p) :
    env.strongCard k c = .ok (env.isStrongHand p) := by
  rw [SearchEnv.strongCard, h]
  rfl

/-- The value of a hand is that under the order before it. -/
theorem Attached.valued {isRoot : Bool} {ba : CardSet}
    (h : Attached env cls isRoot look ba u v) (hne : v.hand ≠ ∅) :
    v.hand.IsGroup ∧ env.potential v.hand
      (if 4 ≤ v.hand.size then !v.isKakumei else v.isKakumei) = .ok v.p1 := by
  rcases h.offered_or_pass with ⟨eh, ho, rfl⟩ | ⟨-, -, rfl⟩
  · refine ⟨isGroup_of_canPut ho.playable.2 ho.playable.1, ?_⟩
    have hk : (if 4 ≤ eh.hand.size then !(u.child eh).isKakumei else (u.child eh).isKakumei) =
        u.isKakumei := by
      simp only [Pos.child]
      split <;> simp
    exact hk ▸ ho.p1
  · exact (hne rfl).elim

/-- Where the card `y` is strong and passes the test after the weak card `x`, the weak card `z` can
be put on `x`. -/
def SearchEnv.ThirdFits (env : SearchEnv α) (cls : RuleClass) (k : Bool) (x y z : Card) : Prop :=
  x ≠ z → env.strongCard k x = .ok false → env.strongCard k y = .ok true →
    env.strongCard k z = .ok false →
    (x.getStrength : Int) + (if k then -2 else 2) ≤ y.getStrength →
    DaifugoRule.canPut ⟨cls, k⟩ (single z) (single x) = .ok .ok

instance (cls : RuleClass) (k : Bool) (x y z : Card) : Decidable (env.ThirdFits cls k x y z) :=
  inferInstanceAs (Decidable (_ → _))

/-- A player with three cards does not slip if every third card fits. -/
theorem Run.not_slip {w : World} {ba deck : CardSet} {k : Bool} {m : Mach} (hev : env.Evaluates)
    (hdeck : deck.size ≤ 3)
    (hfits : ∀ x ∈ deck, ∀ y ∈ deck, ∀ z ∈ deck, env.ThirdFits m.rule.cls k x y z)
    {c : Conf α} (h : Run w env ba deck k m c) {p : NodePtr} {d : NodeData α}
    (hd : c.state.tree.label? p = some d) : ¬ Slip env m.rule.cls look d.pos := by
  have htree := (h.inv hev rfl).tree
  obtain ⟨hdealt, hown⟩ := htree.path p d hd
  have hsub : ∀ H ∈ pathHands c.state.tree p, H ⊆ deck := fun H hH =>
    subset_iff.mpr fun x hx => (hdealt.union x).mpr (.inr ⟨H, hH, hx⟩)
  have hsmall : ∀ H ∈ pathHands c.state.tree p, H.size < 4 := fun H hH =>
    (size_le_of_subset (hsub H hH)).trans_lt (by omega)
  have hk : d.isKakumei = k := (htree.turned p d hd).trans (turnedBy_of_small hsmall)
  by_cases hne : d.hand.hand = ∅
  · rintro (⟨h0, -⟩ | ⟨h4, -⟩)
    · exact h0 hne
    · simp [NodeData.pos, hne] at h4
  have hmem := hown.resolve_left hne
  -- The hand was evaluated when its node was created.
  have hp1 : env.potential d.hand.hand k = .ok d.hand.p1 := by
    cases p with
    | nil =>
      cases hd
      exact absurd (congrArg Pos.hand htree.root) hne
    | cons i q =>
      obtain ⟨n, -, hn, -, -⟩ := Rose.exists_parent hd
      have hval : env.potential d.hand.hand (if 4 ≤ d.hand.hand.size then !d.isKakumei
          else d.isKakumei) = .ok d.hand.p1 :=
        ((htree.edge i q n.label d (Rose.label?_of_get? hn) hd).valued hne).2
      rw [if_neg (Nat.not_le.mpr (hsmall _ hmem))] at hval
      exact hk ▸ hval
  rintro (@⟨beh, peh, -, hweak, -, hbo, hbs, hbf, hpo, hpw, hap, hput⟩ | ⟨h4, -⟩)
  · have hleft : ∀ {H : CardSet}, H ⊆ d.hand.tefda → H ⊆ deck ∧ Apart d.hand.hand H := fun hH =>
      ⟨subset_iff.mpr fun x hx => (hdealt.union x).mpr (.inl (subset_iff.mp hH x hx)),
        fun x hx hxH => hdealt.left _ hmem x hx (subset_iff.mp hH x hxH)⟩
    obtain ⟨hbd, hba⟩ := hleft hbo.subset
    obtain ⟨hpd, hpa⟩ := hleft hpo.subset
    obtain ⟨x, hx, y, hy, z, hz, hxe, hye, hze⟩ := singles_of_size_le hdeck hne hbo.playable.1
      hpo.playable.1 (hsub _ hmem) hbd hpd hba hpa hap
    have hbp : env.potential beh.hand d.isKakumei = .ok beh.p1 := hbo.p1
    have hpp : env.potential peh.hand d.isKakumei = .ok peh.p1 := hpo.p1
    have htest : (d.hand.hand.lead.getStrength : Int) + (if d.isKakumei then -2 else 2) ≤
        beh.hand.lead.getStrength := by
      rcases hbf with h0 | hs | ⟨-, htest⟩
      · exact absurd h0 hne
      · rw [hweak] at hs
        cases hs
      · exact htest
    have hxz : x ≠ z := by
      rintro rfl
      exact hpa x (by simp [hxe]) (by simp [hze])
    have hok := hfits x hx y hy z hz hxz (by rw [strongCard_eq (hxe ▸ hp1), ← hweak]; rfl)
      (by rw [strongCard_eq (hye ▸ hk ▸ hbp), hbs]) (by rw [strongCard_eq (hze ▸ hk ▸ hpp), hpw])
      (by rwa [hxe, hye, lead_single, lead_single, hk] at htest)
    rw [← hxe, ← hze, ← hk] at hok
    exact hput hok
  · exact absurd (hsmall _ hmem) (Nat.not_lt.mpr h4)

/-- After the hand of `u` the hand of `v` can be played: the first clears the table, or the second
can be put on it. -/
def PlaysOut (env : SearchEnv α) (cls : RuleClass) (u v : Pos α) : Prop :=
  u.hand ≠ ∅ → env.isStrongHand u.p1 = true ∨
    DaifugoRule.canPut ⟨cls, u.isKakumei⟩ v.hand u.hand = .ok .ok

instance (env : SearchEnv α) (cls : RuleClass) (u v : Pos α) : Decidable (PlaysOut env cls u v) :=
  inferInstanceAs (Decidable (_ → _))

/-! ## Plans -/

section

variable {ctx : DaifugoContext} {L : Int} {u v : Pos ExtRat}

/-- A child that is attached below the root without a slip can be played after its parent. -/
theorem Attached.playsOut (hval : u.hand ≠ ∅ → u.hand.IsGroup ∧ (searchEnv ctx L).potential u.hand
      (if 4 ≤ u.hand.size then !u.isKakumei else u.isKakumei) = .ok u.p1)
    (hno : ¬ Slip (searchEnv ctx L) cls look u)
    (h : Attached (searchEnv ctx L) cls false look ∅ u v) : PlaysOut (searchEnv ctx L) cls u v := by
  intro hne
  obtain ⟨hgroup, hp1⟩ := hval hne
  cases hweak : (searchEnv ctx L).isStrongHand u.p1 with
  | true => exact .inl rfl
  | false =>
  refine .inr ?_
  -- A strong hand with as many cards: the two were evaluated in one order, unless the first has
  -- four cards or more.
  have hsame : ∀ {eh : EvalHand ExtRat}, Offered (searchEnv ctx L) cls ∅ u eh →
      (searchEnv ctx L).isStrongHand eh.p1 = true → eh.hand.size = u.hand.size →
      u.tefda \ eh.hand = ∅ ∧ DaifugoRule.canAgari ⟨cls, u.isKakumei⟩ eh.hand = .ok .ok ∨
        look = true ∧ Follows (searchEnv ctx L) u eh.hand →
      DaifugoRule.canPut ⟨cls, u.isKakumei⟩ eh.hand u.hand = .ok .ok := by
    intro eh ho hs hsize hway
    by_cases h4 : 4 ≤ u.hand.size
    · by_contra hput
      exact hno (.turned h4 hweak ho hs hsize hway hput)
    · rw [if_neg h4] at hp1
      exact canPut_of_strong hne ho.playable.1 hgroup
        (isGroup_of_canPut ho.playable.2 ho.playable.1) hsize.symm hp1 ho.p1 hweak hs
  cases h with
  | finish ho hgone hwin hag =>
    rcases hwin with hr | hs | ⟨hs, hsize⟩
    · cases hr
    · rw [hweak] at hs; cases hs
    · exact hsame ho hs hsize (.inl ⟨hgone, hag⟩)
  | better hl ho hs hf =>
    rcases id hf with h0 | hstr | ⟨hsize, -⟩
    · exact (hne h0).elim
    · rw [hweak] at hstr; cases hstr
    · exact hsame ho hs hsize.symm (.inr ⟨hl, hf⟩)
  | poor hl hbo hbs hbf hpo hpw hap =>
    by_contra hput
    exact hno (.poor hne hweak hl hbo hbs hbf hpo hpw hap hput)
  | rootPoor hr => cases hr
  | pass hr => cases hr

/-- A slip can attach a child that cannot be played after its parent. -/
theorem Slip.exists_attached {env : SearchEnv α} {u : Pos α} (h : Slip env cls look u) :
    ∃ v, Attached env cls false look ∅ u v ∧ ¬ PlaysOut env cls u v := by
  cases h with
  | poor hne hweak hl hbo hbs hbf hpo hpw hap hput =>
    refine ⟨_, .poor hl hbo hbs hbf hpo hpw hap, fun hplay => ?_⟩
    rcases hplay hne with hs | hok
    · rw [hweak] at hs; cases hs
    · exact hput hok
  | turned h4 hweak ho hs hsize hway hput =>
    have hne : u.hand ≠ ∅ := size_pos.mp (by omega)
    have hbad : ¬ PlaysOut env cls u (u.child _) := fun hplay => by
      rcases hplay hne with hs | hok
      · rw [hweak] at hs; cases hs
      · exact hput hok
    rcases hway with ⟨hgone, hag⟩ | ⟨hl, hf⟩
    · exact ⟨_, .finish ho hgone (.inr (.inr ⟨hs, hsize⟩)) hag, hbad⟩
    · exact ⟨_, .better hl ho hs hf, hbad⟩

/-- **Slips.** The expansion of a node below the root attaches only hands that can be played after
the node's exactly if it is no slip. -/
theorem playsOut_iff_not_slip (hval : u.hand ≠ ∅ → u.hand.IsGroup ∧
      (searchEnv ctx L).potential u.hand
        (if 4 ≤ u.hand.size then !u.isKakumei else u.isKakumei) = .ok u.p1) :
    (∀ v, Attached (searchEnv ctx L) cls false look ∅ u v → PlaysOut (searchEnv ctx L) cls u v) ↔
      ¬ Slip (searchEnv ctx L) cls look u := by
  refine ⟨fun hall hslip => ?_, fun hno v h => Attached.playsOut hval hno h⟩
  obtain ⟨v, hv, hbad⟩ := hslip.exists_attached
  exact hbad (hall v hv)

/-- Along every path of a tree without slips the hands can be played one after the other. -/
theorem TreeInv.playsOut {ba deck : CardSet} {k : Bool} {tree : EvalNode ExtRat}
    (h : TreeInv (searchEnv ctx L) cls ba deck k tree)
    (hno : Edges (fun _ look u _ => ¬ Slip (searchEnv ctx L) cls look u) tree) :
    ∀ (q : NodePtr) (d : NodeData ExtRat), tree.label? q = some d →
      (pathNodes tree q).IsChain fun u v => PlaysOut (searchEnv ctx L) cls u.pos v.pos := by
  intro q
  induction q with
  | nil => intro d _; simp [pathNodes]
  | cons i p ih =>
    intro e he
    obtain ⟨n, -, hn, -, -⟩ := Rose.exists_parent he
    have hd := Rose.label?_of_get? hn
    simp only [pathNodes, he, Option.toList_some]
    refine List.isChain_append.mpr ⟨ih _ hd, .singleton _, fun x hx y hy => ?_⟩
    cases p with
    | nil => simp [pathNodes] at hx
    | cons j p =>
      -- The last node before is the parent, and the value of its hand comes from its own parent.
      obtain rfl : n.label = x := by simpa [pathNodes, hd] using hx
      obtain rfl : e = y := by simpa using hy
      obtain ⟨n0, -, hn0, -, -⟩ := Rose.exists_parent hd
      have habove := h.edge j p n0.label n.label (Rose.label?_of_get? hn0) hd
      have hedge := h.edge i (j :: p) n.label e hd he
      exact (playsOut_iff_not_slip habove.valued).mpr (hno i (j :: p) n.label e hd he) _ hedge

/-- **Plans can be played out.** The search returned a node below the root, and none of the
expansions in its run was a slip. Then along the path to the node each hand clears the table, or
the next one can be put on it. -/
theorem plan_plays_out (w : World) (ctx : DaifugoContext) (L : Int) (ba : CardSet) (m : Mach)
    {m' : Mach} {tree : EvalNode ExtRat} {q : NodePtr}
    (hrun : thinkRecursive w (searchEnv ctx L) (ctx.deck.size + 2) 0 ba [[]] m
      (EvalNode.new ctx.deck ctx.isKakumei) = .ok (m', tree, some q))
    (hno : ∀ c : Conf ExtRat, Run w (searchEnv ctx L) ba ctx.deck ctx.isKakumei m c →
      ∀ p todo d, c.todo = p :: todo → c.state.tree.label? p = some d →
      ¬ Slip (searchEnv ctx L) m.rule.cls (lookAhead c.state.tree p) d.pos) :
    (pathNodes tree q).IsChain fun u v =>
      PlaysOut (searchEnv ctx L) m.rule.cls u.pos v.pos := by
  have hev := searchEnv_evaluates (α := ExtRat) ctx L
  obtain ⟨s, r, hspec, hret⟩ := thinkRecursive_spec hev w ba ctx.deck ctx.isKakumei (m := m) rfl
  cases hrun.symm.trans hspec
  obtain ⟨s', r', hspec', hedges⟩ := thinkRecursive_edges hev w ba ctx.deck
    ctx.isKakumei (m := m) rfl
    (E := fun _ look u _ => ¬ Slip (searchEnv ctx L) m.rule.cls look u)
    (fun c hc p todo n htodo hn v _ => hno c hc p todo n.label htodo (Rose.label?_of_get? hn))
  have htree : s'.tree = s.tree := by
    have := hspec'.symm.trans hspec
    simp only [Except.ok.injEq, Prod.mk.injEq] at this
    exact this.2.1
  obtain ⟨d, hd, -⟩ := hret.node q rfl
  exact hret.tree.playsOut (htree ▸ hedges) q d hd

/-- The turn of a player who leads, with the cards `yama` out of the game. -/
def leadTurn (deck yama : CardSet) : DaifugoContext := { turnOf deck [] with yama }

/-- A three, an ace and a two, with the other aces out of the game: the two is the only strong card,
and passes the test after the three only. -/
theorem threeAceTwo_fits (ctx : DaifugoContext)
    (hctx : ctx = leadTurn (ofVector [⟨0⟩, ⟨45⟩, ⟨51⟩]) (ofVector [⟨44⟩, ⟨46⟩, ⟨47⟩])) :
    ∀ x ∈ ctx.deck, ∀ y ∈ ctx.deck, ∀ z ∈ ctx.deck,
      (searchEnv ctx 18 : SearchEnv ExtRat).ThirdFits .A false x y z := by
  subst hctx
  have hall : ∀ x ∈ [(⟨0⟩ : Card), ⟨45⟩, ⟨51⟩], ∀ y ∈ [(⟨0⟩ : Card), ⟨45⟩, ⟨51⟩],
      ∀ z ∈ [(⟨0⟩ : Card), ⟨45⟩, ⟨51⟩], (searchEnv (leadTurn (ofVector [⟨0⟩, ⟨45⟩, ⟨51⟩])
        (ofVector [⟨44⟩, ⟨46⟩, ⟨47⟩])) 18 : SearchEnv ExtRat).ThirdFits .A false x y z := by
    decide +kernel
  exact fun x hx y hy z hz => hall x (mem_ofVector.mp hx) y (mem_ofVector.mp hy) z
    (mem_ofVector.mp hz)

/-- The three, the ace and the two: beside the two the ace is attached to the three. -/
theorem plan_plays_out_three_ace_two :
    ∃ ctx, ctx = leadTurn (ofVector [⟨0⟩, ⟨45⟩, ⟨51⟩]) (ofVector [⟨44⟩, ⟨46⟩, ⟨47⟩]) ∧
      ∃ m' tree q, thinkRecursive stillWorld (searchEnv ctx 18) (ctx.deck.size + 2) 0 ∅ [[]]
        ⟨⟨.A, false⟩, 1, 0, []⟩ (EvalNode.new ctx.deck ctx.isKakumei) = .ok (m', tree, some q) ∧
      pathHands tree q = [ofVector [⟨0⟩], ofVector [⟨45⟩], ofVector [⟨51⟩]] ∧
      (pathNodes tree q).IsChain fun u v => PlaysOut
        (searchEnv ctx 18 : SearchEnv ExtRat) .A u.pos v.pos := by
  have hplan : planFound stillWorld (leadTurn (ofVector [⟨0⟩, ⟨45⟩, ⟨51⟩])
      (ofVector [⟨44⟩, ⟨46⟩, ⟨47⟩])) ∅ (newPlayer .A).mach =
      some [ofVector [⟨0⟩], ofVector [⟨45⟩], ofVector [⟨51⟩]] := by
    decide +kernel
  obtain ⟨m', tree, q, hrun, -, hpath⟩ := exists_of_planFound hplan
  refine ⟨_, rfl, m', tree, q, hrun, hpath, ?_⟩
  exact plan_plays_out stillWorld _ 18 ∅ ⟨⟨.A, false⟩, 1, 0, []⟩ hrun
    fun c hc p todo d _ hd =>
      hc.not_slip (searchEnv_evaluates _ _) (by decide) (threeAceTwo_fits _ rfl) hd

/-- The test that a search finds a plan that can be played out. -/
def planPlaysOut (w : World) (ctx : DaifugoContext) (L : Int) (ba : CardSet) (m : Mach) :
    Option Bool :=
  match thinkRecursive (α := ExtRat) w (searchEnv ctx L) (ctx.deck.size + 2) 0 ba [[]] m
      (EvalNode.new ctx.deck ctx.isKakumei) with
  | .ok (_, tree, some q) => some (decide ((pathNodes tree q).IsChain fun u v =>
      PlaysOut (searchEnv ctx L) m.rule.cls u.pos v.pos))
  | _ => none

/-- A three, a four and the joker: the search finds the plan four, three, joker, and the three
cannot be put on the four. -/
theorem three_on_four_not_played_out :
    ∃ m' tree q, thinkRecursive (α := ExtRat) stillWorld
        (searchEnv (turnOf (ofVector [⟨0⟩, ⟨5⟩, ⟨52⟩]) []) 18) 5 0 ∅ [[]]
        ⟨⟨.A, false⟩, 1, 0, []⟩ (EvalNode.new (ofVector [⟨0⟩, ⟨5⟩, ⟨52⟩]) false) =
          .ok (m', tree, some q) ∧ q ≠ [] ∧
      ¬ (pathNodes tree q).IsChain fun u v =>
        PlaysOut (searchEnv (turnOf (ofVector [⟨0⟩, ⟨5⟩, ⟨52⟩]) []) 18) .A u.pos v.pos := by
  have heval : planPlaysOut stillWorld (turnOf (ofVector [⟨0⟩, ⟨5⟩, ⟨52⟩]) []) 18 ∅
      ⟨⟨.A, false⟩, 1, 0, []⟩ = some false := by
    decide +kernel
  unfold planPlaysOut at heval
  split at heval
  · rename_i m' tree q hrun
    have hnot := decide_eq_false_iff_not.mp (Option.some.inj heval)
    exact ⟨m', tree, q, hrun, (by rintro rfl; exact hnot .nil), hnot⟩
  · cases heval

end

end SagePlayer

end Neof5
