import Neof5.Lib.Alike
import Neof5.Sage.Order
import Neof5.Sage.Turn

/-!
# What the player says does not change what it plays

The random generator is asked for the remarks only. Two players that differ in the numbers that were
drawn and in what was said so far, and that draw other numbers from now on, play the same hands, or
stop with the same fault, turn by turn (`random_irrelevant`).
-/

namespace Neof5

namespace SagePlayer

open Loop (Alike)

variable {α : Type}

/-! ## The relation -/

/-- Surroundings that differ in what was drawn and said only. -/
structure Quiet (m m' : Mach) : Prop where
  rule : m.rule = m'.rule
  ticks : m.ticks = m'.ticks

/-- Worlds that differ in the random numbers only. -/
structure SameTime (w w' : World) : Prop where
  clock : w.clock = w'.clock
  order : w.order = w'.order

theorem quiet_remark (w : World) (max hit : Nat) (message : String) (m : Mach) :
    Quiet m (remark w max hit message m) :=
  ⟨(remark_rule w max hit message m).symm, (remark_ticks w max hit message m).symm⟩

theorem Quiet.symm {m m' : Mach} (h : Quiet m m') : Quiet m' m := ⟨h.rule.symm, h.ticks.symm⟩

theorem Quiet.trans {m₁ m₂ m₃ : Mach} (h : Quiet m₁ m₂) (h' : Quiet m₂ m₃) : Quiet m₁ m₃ :=
  ⟨h.rule.trans h'.rule, h.ticks.trans h'.ticks⟩

theorem quiet_tweetLastTwo (w : World) (ctx : DaifugoContext) (m : Mach) :
    Quiet m (tweetLastTwo w ctx m) :=
  ⟨(tweetLastTwo_rule w ctx m).symm, (tweetLastTwo_ticks w ctx m).symm⟩

theorem quiet_tweetFound (w : World) (hh : CardSet) (m : Mach) : Quiet m (tweetFound w hh m) := by
  refine ⟨(tweetFound_rule w hh m).symm, ?_⟩
  unfold tweetFound
  split
  · by_cases h : w.rdist m.draws % 3 = 1 <;> simp [Mach.getRand, Mach.tweet, h]
  · rfl

theorem quiet_tweetPass (w : World) (hh : CardSet) (m : Mach) : Quiet m (tweetPass w hh m) := by
  refine ⟨(tweetPass_rule w hh m).symm, ?_⟩
  unfold tweetPass
  split <;> simp

/-- What was said before and after does not matter. -/
theorem Quiet.said {m m' n n' : Mach} (h : Quiet m m') (hm : Quiet m n) (hm' : Quiet m' n') :
    Quiet n n' := hm.symm.trans (h.trans hm')

variable [Score α]

/-- The states of the sorting loop. -/
structure QuietScan (s s' : Scan α) : Prop extends SameScan s s' where
  ticks : s.mach.ticks = s'.mach.ticks

/-- The states of the loop over a frontier. -/
structure QuietSearch (s s' : Search α) : Prop where
  mach : Quiet s.mach s'.mach
  tree : s.tree = s'.tree
  nextNodes : s.nextNodes = s'.nextNodes

/-! ## The search -/

section

variable {w w' : World} {env : SearchEnv α} {isRoot look : Bool} {ba : CardSet}

theorem sortHand_quiet (hw : SameTime w w') (eh : EvalHand α) {s s' : Scan α}
    (h : QuietScan s s') : (sortHand w env eh s).2 = (sortHand w' env eh s').2 ∧
      QuietScan (sortHand w env eh s).1 (sortHand w' env eh s').1 := by
  obtain ⟨m, n, b, p⟩ := s
  obtain ⟨m', n', b', p'⟩ := s'
  obtain ⟨⟨hr, rfl, rfl, rfl⟩, ht⟩ : (m.rule = m'.rule ∧ n = n' ∧ b = b' ∧ p = p') ∧
      m.ticks = m'.ticks := ⟨⟨h.rule, h.node, h.better, h.poor⟩, h.ticks⟩
  have hnow : w.clock m.ticks = w'.clock m'.ticks := by rw [hw.clock, ht]
  have htick : m.ticks + 1 = m'.ticks + 1 := congrArg (· + 1) ht
  by_cases hlim : env.timelimit < w.clock m.ticks
  · have hlim' : env.timelimit < w'.clock m'.ticks := hnow ▸ hlim
    simp only [sortHand, Mach.time, hlim, hlim', ↓reduceIte]
    exact ⟨trivial, ⟨hr, rfl, rfl, rfl⟩, htick⟩
  · have hlim' : ¬ env.timelimit < w'.clock m'.ticks := hnow ▸ hlim
    by_cases hstr : env.isStrongHand eh.p1 = true
    · simp only [sortHand, Mach.time, hlim, hlim', hstr, ↓reduceIte]
      exact ⟨trivial, ⟨hr, rfl, rfl, rfl⟩, htick⟩
    · simp only [sortHand, Mach.time, hlim, hlim', hstr, Bool.false_eq_true, ↓reduceIte]
      exact ⟨trivial, ⟨hr, rfl, rfl, rfl⟩, htick⟩

theorem judgeHand_quiet (hw : SameTime w w') (eh : EvalHand α) {s s' : Scan α}
    (h : QuietScan s s') :
    Alike (fun o o' => o.2 = o'.2 ∧ QuietScan o.1 o'.1) (judgeHand w env isRoot eh s)
      (judgeHand w' env isRoot eh s') := by
  have hsort : (sortHand w env eh s).2 = (sortHand w' env eh s').2 ∧ _ :=
    sortHand_quiet hw eh h
  obtain ⟨m, n, b, p⟩ := s
  obtain ⟨m', n', b', p'⟩ := s'
  obtain ⟨⟨hr, rfl, rfl, rfl⟩, ht⟩ : (m.rule = m'.rule ∧ n = n' ∧ b = b' ∧ p = p') ∧
      m.ticks = m'.ticks := ⟨⟨h.rule, h.node, h.better, h.poor⟩, h.ticks⟩
  unfold judgeHand
  dsimp only
  rw [hr]
  by_cases hc : (eh.tefda.empty && (isRoot || env.isStrongHand n.label.hand.p1 ||
      (env.isStrongHand eh.p1 && eh.hand.size == n.label.hand.hand.size))) = true
  · rw [if_pos hc, if_pos hc]
    refine Alike.bind (.refl (fun _ => rfl) _) fun chk chk' hchk => ?_
    subst hchk
    split_ifs
    · exact ⟨rfl, ⟨hr, rfl, rfl, rfl⟩, ht⟩
    · exact ⟨rfl, ⟨hr, rfl, rfl, rfl⟩, ht⟩
    · exact hsort
  · rw [if_neg hc, if_neg hc]
    exact hsort

theorem classifyBody_quiet (hw : SameTime w w') (hand : CardSet) {s s' : Scan α}
    (h : QuietScan s s') :
    Alike (fun o o' => o.2 = o'.2 ∧ QuietScan o.1 o'.1) (classifyBody w env isRoot hand s)
      (classifyBody w' env isRoot hand s') := by
  unfold classifyBody
  rw [← h.node]
  refine Alike.bind (.refl (fun _ => rfl) _) fun p1 p1' hp1 => ?_
  subst hp1
  exact judgeHand_quiet hw _ ⟨⟨h.rule, rfl, h.better, h.poor⟩, h.ticks⟩

theorem expand_quiet (hw : SameTime w w') {m m' : Mach} (h : Quiet m m') (node : EvalNode α) :
    Alike (fun o o' => o.2 = o'.2 ∧ o.1.2 = o'.1.2 ∧ Quiet o.1.1 o'.1.1)
      (expand w env isRoot look ba m node) (expand w' env isRoot look ba m' node) := by
  unfold expand
  rw [h.rule]
  refine Alike.bind (.refl (fun _ => rfl) _) fun x x' hx => ?_
  subst hx
  obtain ⟨rule, hands⟩ := x
  dsimp only
  split_ifs
  · exact ⟨rfl, rfl, rfl, h.ticks⟩
  · refine Alike.bind (Alike.forEach (fun hand s s' => classifyBody_quiet hw hand) hands
      ⟨⟨rfl, rfl, rfl, rfl⟩, h.ticks⟩) fun o o' ho => ?_
    obtain ⟨s, e⟩ := o
    obtain ⟨s', e'⟩ := o'
    obtain ⟨rfl, hs⟩ : e = e' ∧ QuietScan s s' := ho
    cases e with
    | some e => exact ⟨rfl, by rw [hs.node], hs.rule, hs.ticks⟩
    | none =>
      have hsame : createChildren env isRoot look ba s' = createChildren env isRoot look ba s :=
        createChildren_same hs.toSameScan
      dsimp only
      rw [hsame]
      refine Alike.bind (.refl (fun _ => rfl) _) fun g g' hg => ?_
      subst hg
      exact ⟨rfl, rfl, hs.rule, hs.ticks⟩

theorem visit_quiet (hw : SameTime w w') (p : NodePtr) {s s' : Search α} (h : QuietSearch s s') :
    Alike (fun o o' => o.2 = o'.2 ∧ QuietSearch o.1 o'.1) (visit w env ba p s)
      (visit w' env ba p s') := by
  obtain ⟨m, tree, next⟩ := s
  obtain ⟨m', tree', next'⟩ := s'
  obtain ⟨hm, rfl, rfl⟩ : Quiet m m' ∧ tree = tree' ∧ next = next' :=
    ⟨h.mach, h.tree, h.nextNodes⟩
  unfold visit
  dsimp only
  cases tree.get? p with
  | none => exact rfl
  | some node =>
    refine Alike.bind (expand_quiet hw hm node) fun o o' ho => ?_
    obtain ⟨⟨m₁, g⟩, e⟩ := o
    obtain ⟨⟨m₁', g'⟩, e'⟩ := o'
    obtain ⟨rfl, rfl, hm₁⟩ : e = e' ∧ g = g' ∧ Quiet m₁ m₁' := ho
    cases e with
    | some e => exact ⟨rfl, hm₁, rfl, rfl⟩
    | none => exact ⟨rfl, hm₁, rfl, rfl⟩

/-- The search, level by level. -/
theorem thinkRecursive_quiet (hw : SameTime w w') (fuel d : Nat) (ba : CardSet)
    (nodes : List NodePtr) {m m' : Mach} (h : Quiet m m') (tree : EvalNode α) :
    Alike (fun o o' => o.2 = o'.2 ∧ Quiet o.1 o'.1) (thinkRecursive w env fuel d ba nodes m tree)
      (thinkRecursive w' env fuel d ba nodes m' tree) := by
  induction fuel generalizing d ba nodes m m' tree with
  | zero => exact rfl
  | succ fuel ih =>
    rw [thinkRecursive, thinkRecursive, hw.order]
    refine Alike.bind (Alike.forEach (fun p s s' => visit_quiet hw p) _ ⟨h, rfl, rfl⟩)
      fun o o' ho => ?_
    obtain ⟨⟨m₁, tree₁, next₁⟩, r⟩ := o
    obtain ⟨⟨m₁', tree₁', next₁'⟩, r'⟩ := o'
    obtain ⟨rfl, hs⟩ := ho
    obtain ⟨hm, rfl, rfl⟩ : Quiet m₁ m₁' ∧ tree₁ = tree₁' ∧ next₁ = next₁' :=
      ⟨hs.mach, hs.tree, hs.nextNodes⟩
    cases r with
    | some r => exact ⟨rfl, hm⟩
    | none =>
      dsimp only
      split_ifs
      · exact ih _ _ _ hm _
      · exact ⟨rfl, hm⟩

theorem search_quiet (hw : SameTime w w') (ctx : DaifugoContext) (ba : CardSet) {m m' : Mach}
    (h : Quiet m m') : Alike (fun o o' => o.2 = o'.2 ∧ Quiet o.1 o'.1)
      (search (α := α) w ctx ba m) (search w' ctx ba m') := by
  have hnow : (m.time w).1 = (m'.time w').1 := by rw [Mach.time, Mach.time, hw.clock, h.ticks]
  have hm : Quiet (m.time w).2 (m'.time w').2 := ⟨h.rule, congrArg (· + 1) h.ticks⟩
  show Alike _ (thinkRecursive w (searchEnv ctx ((m.time w).1 + thinkTimeLimit)) _ _ _ _ _ _) _
  rw [hnow]
  exact thinkRecursive_quiet hw _ _ _ _ hm _

end

/-! ## A turn -/

/-- Players with the same plan, whose surroundings differ in what was drawn and said only. -/
structure QuietPlayer (sp sp' : SagePlayer α) : Prop where
  saved : sp.savedHandsTree = sp'.savedHandsTree
  mach : Quiet sp.mach sp'.mach

section

variable {w w' : World} {sp sp' : SagePlayer α}

theorem think2_quiet (hw : SameTime w w') (h : QuietPlayer sp sp') (ctx : DaifugoContext)
    (ba : CardSet) : Alike (fun o o' => o.1 = o'.1 ∧ QuietPlayer o.2 o'.2) (think2 w sp ctx ba)
      (think2 w' sp' ctx ba) := by
  unfold think2
  refine Alike.bind (search_quiet hw ctx ba h.mach) fun o o' ho => ?_
  obtain ⟨m, tree, r⟩ := o
  obtain ⟨m', tree', r'⟩ := o'
  obtain ⟨hres, hm⟩ := ho
  obtain ⟨rfl, rfl⟩ := Prod.mk.inj hres
  cases r with
  | some r =>
    dsimp only [found]
    refine Alike.bind (.refl (fun _ => rfl) _) fun saved saved' hsaved => ?_
    subst hsaved
    refine Alike.bind (.refl (fun _ => rfl) _) fun hh hh' hhand => ?_
    subst hhand
    exact ⟨rfl, rfl, hm.said (quiet_tweetFound _ _ _) (quiet_tweetFound _ _ _)⟩
  | none =>
    have hend : ∀ (x : Except Fault NodePtr), Alike (fun o o' => o.1 = o'.1 ∧ QuietPlayer o.2 o'.2)
        (x >>= fun p => heirHand tree p >>= fun hh => pure (hh, ({ sp with
          handPotentialMax := calcHandPotentialMax (appearsCards ctx)
          notappearsCards := CardSet.allCards \ appearsCards ctx
          mach := tweetPass w hh m } : SagePlayer α)))
        (x >>= fun p => heirHand tree p >>= fun hh => pure (hh, ({ sp' with
          handPotentialMax := calcHandPotentialMax (appearsCards ctx)
          notappearsCards := CardSet.allCards \ appearsCards ctx
          mach := tweetPass w' hh m' } : SagePlayer α))) := by
      intro x
      refine Alike.bind (.refl (fun _ => rfl) _) fun p p' hp => ?_
      subst hp
      refine Alike.bind (.refl (fun _ => rfl) _) fun hh hh' hhand => ?_
      subst hhand
      exact ⟨rfl, h.saved, hm.said (quiet_tweetPass _ _ _) (quiet_tweetPass _ _ _)⟩
    dsimp only [fallback]
    cases tree.findBestParamChild with
    | some best => exact hend (pure best.1)
    | none => exact hend _

theorem think_quiet (hw : SameTime w w') (h : QuietPlayer sp sp') (ctx : DaifugoContext) :
    Alike (fun o o' => o.1 = o'.1 ∧ QuietPlayer o.2 o'.2) (think w sp ctx) (think w' sp' ctx) := by
  obtain ⟨saved, hmax, cards, m⟩ := sp
  obtain ⟨saved', hmax', cards', m'⟩ := sp'
  obtain ⟨rfl, hm⟩ : saved = saved' ∧ Quiet m m' := ⟨h.saved, h.mach⟩
  have hlast : Quiet (tweetLastTwo w ctx m) (tweetLastTwo w' ctx m') :=
    hm.said (quiet_tweetLastTwo _ _ _) (quiet_tweetLastTwo _ _ _)
  unfold think
  dsimp only
  cases saved.getLast? with
  | none =>
    have hq : QuietPlayer ⟨saved, hmax, cards, tweetLastTwo w ctx m⟩
        ⟨saved, hmax', cards', tweetLastTwo w' ctx m'⟩ := ⟨rfl, hlast⟩
    exact think2_quiet hw hq ctx _
  | some hand =>
    have hset : Quiet ((tweetLastTwo w ctx m).setKakumei ctx.isKakumei)
        ((tweetLastTwo w' ctx m').setKakumei ctx.isKakumei) :=
      ⟨by simp only [Mach.setKakumei, hlast.rule], hlast.ticks⟩
    generalize (tweetLastTwo w ctx m).setKakumei ctx.isKakumei = n at hset
    generalize (tweetLastTwo w' ctx m').setKakumei ctx.isKakumei = n' at hset
    have hq : QuietPlayer ⟨[], hmax, cards, n⟩ ⟨[], hmax', cards', n'⟩ := ⟨rfl, hset⟩
    have hthink2 := think2_quiet hw hq ctx ctx.baLast
    have hsaved : Quiet (tweetSaved w n) (tweetSaved w' n') :=
      hset.said (quiet_remark _ _ _ _ _) (quiet_remark _ _ _ _ _)
    dsimp only
    rw [hset.rule]
    split_ifs
    · refine Alike.bind (.refl (fun _ => rfl) _) fun chk chk' hchk => ?_
      subst hchk
      simp only [except_pure_bind]
      split_ifs
      · exact ⟨rfl, rfl, hsaved⟩
      · exact hthink2
    · exact hthink2

end

/-! ## A game -/

/-- The turns of a game, each in its own world. -/
def play : SagePlayer α → List (World × DaifugoContext) → Except Fault (List CardSet × SagePlayer α)
  | sp, [] => .ok ([], sp)
  | sp, turn :: turns => do
    let (hand, sp) ← think turn.1 sp turn.2
    let (hands, sp) ← play sp turns
    return (hand :: hands, sp)

/-- The same turn with other random numbers. -/
def redraw (rdist : World → Nat → Nat) (turn : World × DaifugoContext) : World × DaifugoContext :=
  ({ turn.1 with rdist := rdist turn.1 }, turn.2)

theorem play_quiet (rdist : World → Nat → Nat) (turns : List (World × DaifugoContext))
    {sp sp' : SagePlayer α} (h : QuietPlayer sp sp') :
    Alike (fun o o' => o.1 = o'.1 ∧ QuietPlayer o.2 o'.2) (play sp turns)
      (play sp' (turns.map (redraw rdist))) := by
  induction turns generalizing sp sp' with
  | nil => exact ⟨rfl, h⟩
  | cons turn turns ih =>
    have hw : SameTime turn.1 (redraw rdist turn).1 := ⟨rfl, rfl⟩
    refine Alike.bind (think_quiet hw h turn.2) fun o o' ho => ?_
    obtain ⟨hand, sp₁⟩ := o
    obtain ⟨hand', sp₁'⟩ := o'
    obtain ⟨rfl, h₁⟩ : hand = hand' ∧ QuietPlayer sp₁ sp₁' := ho
    refine Alike.bind (ih h₁) fun o o' ho => ?_
    exact ⟨congrArg (hand :: ·) ho.1, ho.2⟩

/-- **The random numbers are for the remarks.** Over any turns, a player that has drawn and said
something else, and draws other numbers, plays the same hands, or stops with the same fault. -/
theorem random_irrelevant (sp : SagePlayer α) (turns : List (World × DaifugoContext))
    (draws : Nat) (tweets : List String) (rdist : World → Nat → Nat) :
    (play { sp with mach := { sp.mach with draws, tweets } } (turns.map (redraw rdist))).map
        Prod.fst = (play sp turns).map Prod.fst := by
  have h : QuietPlayer sp { sp with mach := { sp.mach with draws, tweets } } := ⟨rfl, rfl, rfl⟩
  exact ((play_quiet rdist turns h).map_eq fun _ _ ho => ho.1).symm

end SagePlayer

end Neof5
