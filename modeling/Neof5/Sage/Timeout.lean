import Neof5.Sage.FirstMoves
import Neof5.Sage.PlayOut
import Neof5.Sage.Turn

/-!
# Running out of time

The search reads the clock once for each hand that it sorts, and returns null as soon as a reading
is past the limit. `think2` then falls back on the children of the root, so it needs one: the
children are created after all hands of the root were sorted.

* `rootReadings`: the number of readings before the root has a child.
* `fallback_ok_iff`: the fallback has an answer exactly if the root has a child.
* `think_returns_iff`: a turn has an answer exactly if a plan supplies it, or the clock does not
  pass the limit during these readings.
-/

namespace Neof5

open CardSet

namespace SagePlayer

variable {α : Type} [Score α]

/-- Playing `H` from the deck ends the game, and the rule allows it. -/
def endsGame (r : DaifugoRule) (deck H : CardSet) : Bool :=
  (deck \ H).empty && decide (r.canAgari H = .ok .ok)

/-- The clock readings of the search at the root: one for each hand enumerated there, but none
for a hand that ends the game. -/
def rootReadings (r : DaifugoRule) (deck ba : CardSet) : Nat :=
  match enumrateAvairableHands r [] deck ba r.isKakumei with
  | .ok (_, hands) => (hands.filter fun H => !endsGame r deck H).length
  | .error _ => 0

/-- The clock passes the limit of the search at one of the `n` readings after its start. -/
def Late (w : World) (start n : Nat) : Prop :=
  ∃ j, j < n ∧ w.clock start + thinkTimeLimit < w.clock (start + 1 + j)

section

variable {w : World} {env : SearchEnv α} {r : DaifugoRule} {tefda : CardSet}

/-! ## Sorting the hands of the root -/

/-- The end of the loop body reads the clock once. -/
theorem sortHand_clock (w : World) (env : SearchEnv α) (eh : EvalHand α) (s : Scan α) :
    ∃ s', sortHand w env eh s =
        (s', if env.timelimit < w.clock s.mach.ticks then some .null else none) ∧
      s'.mach.rule = s.mach.rule ∧ s'.mach.ticks = s.mach.ticks + 1 ∧ s'.node = s.node := by
  unfold sortHand
  by_cases hlim : env.timelimit < w.clock s.mach.ticks
  · simp only [Mach.time, hlim, ↓reduceIte]
    exact ⟨_, rfl, rfl, rfl, rfl⟩
  · cases hs : env.isStrongHand eh.p1 <;>
      simp only [Mach.time, hlim, Bool.false_eq_true, ↓reduceIte]
    · exact ⟨_, rfl, rfl, rfl, rfl⟩
    · exact ⟨_, rfl, rfl, rfl, rfl⟩

/-- One round of the sorting loop at the root: the hand ends the game, or the clock is read. -/
theorem classifyBody_root (w : World) (hev : env.Evaluates) {H : CardSet} (hne : H ≠ ∅)
    {s : Scan α} (hr : s.mach.rule = r) (htef : s.node.label.hand.tefda = tefda) :
    ∃ s' e, classifyBody w env true H s = .ok (s', e) ∧ if endsGame r tefda H = true then
      ∃ i, e = some (.child i)
      else e = (if env.timelimit < w.clock s.mach.ticks then some .null else none) ∧
        s'.mach.rule = r ∧ s'.mach.ticks = s.mach.ticks + 1 ∧
        s'.node.label.hand.tefda = tefda := by
  obtain ⟨p1, hp1⟩ := hev H s.node.label.isKakumei hne
  obtain ⟨chk, hchk⟩ := canAgari_total r H
  obtain ⟨s', hsort, hrule, hticks, hnode⟩ := sortHand_clock w env ⟨H, tefda \ H, p1, 0⟩
    { s with node := addP2 s.node (p1 - Score.lit ((H.size : ℚ) - 1)) }
  have hkeep : s'.node.label.hand.tefda = tefda := by rw [hnode]; exact htef
  simp only [classifyBody, hp1, except_ok_bind, judgeHand, htef, hr, Bool.true_or, Bool.and_true,
    Bool.not_true, Bool.false_eq_true, ↓reduceIte, hchk, endsGame, except_pure, hsort]
  by_cases hgone : (tefda \ H).empty = true
  · by_cases hok : chk = .ok
    · simp only [hgone, hok, ↓reduceIte, Bool.true_and, decide_true]
      exact ⟨_, _, rfl, _, rfl⟩
    · simp only [hgone, hok, ↓reduceIte, Bool.true_and, Except.ok.injEq, decide_false,
        Bool.false_eq_true]
      exact ⟨_, _, rfl, rfl, hrule.trans hr, hticks, hkeep⟩
  · simp only [hgone, ↓reduceIte, Bool.false_and, Bool.false_eq_true]
    exact ⟨_, _, rfl, rfl, hrule.trans hr, hticks, hkeep⟩

/-- The sorting loop of the root ends with null exactly if the clock passes the limit while there
are hands that do not end the game. -/
theorem classifyLoop_root (w : World) (hev : env.Evaluates) {hands : List CardSet}
    (hne : ∀ H ∈ hands, H ≠ ∅)
    (hlast : hands.Pairwise fun G _ => endsGame r tefda G = false) {s : Scan α}
    (hr : s.mach.rule = r) (htef : s.node.label.hand.tefda = tefda) :
    ∃ s' e, Loop.forEach (classifyBody w env true) hands s = .ok (s', e) ∧
      (e = some .null ↔ ∃ j, j < (hands.filter fun H => !endsGame r tefda H).length ∧
        env.timelimit < w.clock (s.mach.ticks + j)) := by
  induction hands generalizing s with
  | nil => exact ⟨s, none, rfl, by simp⟩
  | cons H hands ih =>
    obtain ⟨hH, hlast⟩ := List.pairwise_cons.mp hlast
    obtain ⟨s1, e, hbody, hround⟩ := classifyBody_root w hev (hne H (by simp)) hr htef
    cases hends : endsGame r tefda H with
    | true =>
      -- It is the last hand, so there is no reading.
      have hnil : hands = [] := List.eq_nil_iff_forall_not_mem.mpr fun G hG => by
        rw [hends] at hH
        cases hH G hG
      rw [if_pos hends] at hround
      obtain ⟨i, rfl⟩ := hround
      exact ⟨s1, some (.child i), by simp [Loop.forEach, hbody], by simp [hnil, hends]⟩
    | false =>
      simp only [hends, Bool.false_eq_true, ↓reduceIte] at hround
      obtain ⟨rfl, hr1, hticks, htef1⟩ := hround
      by_cases hlim : env.timelimit < w.clock s.mach.ticks
      · rw [if_pos hlim] at hbody
        refine ⟨s1, some .null, by simp [Loop.forEach, hbody], iff_of_true rfl ⟨0, ?_, hlim⟩⟩
        simp [hends]
      · rw [if_neg hlim] at hbody
        obtain ⟨s', e, hrun, hnull⟩ := ih (fun G hG => hne G (by simp [hG])) hlast hr1 htef1
        refine ⟨s', e, by simp [Loop.forEach, hbody, hrun], ?_⟩
        rw [hnull, hticks, List.filter_cons_of_pos (by simp [hends]), List.length_cons]
        constructor
        · rintro ⟨j, hj, hlate⟩
          exact ⟨j + 1, by omega, by rwa [Nat.add_assoc, Nat.add_comm 1] at hlate⟩
        · rintro ⟨j, hj, hlate⟩
          cases j with
          | zero => exact (hlim hlate).elim
          | succ j => exact ⟨j, by omega, by rwa [Nat.add_assoc, Nat.add_comm 1]⟩

omit [Score α] in
/-- A set has a smaller word than a set that it is part of. -/
theorem bits_le_of_subset {s t : CardSet} (h : s ⊆ t) : s.bits.toNat ≤ t.bits.toNat := by
  have hand : t.bits &&& s.bits = s.bits := beq_iff_eq.mp h
  rw [← hand, BitVec.toNat_and]
  exact Nat.and_le_left

/-- Only the last of the enumerated hands can end the game. -/
theorem endsGame_last {hands : List CardSet} (hs : hands.Pairwise (· < ·))
    (hsub : ∀ H ∈ hands, H ⊆ tefda) : hands.Pairwise fun G _ => endsGame r tefda G = false := by
  refine hs.imp_of_mem fun {G H} _ hH hlt => ?_
  rw [Bool.eq_false_iff]
  intro hends
  have hgone := empty_iff.mp (Bool.and_eq_true_iff.mp hends).1
  have hHG : H ⊆ G := subset_iff.mpr fun c hc => by
    by_contra hno
    have : c ∈ tefda \ G := mem_sdiff.mpr ⟨subset_iff.mp (hsub H hH) c hc, hno⟩
    exact not_mem_empty c (hgone ▸ this)
  exact Nat.lt_irrefl _ (Nat.lt_of_lt_of_le hlt (bits_le_of_subset hHG))

theorem rootReadings_eq {rule r' : DaifugoRule} {deck ba : CardSet} {k : Bool}
    {hands : List CardSet} (henum : enumrateAvairableHands rule [] deck ba k = .ok (r', hands)) :
    rootReadings (rule.setKakumei k) deck ba =
      (hands.filter fun H => !endsGame (rule.setKakumei k) deck H).length := by
  have henum' : enumrateAvairableHands (rule.setKakumei k) [] deck ba
      (rule.setKakumei k).isKakumei = .ok (r', hands) := henum
  simp only [rootReadings, henum']

/-- The children are created without a look at the clock. -/
theorem createChildren_not_null {cls : RuleClass} {ba : CardSet} {u : Pos α} {s : Scan α}
    {isRoot look : Bool} (hs : Sorted env cls ba u s) {g : Grow α} {e : Option Exit}
    (hrun : createChildren env isRoot look ba s = .ok (g, e)) : e ≠ some .null := by
  obtain ⟨out, hrun', hwon⟩ := createChildren_spec isRoot look hs
  cases hrun.symm.trans hrun'
  rintro rfl
  obtain ⟨-, i, c, he, -⟩ := hwon
  cases he

/-- The expansion of the root runs out of time exactly if one of its readings is late. -/
theorem expand_root_null_iff (w : World) (hev : env.Evaluates) (look : Bool) (ba : CardSet)
    {m m' : Mach} {n : EvalNode α} (hleaf : n.children = []) {g : Grow α} {e : Option Exit}
    (hrun : expand w env true look ba m n = .ok ((m', g), e)) :
    e = some .null ↔ ∃ j, j < rootReadings (m.rule.setKakumei n.label.isKakumei)
      n.label.hand.tefda ba ∧ env.timelimit < w.clock (m.ticks + j) := by
  obtain ⟨hands, henum, -, hmem⟩ := enumrate_spec m.rule n.label.hand.tefda ba n.label.isKakumei
  have hlast := endsGame_last (r := m.rule.setKakumei n.label.isKakumei) (enumrate_sorted henum)
    fun H hH => ((hmem H).mp hH).2.1
  rw [rootReadings_eq henum]
  simp only [expand, henum, except_ok_bind] at hrun
  cases hh : hands.isEmpty with
  | true =>
    rw [hh, if_pos rfl] at hrun
    cases hrun
    simp [List.isEmpty_iff.mp hh]
  | false =>
  simp only [hh, Bool.false_eq_true, ↓reduceIte] at hrun
  obtain ⟨s, e1, hsort, hnull⟩ := classifyLoop_root w hev (fun H hH => ((hmem H).mp hH).2.2.1) hlast
    (s := ⟨Mach.setKakumei { m with rule := m.rule.setKakumei n.label.isKakumei }
      n.label.isKakumei, n, [], []⟩) rfl rfl
  rw [show m.ticks = (Mach.setKakumei { m with rule := m.rule.setKakumei n.label.isKakumei }
    n.label.isKakumei).ticks from rfl, ← hnull]
  simp only [hsort, except_ok_bind] at hrun
  cases e1 with
  | some e1 => cases hrun; rfl
  | none =>
    obtain ⟨⟨g1, e2⟩, hgrow, hrun⟩ := bind_ok hrun
    cases hrun
    have hs0 : Sorted env m.rule.cls ba n.label.pos ⟨Mach.setKakumei { m with
        rule := m.rule.setKakumei n.label.isKakumei } n.label.isKakumei, n, [], []⟩ :=
      ⟨rfl, hleaf, rfl, by simp, by simp⟩
    obtain ⟨out, hsort', hend⟩ := classifyLoop_spec w true look hev (fun H hH => (hmem H).mp hH) hs0
    cases hsort.symm.trans hsort'
    exact iff_of_false (createChildren_not_null hend.1 hgrow) (by simp)

/-- A root from which the search goes on has a child. -/
theorem expand_root_child {look : Bool} {ba : CardSet} {m m' : Mach} {n : EvalNode α}
    (hleaf : n.children = []) (hroot : n.label.hand.hand = ∅) (hlook : look = true) {g : Grow α}
    (hrun : expand w env true look ba m n = .ok ((m', g), none)) : g.node.children ≠ [] := by
  subst hlook
  obtain ⟨hands, henum, -⟩ := enumrate_spec m.rule n.label.hand.tefda ba n.label.isKakumei
  obtain ⟨hrated, hnext⟩ := expand_root hleaf hroot henum hrun
  have hne : hands ≠ [] := by
    rintro rfl
    simp [expand, henum] at hrun
  obtain ⟨H, hH⟩ := List.exists_mem_of_ne_nil _ hne
  -- A weak hand is in the frontier, and without weak hands a strong one is.
  obtain ⟨P, i, -, c, hc, -⟩ : ∃ P, InNext g P := by
    by_cases hweak : ∃ P ∈ hands, env.Rates n.label.isKakumei P false
    · obtain ⟨P, hP, hw⟩ := hweak
      exact ⟨P, (hnext P hP).mpr (.inl hw)⟩
    · push Not at hweak
      obtain ⟨strong, hr⟩ := hrated H hH
      cases strong with
      | false => exact (hweak H hH hr).elim
      | true => exact ⟨H, (hnext H hH).mpr (.inr ⟨hr, .inl hweak⟩)⟩
  exact List.ne_nil_of_mem (List.mem_of_getElem? hc)

/-! ## The search -/

/-- The first step of the search. -/
theorem visit_root (hev : env.Evaluates) (w : World) (ba deck : CardSet) (k : Bool) {m : Mach}
    {s : Search α} {o : Option (Option NodePtr)}
    (hrun : visit w env ba [] ⟨m, EvalNode.new deck k, []⟩ = .ok (s, o)) :
    (o = some none ↔ ∃ j, j < rootReadings (m.rule.setKakumei k) deck ba ∧
      env.timelimit < w.clock (m.ticks + j)) ∧
    (o = none → s.tree.children ≠ []) ∧ (o = some none → s.tree.children = []) := by
  obtain ⟨n, g, e, hn, hexp, htree, ho, -⟩ := visit_expand hrun
  cases hn
  obtain ⟨out, hexp', hend⟩ := expand_spec w hev true true ba rfl
    (n := (EvalNode.new deck k : EvalNode α)) rfl
  cases hexp.symm.trans hexp'
  have hnull := expand_root_null_iff w hev true ba rfl hexp
  have hptr : o = some none ↔ e = some .null := by
    rw [ho]
    cases e with
    | none => simp
    | some e => cases e <;> simp [Exit.ptr]
  refine ⟨hptr.trans hnull, fun h => ?_, fun h => ?_⟩
  · obtain rfl : e = none := Option.map_eq_none_iff.mp (ho.symm.trans h)
    rw [htree]
    exact expand_root_child rfl rfl rfl hexp
  · rw [hptr.mp h] at hend
    cases hend.ended with
    | null hleaf _ => rw [htree]; exact hleaf

/-- A root with a child keeps one. -/
theorem visit_keeps_child (hev : env.Evaluates) {cls : RuleClass} {ba ba' deck : CardSet} {k : Bool}
    {t0 d : Nat} {p : NodePtr} {todo : List NodePtr} {s s' : Search α}
    {o : Option (Option NodePtr)} (h : SearchInv env cls ba deck k t0 ⟨d, ba', p :: todo, s⟩)
    (hrun : visit w env ba' p s = .ok (s', o)) (hchild : s.tree.children ≠ []) :
    s'.tree.children ≠ [] := by
  obtain ⟨n, n', hn, htree, -⟩ := visit_kids hev h hrun
  obtain ⟨-, n1, hn1, hleaf⟩ := h.todo.leaf p (by simp)
  cases hn.symm.trans hn1
  cases p with
  | nil => cases hn; exact (hchild hleaf).elim
  | cons i q =>
    rw [htree, ← List.length_pos_iff_ne_nil, Rose.length_children_modify]
    exact List.length_pos_iff_ne_nil.mpr hchild

/-- **When the search leaves the root without a child.** It returns null and the root has no child
exactly if one of the readings at the root is late. -/
theorem thinkRecursive_childless_iff (hev : env.Evaluates) (w : World) (ba deck : CardSet)
    (k : Bool) (m : Mach) :
    ∃ (s : Search α) (r' : Option NodePtr),
      thinkRecursive w env (deck.size + 2) 0 ba [[]] m (EvalNode.new deck k) =
        .ok (s.mach, s.tree, r') ∧ (r' = none ∧ s.tree.children = [] ↔
        ∃ j, j < rootReadings (m.rule.setKakumei k) deck ba ∧
          env.timelimit < w.clock (m.ticks + j)) := by
  have hord : w.order 0 [[]] = [[]] := List.perm_singleton.mp (w.order_perm 0 [[]])
  refine thinkRecursive_rule
    (I := fun c => SearchInv env m.rule.cls ba deck k m.ticks c ∧ (c = startConf w ba deck k m ∨
      c.state.tree.children ≠ [] ∧ ¬ ∃ j, j < rootReadings (m.rule.setKakumei k) deck ba ∧
        env.timelimit < w.clock (m.ticks + j)))
    (fun d ba' p todo s h => ?_) (fun d ba' s h hne => ⟨h.1.nextLevel, ?_⟩) (fun d ba' s h _ => ?_)
    (fun c h hne => h.1.level_lt hne) (deck.size + 2) 0 ba [[]] m (EvalNode.new deck k) (by omega)
    (by simp) ⟨.start w rfl, .inl rfl⟩
  · obtain ⟨⟨s', o⟩, hrun, hend⟩ := visit_spec (w := w) hev h.1
    refine ⟨_, hrun, ?_⟩
    rcases h.2 with hstart | ⟨hchild, hlate⟩
    · simp only [startConf, hord, Conf.mk.injEq, List.cons.injEq] at hstart
      obtain ⟨rfl, rfl, ⟨rfl, rfl⟩, rfl⟩ := hstart
      obtain ⟨hnull, hmore, hleaf⟩ := visit_root hev w ba' deck k hrun
      cases o with
      | none => exact ⟨hend, .inr ⟨hmore rfl, fun hlate => by cases hnull.mpr hlate⟩⟩
      | some r =>
        rw [Loop.ends_some, ← hnull]
        refine ⟨fun h => congrArg some h.1, fun h => ⟨Option.some.inj h, hleaf h⟩⟩
    · have hchild' := visit_keeps_child hev h.1 hrun hchild
      cases o with
      | none => exact ⟨hend, .inr ⟨hchild', hlate⟩⟩
      | some r => exact iff_of_false (fun h => hchild' h.2) hlate
  · rcases h.2 with hstart | hchild
    · simp [startConf, hord] at hstart
    · exact .inr hchild
  · rcases h.2 with hstart | ⟨hchild, hlate⟩
    · simp [startConf, hord] at hstart
    · exact iff_of_false (fun h => hchild h.2) hlate

/-! ## The turn -/

/-- **When the fallback has an answer.** -/
theorem fallback_ok_iff (w : World) (sp : SagePlayer α) (tree : EvalNode α) :
    (∃ hand sp', fallback w sp tree = .ok (hand, sp')) ↔ tree.children ≠ [] := by
  have hheir : ∀ {q : NodePtr} {d : NodeData α}, q ≠ [] → tree.label? q = some d →
      tree.children ≠ [] ∧ ∃ hand, heirHand tree q = .ok hand := by
    intro q d hq hd
    obtain ⟨i, e, he, hh⟩ := heirHand_spec hq hd
    refine ⟨fun hnil => ?_, _, hh⟩
    obtain ⟨c, hc, -⟩ := Rose.label?_eq_some.mp he
    rw [Rose.get?_of_leaf hnil (by simp)] at hc
    cases hc
  cases hbest : EvalNode.findBestParamChild tree with
  | some x =>
    obtain ⟨hp, hd⟩ := EvalNode.findBestParamChild_spec tree x.1 x.2 hbest
    obtain ⟨hne, hand, hh⟩ := hheir hp hd
    exact iff_of_true ⟨hand, _, by simp [fallback, hbest, hh]; rfl⟩ hne
  | none =>
    by_cases hnil : tree.children = []
    · refine iff_of_false ?_ (not_not_intro hnil)
      rintro ⟨hand, sp', hrun⟩
      simp only [fallback, hbest, getChildAt, hnil, List.isEmpty_nil, ↓reduceIte] at hrun
      obtain ⟨q, hq, -⟩ := bind_ok hrun
      cases hq
    · obtain ⟨d, hlast, hd⟩ := getChildAt_last hnil
      obtain ⟨-, hand, hh⟩ := hheir (List.cons_ne_nil _ _) hd
      exact iff_of_true ⟨hand, _, by simp [fallback, hbest, hlast, hh]; rfl⟩ hnil

/-- **When the search of a turn has an answer.** -/
theorem think2_ok_iff (w : World) (sp : SagePlayer α) (ctx : DaifugoContext) (ba : CardSet) :
    (∃ hand sp', think2 w sp ctx ba = .ok (hand, sp')) ↔ ¬ Late w sp.mach.ticks
      (rootReadings ⟨sp.mach.rule.cls, ctx.isKakumei⟩ ctx.deck ba) := by
  obtain ⟨s, r, hrun, hlate⟩ := thinkRecursive_childless_iff
    (searchEnv_evaluates (α := α) ctx (w.clock sp.mach.ticks + thinkTimeLimit)) w ba ctx.deck
    ctx.isKakumei (sp.mach.time w).2
  have hlate : r = none ∧ s.tree.children = [] ↔ Late w sp.mach.ticks
      (rootReadings ⟨sp.mach.rule.cls, ctx.isKakumei⟩ ctx.deck ba) := hlate
  obtain ⟨s', r', hsearch, hret⟩ := search_spec (α := α) w ctx ba sp.mach
  obtain ⟨-, htree, rfl⟩ : s.mach = s'.mach ∧ s.tree = s'.tree ∧ r = r' := by
    have hsame : search w ctx ba sp.mach = .ok (s.mach, s.tree, r) := hrun
    simpa using hsame.symm.trans hsearch
  rw [htree] at hlate
  rw [← hlate]
  simp only [think2, hsearch, except_ok_bind]
  cases r with
  | none =>
    simp only [true_and]
    exact fallback_ok_iff w _ s'.tree
  | some q =>
    refine iff_of_true ?_ (by simp)
    obtain ⟨d, hd, ⟨rfl, -⟩ | ⟨hq, -⟩⟩ := hret.node q rfl
    · exact ⟨_, _, found_root hret.tree w _⟩
    · obtain ⟨i, e, rest, -, -, -, hfound⟩ := found_line hret.tree w _ hq hd
      exact ⟨_, _, hfound⟩

/-- **When a turn has an answer.** In every state of the player and every world: a plan supplies the
hand, or the clock does not pass the limit before the root has a child. -/
theorem think_returns_iff (w : World) (sp : SagePlayer α) (ctx : DaifugoContext) :
    (∃ hand sp', think w sp ctx = .ok (hand, sp')) ↔
      (∃ h, Replays sp ctx h) ∨ ¬ Late w sp.mach.ticks
        (rootReadings ⟨sp.mach.rule.cls, ctx.isKakumei⟩ ctx.deck ctx.baLast) := by
  rcases think_eq w sp ctx with ⟨hand, sp', hrep, hrun, -⟩ | ⟨hno, mach, hmach, hticks, hrun⟩
  · exact iff_of_true ⟨hand, sp', hrun⟩ (.inl ⟨hand, hrep⟩)
  · rw [hrun, think2_ok_iff, or_iff_right (not_exists.mpr hno)]
    rw [hmach, hticks]

/-- The clock is past the limit at the first look after the start of the search. -/
def lateWorld : World where
  clock n := if n = 0 then 0 else 100
  rdist _ := 0
  order _ l := l
  order_perm _ l := .refl l

/-- A player who leads with a three and a four then has no answer. -/
theorem no_answer_in_lateWorld :
    ¬ ∃ hand sp', think lateWorld (newPlayer .A) (turnOf (ofVector [⟨0⟩, ⟨5⟩]) []) =
      .ok (hand, sp') := by
  have heval : (think lateWorld (newPlayer .A) (turnOf (ofVector [⟨0⟩, ⟨5⟩]) [])).map Prod.fst =
      .error .nullDeref := by decide +kernel
  rintro ⟨hand, sp', hrun⟩
  rw [hrun] at heval
  cases heval

end

end SagePlayer

end Neof5
