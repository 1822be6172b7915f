import Neof5.Sage.Plan

/-!
# The turns of a player (`think`)

`think` replays the plan while its next hand may be played, and else drops it and calls `think2`
(`think_eq`). What holds of a single call then holds along every sequence of turns.

* `think_legal`: every hand that is returned is legal, and a player who leads does not pass.
* `saved_plan_invariant`: the saved plan is made of different cards of the deck that it was made
  for, and none of them was played since.
-/

namespace Neof5

open CardSet

namespace SagePlayer

variable {α : Type} [Score α]

/-- `hand` is the next hand of the plan, and it may be played. -/
def Replays (sp : SagePlayer α) (ctx : DaifugoContext) (hand : CardSet) : Prop :=
  sp.savedHandsTree.getLast? = some hand ∧ hand ⊆ ctx.deck ∧
    DaifugoRule.canPut ⟨sp.mach.rule.cls, ctx.isKakumei⟩ hand ctx.baLast = .ok .ok

variable {cls : RuleClass} {w : World} {sp sp' : SagePlayer α} {ctx : DaifugoContext}
  {hand : CardSet}

/-- **A turn.** The player takes the next hand of the plan off it and returns it, or calls
`think2` without a plan, before it has read the clock. -/
theorem think_eq (w : World) (sp : SagePlayer α) (ctx : DaifugoContext) :
    (∃ hand sp', Replays sp ctx hand ∧ think w sp ctx = .ok (hand, sp') ∧
      sp'.savedHandsTree = sp.savedHandsTree.dropLast ∧
      sp'.mach.rule.cls = sp.mach.rule.cls) ∨
    (∀ h, ¬ Replays sp ctx h) ∧ ∃ mach, mach.rule.cls = sp.mach.rule.cls ∧
      mach.ticks = sp.mach.ticks ∧
      think w sp ctx = think2 w { sp with savedHandsTree := [], mach } ctx ctx.baLast := by
  unfold think
  cases hlast : sp.savedHandsTree.getLast? with
  | none =>
    refine .inr ⟨fun h hr => by simp [Replays, hlast] at hr, tweetLastTwo w ctx sp.mach,
      by simp, by simp, ?_⟩
    rw [List.getLast?_eq_none_iff.mp hlast]
  | some h =>
    have hrule : ((tweetLastTwo w ctx sp.mach).setKakumei ctx.isKakumei).rule =
        ⟨sp.mach.rule.cls, ctx.isKakumei⟩ := by simp [Mach.setKakumei, DaifugoRule.setKakumei]
    have hticks : ((tweetLastTwo w ctx sp.mach).setKakumei ctx.isKakumei).ticks = sp.mach.ticks :=
      tweetLastTwo_ticks w ctx sp.mach
    have hnext : ∀ x, Replays sp ctx x → x = h := fun x hr =>
      Option.some.inj (hr.1.symm.trans hlast)
    by_cases hsub : h ⊆ ctx.deck
    · have hall : ctx.deck.hasAll h = true := hsub
      simp only [hall, ↓reduceIte, hrule]
      rw [canPut_eq]
      by_cases hok : putResult ctx.isKakumei h ctx.baLast = .ok
      · simp only [hok, except_ok_bind, except_pure, beq_self_eq_true, ↓reduceIte]
        exact .inl ⟨h, _, ⟨hlast, hsub, by rw [canPut_eq, hok]⟩, rfl, rfl, by simp [hrule]⟩
      · simp only [except_ok_bind, except_pure, beq_eq_false_iff_ne.mpr hok, Bool.false_eq_true,
          ↓reduceIte]
        refine .inr ⟨fun x hr => hok ?_, _, by rw [hrule], hticks, rfl⟩
        have hput := hr.2.2
        rw [hnext x hr, canPut_eq] at hput
        exact Except.ok.inj hput
    · have hall : ctx.deck.hasAll h = false := Bool.eq_false_iff.mpr hsub
      simp only [hall, Bool.false_eq_true, ↓reduceIte, except_pure, except_ok_bind]
      exact .inr ⟨fun x hr => hsub (hnext x hr ▸ hr.2.1), _, by rw [hrule], hticks, rfl⟩

/-- The two ways in which a turn can have come to its end. -/
theorem think_cases (hrun : think w sp ctx = .ok (hand, sp')) :
    (Replays sp ctx hand ∧ sp'.savedHandsTree = sp.savedHandsTree.dropLast ∧
      sp'.mach.rule.cls = sp.mach.rule.cls) ∨
    (∀ h, ¬ Replays sp ctx h) ∧ ∃ mach, mach.rule.cls = sp.mach.rule.cls ∧
      think2 w { sp with savedHandsTree := [], mach } ctx ctx.baLast = .ok (hand, sp') := by
  rcases think_eq w sp ctx with ⟨h, sp1, hrep, heq, hturn⟩ | ⟨hno, mach, hmach, -, heq⟩
  · rw [hrun] at heq
    cases heq
    exact .inl ⟨hrep, hturn⟩
  · exact .inr ⟨hno, mach, hmach, heq.symm.trans hrun⟩

/-- What holds of a player between its turns. -/
structure PlayerInv (cls : RuleClass) (sp : SagePlayer α) : Prop where
  rule : sp.mach.rule.cls = cls
  nonempty : ∀ h ∈ sp.savedHandsTree, h ≠ ∅

/-- A turn keeps the invariant of the player. -/
theorem PlayerInv.think (h : PlayerInv cls sp) (hrun : think w sp ctx = .ok (hand, sp')) :
    PlayerInv cls sp' := by
  rcases think_cases hrun with ⟨-, hsaved, hrule⟩ | ⟨-, mach, hmach, hrun⟩
  · refine ⟨hrule.trans h.rule, fun x hx => h.nonempty x ?_⟩
    rw [hsaved] at hx
    exact List.mem_of_mem_dropLast hx
  · have hth := think2_spec hrun
    refine ⟨hth.rule.trans (hmach.trans h.rule), ?_⟩
    rcases hth.plan with hplan | hplan
    · simp [hplan]
    · exact hplan.nonempty

theorem Reach.inv (h : Reach cls sp) : PlayerInv cls sp := by
  induction h with
  | init hf => exact ⟨hf.2, by simp [hf.1]⟩
  | turn _ hrun ih => exact ih.think hrun

/-- **Every move is legal.** In every state that a player reaches, whatever the clock, the random
numbers and the order of the frontiers, the hand that `think` returns is a pass or a part of the
deck that may be put on the table, and it is no pass if the table is empty. -/
theorem think_legal (hr : Reach cls sp) (hrun : think w sp ctx = .ok (hand, sp')) :
    (hand = ∅ ∨ hand ⊆ ctx.deck ∧
      DaifugoRule.canPut ⟨cls, ctx.isKakumei⟩ hand ctx.baLast = .ok .ok) ∧
    (ctx.baLast = ∅ → ctx.deck ≠ ∅ → hand ≠ ∅) := by
  have hinv := hr.inv
  rcases think_cases hrun with ⟨hrep, -, -⟩ | ⟨-, mach, hmach, hrun⟩
  · have hput := hrep.2.2
    rw [hinv.rule] at hput
    exact ⟨.inr ⟨hrep.2.1, hput⟩, fun _ _ => hinv.nonempty hand (List.mem_of_getLast? hrep.1)⟩
  · have hth := think2_spec hrun
    rw [show ({ sp with savedHandsTree := [], mach } : SagePlayer α).mach.rule.cls = cls from
      hmach.trans hinv.rule] at hth
    refine ⟨?_, hth.leads⟩
    by_cases h0 : hand = ∅
    · exact .inl h0
    · exact .inr (hth.legal h0).2

/-- The first turn of a player who leads with a three, a four and the joker. -/
theorem first_turn :
    ∃ sp', think stillWorld (newPlayer .A) (turnOf (ofVector [⟨0⟩, ⟨5⟩, ⟨52⟩]) []) =
      .ok (ofVector [⟨5⟩], sp') ∧
      sp'.savedHandsTree = [ofVector [⟨52⟩], ofVector [⟨0⟩]] := by
  have heval : ((think stillWorld (newPlayer .A) (turnOf (ofVector [⟨0⟩, ⟨5⟩, ⟨52⟩]) [])).map
      fun r => (r.1, r.2.savedHandsTree)) =
        .ok (ofVector [⟨5⟩], [ofVector [⟨52⟩], ofVector [⟨0⟩]]) := by
    decide +kernel
  obtain ⟨⟨hand, sp'⟩, hrun, hres⟩ := map_ok heval
  obtain ⟨rfl, hsaved⟩ := Prod.mk.inj hres
  exact ⟨sp', hrun, hsaved⟩

theorem think_legal_first_turn :
    ∃ sp', think stillWorld (newPlayer .A) (turnOf (ofVector [⟨0⟩, ⟨5⟩, ⟨52⟩]) []) =
        .ok (ofVector [⟨5⟩], sp') ∧
      (ofVector [⟨5⟩] = ∅ ∨ ofVector [⟨5⟩] ⊆ ofVector [⟨0⟩, ⟨5⟩, ⟨52⟩] ∧
        DaifugoRule.canPut ⟨.A, false⟩ (ofVector [⟨5⟩]) ∅ = .ok .ok) ∧
      ((∅ : CardSet) = ∅ → ofVector [⟨0⟩, ⟨5⟩, ⟨52⟩] ≠ ∅ → ofVector [⟨5⟩] ≠ ∅) := by
  obtain ⟨sp', hrun, -⟩ := first_turn
  exact ⟨sp', hrun, think_legal (.init ⟨rfl, rfl⟩) hrun⟩

/-! ## The saved plan -/

/-- The states of a player with their history: the deck of the last call of `think2`, and the
hands that were returned by that call and from its plan since. -/
inductive History (cls : RuleClass) : SagePlayer α → CardSet → List CardSet → Prop
  | init {sp : SagePlayer α} : Fresh cls sp → History cls sp ∅ []
  | replay {sp sp' : SagePlayer α} {w ctx hand deck played} : History cls sp deck played →
      Replays sp ctx hand → think w sp ctx = .ok (hand, sp') →
      History cls sp' deck (played ++ [hand])
  | rethink {sp sp' : SagePlayer α} {w ctx hand deck played} : History cls sp deck played →
      (∀ h, ¬ Replays sp ctx h) → think w sp ctx = .ok (hand, sp') →
      History cls sp' ctx.deck [hand]

/-- Every state that a player reaches has a history. -/
theorem Reach.history (h : Reach cls sp) : ∃ deck played, History cls sp deck played := by
  induction h with
  | init hf => exact ⟨_, _, .init hf⟩
  | turn _ hrun ih =>
    obtain ⟨deck, played, hh⟩ := ih
    rcases think_cases hrun with ⟨hrep, -⟩ | ⟨hno, -⟩
    · exact ⟨_, _, .replay hh hrep hrun⟩
    · exact ⟨_, _, .rethink hh hno hrun⟩

/-- The last hand of a plan is taken off and played. -/
theorem PlanOk.pop {deck : CardSet} {played saved : List CardSet} (h : PlanOk deck played saved)
    (hlast : saved.getLast? = some hand) : PlanOk deck (played ++ [hand]) saved.dropLast := by
  obtain ⟨rest, rfl⟩ := List.getLast?_eq_some_iff.mp hlast
  have hrest : ∀ x ∈ rest, x ∈ rest ++ [hand] := fun x hx => List.mem_append_left _ hx
  obtain ⟨hpair, -, hcross⟩ := List.pairwise_append.mp h.disjoint
  rw [List.dropLast_concat]
  refine ⟨fun x hx => h.nonempty x (hrest x hx), hpair, fun x hx => h.subset x (hrest x hx),
    fun x hx y hy => ?_⟩
  rcases List.mem_append.mp hy with hy | hy
  · exact h.apart x (hrest x hx) y hy
  · exact hcross x hx y hy

/-- The plan of every state with a history is in order. -/
theorem History.planOk {deck : CardSet} {played : List CardSet}
    (h : History cls sp deck played) : PlanOk deck played sp.savedHandsTree := by
  induction h with
  | init hf => rw [hf.1]; exact planOk_nil _ _
  | replay _ hrep hrun ih =>
    rcases think_cases hrun with ⟨-, hsaved, -⟩ | ⟨hno, -⟩
    · rw [hsaved]; exact ih.pop hrep.1
    · exact (hno _ hrep).elim
  | rethink _ hno hrun ih =>
    rcases think_cases hrun with ⟨hrep, -⟩ | ⟨-, mach, -, hrun⟩
    · exact (hno _ hrep).elim
    · rcases (think2_spec hrun).plan with hplan | hplan
      · rw [hplan]; exact planOk_nil _ _
      · exact hplan

/-- **The saved plan.** In every state that a player reaches, and for every history that led
there, the saved hands have cards, different ones, from the deck of the call that made the plan,
and none that was played by that call or from the plan since. A turn takes exactly the back
element off the plan and returns it, or drops the whole plan before `think2` runs. -/
theorem saved_plan_invariant (hr : Reach cls sp) :
    (∃ deck played, History cls sp deck played) ∧
    (∀ deck played, History cls sp deck played → PlanOk deck played sp.savedHandsTree) ∧
    ∀ w ctx hand sp', think w sp ctx = .ok (hand, sp') →
      sp.savedHandsTree = sp'.savedHandsTree ++ [hand] ∨
      ∃ mach, think2 w { sp with savedHandsTree := [], mach } ctx ctx.baLast = .ok (hand, sp') := by
  refine ⟨hr.history, fun _ _ hh => hh.planOk, fun w ctx hand sp' hrun => ?_⟩
  rcases think_cases hrun with ⟨hrep, hsaved, -⟩ | ⟨-, mach, -, hrun⟩
  · obtain ⟨rest, hrest⟩ := List.getLast?_eq_some_iff.mp hrep.1
    refine .inl ?_
    rw [hsaved, hrest, List.dropLast_concat]
  · exact .inr ⟨mach, hrun⟩

theorem saved_plan_invariant_two_hands :
    ∃ sp : SagePlayer ExtRat, Reach .A sp ∧
      sp.savedHandsTree = [ofVector [⟨52⟩], ofVector [⟨0⟩]] ∧
      (∃ deck played, History .A sp deck played) ∧
      (∀ deck played, History .A sp deck played → PlanOk deck played sp.savedHandsTree) ∧
      ∀ w ctx hand sp', think w sp ctx = .ok (hand, sp') →
        sp.savedHandsTree = sp'.savedHandsTree ++ [hand] ∨
        ∃ mach, think2 w { sp with savedHandsTree := [], mach } ctx ctx.baLast =
          .ok (hand, sp') := by
  obtain ⟨sp', hrun, hsaved⟩ := first_turn
  have hr : Reach .A sp' := .turn (.init ⟨rfl, rfl⟩) hrun
  exact ⟨sp', hr, hsaved, saved_plan_invariant hr⟩

end SagePlayer

end Neof5
