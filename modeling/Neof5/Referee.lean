import Neof5.RuleSpec
import Neof5.Sage.Estimate
import Neof5.Sage.Remarks
import Neof5.Sage.Turn

/-!
# What the server gets to see of the rules

* `rule_classes_agree`: for putting cards on the table the two rule classes are one. They differ
  only in the hands that may be the last one.
* `answers_follow_rules`: over every sequence of messages, what `SagePlayer` answers to each turn is
  read by the server as a hand that the rules of the game allow, stated without the card table and
  without the rule classes.
-/

namespace Neof5

open CardSet

/-! ## The two classes -/

section

variable {k : Bool} {s : CardSet} {num : Nat}

theorem hasNumOf_iff_exists (hnum : 1 ≤ num ∧ num ≤ 13) : s.hasNumOf num = true ↔
    ∃ c ∈ s, c.isJoker = false ∧ c.getNum = num := by
  have hrank : ∀ c : Card, c.rank = (num + 10) % 13 ↔ c.isJoker = false ∧ c.getNum = num := by
    obtain ⟨h1, h13⟩ := hnum
    interval_cases num <;> decide
  simp only [SagePlayer.hasNumOf_iff, SagePlayer.countRank_pos, hrank]

/-- The hands that class B forbids as the last one. -/
def BadFinish (k : Bool) (s : CardSet) : Prop :=
  (∀ c ∈ s, c.isJoker = true) ∨
    ∃ c ∈ s, c.isJoker = false ∧ c.getNum = if k then 3 else 2

theorem canAgariB_ok_iff : DaifugoRule.canAgari ⟨.B, k⟩ s = .ok .ok ↔ ¬ BadFinish k s := by
  obtain ⟨n, t, hx, -, -, ht⟩ := extractJoker_spec s
  have hempty : t.empty = true ↔ ∀ c ∈ s, c.isJoker = true := by
    rw [empty_iff, eq_empty_iff]
    refine forall_congr' fun c => ?_
    rw [ht c, not_and, Bool.not_eq_false]
  have hnum : t.hasNumOf (if k then 3 else 2) = true ↔
      ∃ c ∈ s, c.isJoker = false ∧ c.getNum = if k then 3 else 2 := by
    rw [hasNumOf_iff_exists (by cases k <;> decide)]
    refine exists_congr fun c => ?_
    rw [ht c]
    tauto
  simp only [DaifugoRule.canAgari, hx, except_ok_bind]
  rw [BadFinish, ← hempty, ← hnum]
  split_ifs <;> simp_all

end

/-- **The two classes.** Whatever is put on whatever table, class B gives the verdict of class A,
the error included, and never one of its own two errors about sequences: the sequences that it is
there to add are never played. On the last hand it differs from class A exactly for a lone joker or
no card at all, and for hands with a card of the number that is the strongest. -/
theorem rule_classes_agree (k : Bool) (cards ba : CardSet) :
    DaifugoRule.canPut ⟨.B, k⟩ cards ba = DaifugoRule.canPut ⟨.A, k⟩ cards ba ∧
    DaifugoRule.canPut ⟨.B, k⟩ cards ba ≠ .ok .errBaIsnotKaidan ∧
    DaifugoRule.canPut ⟨.B, k⟩ cards ba ≠ .ok .errNotKaidan ∧
    (DaifugoRule.canAgari ⟨.B, k⟩ cards = DaifugoRule.canAgari ⟨.A, k⟩ cards ↔
      ¬ BadFinish k cards) := by
  refine ⟨by rw [canPut_eq, canPut_eq], ?_, ?_, canAgariB_ok_iff⟩
  · rw [canPut_eq, putResult]
    split_ifs <;> simp
  · rw [canPut_eq, putResult]
    split_ifs <;> simp

/-! ## The answers of a player -/

/-- What the rules of the game allow on a turn: to pass unless one leads, to lead with cards of one
number, and to follow with as many cards of a stronger number. -/
inductive Allowed (deck table hand : CardSet) (k : Bool) : Prop
  | pass : hand = ∅ → table ≠ ∅ ∨ deck = ∅ → Allowed deck table hand k
  | lead : hand ≠ ∅ → hand ⊆ deck → SameNumber hand → table = ∅ → Allowed deck table hand k
  | follow : hand ≠ ∅ → hand ⊆ deck → SameNumber hand → SameNumber table →
      table.size = hand.size → playStrength k table < playStrength k hand →
      Allowed deck table hand k

/-- A hand that a rule object accepts is allowed. -/
theorem Allowed.of_canPut {r : DaifugoRule} {deck table hand : CardSet} (hne : hand ≠ ∅)
    (hsub : hand ⊆ deck) (hput : r.canPut hand table = .ok .ok) :
    Allowed deck table hand r.isKakumei := by
  by_cases htable : table = ∅
  · subst htable
    exact .lead hne hsub (sameNumber_iff.mpr ((canPut_empty_ok_iff hne).mp hput)) rfl
  · obtain ⟨hg, hgt, hsize, hpower⟩ := (canPut_ok_iff hne htable).mp hput
    refine .follow hne hsub (sameNumber_iff.mpr hg) (sameNumber_iff.mpr hgt) hsize ?_
    rwa [playStrength_eq hne, playStrength_eq htable]

namespace Neof5Protocol

open Picojson

variable {ν σ : Type} {pf : Platform ν} {player : IPlayer σ} {data : Bytes}

/-- The meaning of a message: a turn, or nothing that is to be answered. -/
inductive Means (pf : Platform ν) (data : Bytes) : Option Turn → Prop
  | turn {o turn} : IsObjectText pf data o → Says pf o turn → Means pf data (some turn)
  | other {o kind} : IsObjectText pf data o → Json.field o "Kind" = .str kind →
      kind ≠ ascii "ProcessTurn" → Means pf data none

/-- The hands that the rules allow on the turn. -/
def Turn.Allows (turn : Turn) (hand : CardSet) : Prop :=
  Allowed turn.context.deck turn.context.baLast hand turn.isKakumei

/-- A turn is answered only if the player returns. -/
theorem onMessage_turn_inv {o : List (Bytes × Json ν)} {turn : Turn} {s s' : σ} {sends : List Send}
    (hobj : IsObjectText pf data o) (h : Says pf o turn)
    (hrun : onMessage pf player data s = .ok (sends, s')) :
    ∃ hand remarks, player.think turn.context s = .ok (hand, remarks, s') ∧
      sends = remarks.map (tweet pf) ++
        [⟨serialize pf (putObject (joinTokens hand.cards)), true⟩] := by
  cases hthink : player.think turn.context s with
  | error e =>
    simp [onMessage, parse_object hobj, Json.getObj, h.kind, Json.getStr, readContext_says h,
      hthink, Bind.bind, Except.bind] at hrun
  | ok r =>
    obtain ⟨hand, remarks, s₁⟩ := r
    rw [onMessage_turn hobj h hthink] at hrun
    cases hrun
    exact ⟨hand, remarks, rfl, rfl⟩

end Neof5Protocol

namespace SagePlayer

open Picojson Neof5Protocol

variable {α : Type} [Score α] {cls : RuleClass} {w : World} {sp sp' : SagePlayer α}
  {ctx : DaifugoContext} {hand : CardSet}

/-- What a player returns is allowed: the next hand of the plan was checked, and a hand of the
search is one that was enumerated. -/
theorem think_allowed (h : PlayerInv cls sp) (hrun : think w sp ctx = .ok (hand, sp')) :
    Allowed ctx.deck ctx.baLast hand ctx.isKakumei := by
  by_cases hne : hand = ∅
  · refine .pass hne ?_
    rcases think_cases hrun with ⟨hrep, -, -⟩ | ⟨-, mach, -, hrun⟩
    · exact absurd hne (h.nonempty hand (List.mem_of_getLast? hrep.1))
    · by_contra hboth
      obtain ⟨htable, hdeck⟩ := not_or.mp hboth
      exact (think2_spec hrun).leads (not_not.mp htable) hdeck hne
  · rcases think_cases hrun with ⟨hrep, -, -⟩ | ⟨-, mach, -, hrun⟩
    · exact .of_canPut hne hrep.2.1 hrep.2.2
    · obtain ⟨-, hsub, hput⟩ := (think2_spec hrun).legal hne
      exact .of_canPut hne hsub hput

/-- The answers to messages, from any state between two turns. -/
theorem answers_from {ν : Type} {pf : Platform ν} {datas : List Bytes} {turns : List (Option Turn)}
    (hmeans : List.Forall₂ (Means pf) datas turns) (h : PlayerInv cls sp) {out : List Send}
    (hrun : Neof5Protocol.run pf (iplayer w) datas sp = .ok (out, sp')) :
    List.Forall₂ (fun turn m => ∃ hand, IsPut pf hand m ∧ turn.Allows hand) turns.reduceOption
        (out.filter Send.flush) ∧
      ∀ m ∈ out, m.flush = false → ∃ text ∈ remarkTexts, IsTweet pf (utf8 text) m := by
  induction hmeans generalizing sp out with
  | nil =>
    cases hrun
    exact ⟨.nil, by simp⟩
  | @cons data turn datas turns hmean _ ih =>
    obtain ⟨⟨sends, sp₁⟩, hdata, hrun⟩ := bind_ok hrun
    obtain ⟨⟨outs, sp₂⟩, hrest, hrun⟩ := bind_ok hrun
    cases hrun
    cases hmean with
    | other hobj hkind hne =>
      rw [onMessage_other hobj hkind hne] at hdata
      cases hdata
      simpa using ih h hrest
    | @turn o turn hobj hsays =>
      obtain ⟨hand, remarks, hthink, rfl⟩ := onMessage_turn_inv hobj hsays hdata
      have hremarks := iplayer_remarks hthink
      obtain ⟨⟨hand', sp'⟩, hturn, hthink⟩ := bind_ok hthink
      cases hthink
      obtain ⟨hputs, htweets⟩ := ih (h.think hturn) hrest
      have hquiet : (((newTweets sp sp₁).map utf8).map (tweet pf)).filter Send.flush = [] := by
        simp [List.filter_eq_nil_iff, tweet]
      refine ⟨?_, fun m hm hflush => ?_⟩
      · rw [List.filter_append, List.filter_append, hquiet]
        exact .cons ⟨hand, isPut_put hand, think_allowed h hturn⟩ hputs
      · rcases List.mem_append.mp hm with hm | hm
        · rcases List.mem_append.mp hm with hm | hm
          · obtain ⟨remark, hremark, rfl⟩ := List.mem_map.mp hm
            obtain ⟨text, htext, rfl⟩ := hremarks remark hremark
            exact ⟨text, htext, isTweet_tweet _⟩
          · rw [List.mem_singleton.mp hm] at hflush
            cases hflush
        · exact htweets m hm hflush

/-- **The answers follow the rules.** Whatever the messages are, in whatever state the player is
when they begin to arrive, and whatever the clock and the random numbers are: the answers that
flush are one for each turn and in their order, and the server reads the answer to a turn as a hand
that the rules of the game allow on that turn. All that is sent besides are remarks, each of them
one of six texts. -/
theorem answers_follow_rules {ν : Type} (pf : Platform ν) (w : World) (hr : Reach cls sp)
    {datas : List Bytes} {turns : List (Option Turn)}
    (hmeans : List.Forall₂ (Means pf) datas turns) {out : List Send}
    (hrun : Neof5Protocol.run pf (iplayer w) datas sp = .ok (out, sp')) :
    List.Forall₂ (fun turn m => ∃ hand, IsPut pf hand m ∧ turn.Allows hand) turns.reduceOption
        (out.filter Send.flush) ∧
      ∀ m ∈ out, m.flush = false → ∃ text ∈ remarkTexts, IsTweet pf (utf8 text) m :=
  answers_from hmeans hr.inv hrun

/-- A player that leads with its last card. -/
theorem answers_follow_rules_sample :
    ∃ (out : List Send) (sp' : SagePlayer ExtRat),
      Neof5Protocol.run digitPlatform (iplayer stillWorld) [sampleText] (newPlayer .A) =
        .ok (out, sp') ∧
      List.Forall₂ (fun turn m => ∃ hand, IsPut digitPlatform hand m ∧ turn.Allows hand)
        [some sampleTurn].reduceOption (out.filter Send.flush) ∧
      ∀ m ∈ out, m.flush = false → ∃ text ∈ remarkTexts, IsTweet digitPlatform (utf8 text) m := by
  have heval : ((think stillWorld (newPlayer .A) sampleTurn.context).map fun r => r.1) =
      .ok (single Card.joker) := by decide +kernel
  obtain ⟨⟨hand, sp'⟩, hthink, -⟩ := map_ok heval
  have hplays : (iplayer stillWorld).think sampleTurn.context (newPlayer .A) =
      .ok (hand, (newTweets (newPlayer .A) sp').map utf8, sp') := by
    simp only [iplayer, hthink, except_ok_bind]
    rfl
  have hdata := onMessage_turn sampleText_object sampleObject_says hplays
  have hrun : Neof5Protocol.run digitPlatform (iplayer stillWorld) ([] ++ [sampleText])
      (newPlayer .A) = _ := run_append rfl hdata
  exact ⟨_, sp', hrun, answers_follow_rules digitPlatform stillWorld (.init ⟨rfl, rfl⟩)
    (.cons (.turn sampleText_object sampleObject_says) .nil) hrun⟩

end SagePlayer

end Neof5
