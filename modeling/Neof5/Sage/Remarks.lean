import Neof5.Sage.Plan
import Neof5.Poor
import Neof5.Protocol

/-!
# What the players say

The remarks of `SagePlayer` are made at six places of `think` and of the search. Whatever the
search does, they are among six texts (`think_says`). `PoorPlayer` says nothing.

`SagePlayer.iplayer` and `PoorPlayer.iplayer` are the two players as the protocol sees them.
-/

namespace Neof5

namespace SagePlayer

variable {α : Type} [Score α]

/-- The texts of the remarks. -/
def remarkTexts : List String :=
  ["まずいのう。。。", "ほれっ！", "わしの勝ちじゃ！", "ほほっ！", "むむぅ", "ぐぐ、時間がない。。。"]

/-- From `m` to `m'` only remarks of the list were made. -/
def Says (m m' : Mach) : Prop := ∃ new, m'.tweets = m.tweets ++ new ∧ ∀ t ∈ new, t ∈ remarkTexts

section

variable {w : World} {m m₁ m₂ : Mach}

theorem Says.of_eq (h : m₁.tweets = m.tweets) : Says m m₁ := ⟨[], by simp [h], by simp⟩

theorem Says.refl (m : Mach) : Says m m := .of_eq rfl

theorem Says.trans (h₁ : Says m m₁) (h₂ : Says m₁ m₂) : Says m m₂ := by
  obtain ⟨new₁, he₁, hn₁⟩ := h₁
  obtain ⟨new₂, he₂, hn₂⟩ := h₂
  refine ⟨new₁ ++ new₂, by rw [he₂, he₁, List.append_assoc], fun t ht => ?_⟩
  rcases List.mem_append.mp ht with ht | ht
  · exact hn₁ t ht
  · exact hn₂ t ht

theorem says_tweet {message : String} (h : message ∈ remarkTexts) : Says m (m.tweet message) :=
  ⟨[message], rfl, by simpa using h⟩

theorem says_getRand (max : Nat) : Says m (m.getRand w max).2 := .of_eq rfl

theorem says_remark {max hit : Nat} {message : String} (h : message ∈ remarkTexts) :
    Says m (remark w max hit message m) := by
  unfold remark
  dsimp only
  split
  · exact (says_getRand max).trans (says_tweet h)
  · exact says_getRand max

theorem says_tweetLastTwo (ctx : DaifugoContext) : Says m (tweetLastTwo w ctx m) := by
  unfold tweetLastTwo
  split
  · exact says_remark (by decide)
  · exact .refl m

theorem says_tweetFound (hh : CardSet) : Says m (tweetFound w hh m) := by
  unfold tweetFound
  dsimp only
  split
  · split
    · exact (says_getRand 3).trans (says_tweet (by decide))
    · exact (says_getRand 3).trans (says_remark (by decide))
  · exact .refl m

theorem says_tweetPass (hh : CardSet) : Says m (tweetPass w hh m) := by
  unfold tweetPass
  split
  · exact says_remark (by decide)
  · exact .refl m

end

/-! ## The search -/

section

variable {w : World} {env : SearchEnv α}

theorem says_sortHand (eh : EvalHand α) (s : Scan α) :
    Says s.mach (sortHand w env eh s).1.mach := by
  have htime : Says s.mach (s.mach.time w).2 := .of_eq rfl
  unfold sortHand
  dsimp only
  split
  · exact htime.trans (says_tweet (by decide))
  · split <;> exact htime

theorem says_judgeHand {isRoot : Bool} {eh : EvalHand α} {s : Scan α}
    {out : Scan α × Option Exit} (h : judgeHand w env isRoot eh s = .ok out) :
    Says s.mach out.1.mach := by
  unfold judgeHand at h
  dsimp only at h
  split at h
  · obtain ⟨chk, -, h⟩ := bind_ok h
    split at h
    · cases h
      exact .refl _
    · split at h
      · cases h
        exact .refl _
      · cases h
        exact says_sortHand eh s
  · cases h
    exact says_sortHand eh s

theorem says_classifyBody {isRoot : Bool} {hand : CardSet} {s : Scan α}
    {out : Scan α × Option Exit} (h : classifyBody w env isRoot hand s = .ok out) :
    Says s.mach out.1.mach := by
  obtain ⟨p1, -, h⟩ := bind_ok h
  dsimp only at h
  have hsaid := says_judgeHand h
  exact hsaid

theorem says_expand {isRoot look : Bool} {baCards : CardSet} {mach : Mach} {node : EvalNode α}
    {out : (Mach × Grow α) × Option Exit}
    (h : expand w env isRoot look baCards mach node = .ok out) : Says mach out.1.1 := by
  obtain ⟨⟨rule, hands⟩, -, h⟩ := bind_ok h
  dsimp only at h
  split at h
  · cases h
    exact .of_eq rfl
  · obtain ⟨⟨s, exit⟩, hloop, h⟩ := bind_ok h
    have hs : Says mach s.mach :=
      Loop.forEach_ok (I := fun s => Says mach s.mach)
        (fun x s out hs hb => hs.trans (says_classifyBody hb)) (.of_eq rfl) hloop
    cases exit with
    | some e => cases h; exact hs
    | none =>
      obtain ⟨⟨g, exit⟩, -, h⟩ := bind_ok h
      cases h
      exact hs

theorem says_visit {baCards : CardSet} {p : NodePtr} {s : Search α}
    {out : Search α × Option (Option NodePtr)} (h : visit w env baCards p s = .ok out) :
    Says s.mach out.1.mach := by
  unfold visit at h
  split at h
  · cases h
  · obtain ⟨⟨⟨mach, g⟩, exit⟩, hexp, h⟩ := bind_ok h
    cases exit with
    | some e => cases h; exact says_expand hexp
    | none => cases h; exact says_expand hexp

/-- The whole search, level by level. -/
theorem says_thinkRecursive {fuel d : Nat} {baCards : CardSet} {nodes : List NodePtr} {mach : Mach}
    {tree : EvalNode α} {out : Mach × EvalNode α × Option NodePtr}
    (h : thinkRecursive w env fuel d baCards nodes mach tree = .ok out) : Says mach out.1 := by
  induction fuel generalizing d baCards nodes mach tree with
  | zero => cases h
  | succ fuel ih =>
    obtain ⟨⟨s, result⟩, hloop, h⟩ := bind_ok h
    have hs : Says mach s.mach :=
      Loop.forEach_ok (I := fun s => Says mach s.mach)
        (fun x s out hs hb => hs.trans (says_visit hb)) (.refl mach) hloop
    cases result with
    | some r => cases h; exact hs
    | none =>
      dsimp only at h
      split at h
      · exact hs.trans (ih h)
      · cases h; exact hs

end

/-! ## A turn -/

section

variable {w : World} {sp sp' : SagePlayer α} {ctx : DaifugoContext} {hand : CardSet}

theorem says_think2 {baLast : CardSet} (h : think2 w sp ctx baLast = .ok (hand, sp')) :
    Says sp.mach sp'.mach := by
  obtain ⟨⟨mach, tree, result⟩, hsearch, h⟩ := bind_ok h
  have hm : Says sp.mach mach :=
    Says.trans (.of_eq rfl : Says sp.mach (sp.mach.time w).2) (says_thinkRecursive hsearch)
  cases result with
  | some r =>
    dsimp only [found] at h
    obtain ⟨saved, -, h⟩ := bind_ok h
    obtain ⟨hh, -, h⟩ := bind_ok h
    cases h
    exact hm.trans (says_tweetFound _)
  | none =>
    obtain ⟨i, e, -, -, rfl⟩ := fallback_spec h
    exact hm.trans (says_tweetPass _)

/-- **The remarks of a turn are among the six texts.** -/
theorem says_think (h : think w sp ctx = .ok (hand, sp')) : Says sp.mach sp'.mach := by
  have hlast : Says sp.mach (tweetLastTwo w ctx sp.mach) := says_tweetLastTwo ctx
  unfold think at h
  dsimp only at h
  split at h
  · have hset : Says sp.mach ((tweetLastTwo w ctx sp.mach).setKakumei ctx.isKakumei) :=
      hlast.trans (.of_eq rfl)
    split at h
    · obtain ⟨chk, -, h⟩ := bind_ok h
      simp only [except_pure_bind] at h
      split at h
      · cases h
        exact hset.trans (says_remark (by decide))
      · exact hset.trans (says_think2 h)
    · exact hset.trans (says_think2 h)
  · exact hlast.trans (says_think2 h)

/-- The remarks that a turn adds. -/
def newTweets (sp sp' : SagePlayer α) : List String :=
  sp'.mach.tweets.drop sp.mach.tweets.length

theorem newTweets_mem (h : think w sp ctx = .ok (hand, sp')) :
    ∀ t ∈ newTweets sp sp', t ∈ remarkTexts := by
  obtain ⟨new, he, hn⟩ := says_think h
  rw [newTweets, he, List.drop_left]
  exact hn

end

/-- `SagePlayer` as the protocol sees it. The state holds what it read from outside. -/
def iplayer (w : World) : IPlayer (SagePlayer α) where
  think ctx sp := do
    let (hand, sp') ← think w sp ctx
    return (hand, (newTweets sp sp').map utf8, sp')

theorem iplayer_remarks {w : World} {sp sp' : SagePlayer α} {ctx : DaifugoContext} {hand : CardSet}
    {remarks : List Bytes} (h : (iplayer w).think ctx sp = .ok (hand, remarks, sp')) :
    ∀ t ∈ remarks, ∃ text ∈ remarkTexts, t = utf8 text := by
  obtain ⟨⟨hand', sp₁⟩, hthink, h⟩ := bind_ok h
  cases h
  intro t ht
  obtain ⟨text, htext, rfl⟩ := List.mem_map.mp ht
  exact ⟨text, newTweets_mem hthink text htext, rfl⟩

end SagePlayer

namespace PoorPlayer

/-- `PoorPlayer` as the protocol sees it. -/
def iplayer (z : SizeT) : IPlayer DaifugoRule where
  think ctx rule := do
    let (hand, rule) ← think z rule ctx
    return (hand, [], rule)

end PoorPlayer

/-- The texts that the players of the program say in a turn. -/
def PlayerSays (text : Bytes) : Prop :=
  (∃ (α : Type) (_ : Score α) (w : World) (ctx : DaifugoContext) (sp sp' : SagePlayer α)
    (hand : CardSet) (remarks : List Bytes),
    (SagePlayer.iplayer w).think ctx sp = .ok (hand, remarks, sp') ∧ text ∈ remarks) ∨
  ∃ (z : PoorPlayer.SizeT) (ctx : DaifugoContext) (rule rule' : DaifugoRule) (hand : CardSet)
    (remarks : List Bytes),
    (PoorPlayer.iplayer z).think ctx rule = .ok (hand, remarks, rule') ∧ text ∈ remarks

/-- **What the players say** is one of six texts. -/
theorem PlayerSays.mem {text : Bytes} (h : PlayerSays text) :
    ∃ t ∈ SagePlayer.remarkTexts, text = utf8 t := by
  rcases h with ⟨α, _, w, ctx, sp, sp', hand, remarks, hthink, ht⟩ |
    ⟨z, ctx, rule, rule', hand, remarks, hthink, ht⟩
  · exact SagePlayer.iplayer_remarks hthink text ht
  · obtain ⟨⟨hand', rule₁⟩, -, hthink⟩ := bind_ok hthink
    cases hthink
    simp at ht

end Neof5
