import Neof5.Context
import Neof5.RuleLemmas

/-!
# The simple player (`PoorPlayer.cpp`)

`think` sorts the hand cards from the weakest to the strongest and tries the windows of as many
neighbouring cards as the last play has, one after the other.

The number of windows is computed in `size_t` from the number of hand cards, and wraps around if
the last play has at least two cards more than the hand: the first window then reads past the hand
cards. Otherwise every read is in bounds and the answer is legal (`think_legal_iff`).
-/

namespace Neof5

open CardSet

namespace PoorPlayer

/-- The width of `size_t`, which depends on the machine. -/
inductive SizeT where
  | bits32
  | bits64
  deriving DecidableEq, Repr

/-- The number of values of `size_t`. -/
def SizeT.modulus : SizeT → Nat
  | bits32 => 2 ^ 32
  | bits64 => 2 ^ 64

/-- `tefuda[j]` -/
def vectorIndex (v : List Card) (j : Nat) : Except Fault Card :=
  match v[j]? with
  | some c => .ok c
  | none => .error .badIndex

/-- The hand cards from the weakest to the strongest. -/
def tefuda (ctx : DaifugoContext) : Except Fault (List Card) := do
  let v ← ctx.deck.conv2Vector
  let v := sortCards v
  return if ctx.isKakumei then v.reverse else v

/-- `n`: the number of cards of a play. -/
def playCount (ctx : DaifugoContext) : Nat :=
  match ctx.ba.getLast? with
  | none => 1
  | some lastba => lastba.size

/-- `tefuda.size() - (n - 1)` -/
def windowCount (z : SizeT) (size n : Nat) : Nat :=
  (((size : Int) - ((n : Int) - 1)) % z.modulus).toNat

/-- The body of the loop that collects a window. -/
def windowBody (v : List Card) (j : Nat) (cards : CardSet) :
    Except Fault (CardSet × Option Unit) := do
  let c ← vectorIndex v j
  return (cards.addCard c, none)

/-- The `n` cards from index `i` on. -/
def window (v : List Card) (i n : Nat) : Except Fault CardSet := do
  let (cards, _) ← Loop.forEach (windowBody v) (List.range' i n) ∅
  return cards

/-- The loop over the windows: `left` of them are still to be tried, from index `i` on. -/
def tryWindows (ctx : DaifugoContext) (v : List Card) (n : Nat) :
    Nat → Nat → DaifugoRule → Except Fault (CardSet × DaifugoRule)
  | 0, _, rule => .ok (∅, rule)
  | left + 1, i, rule => do
    let cards ← window v i n
    let rule := rule.setKakumei ctx.isKakumei
    if (← rule.canPut cards ctx.baLast) = .ok then return (cards, rule)
    tryWindows ctx v n left (i + 1) rule

/-- `think`: the hand, and the rule object that the player keeps. -/
def think (z : SizeT) (rule : DaifugoRule) (ctx : DaifugoContext) :
    Except Fault (CardSet × DaifugoRule) := do
  let v ← tefuda ctx
  let n := playCount ctx
  tryWindows ctx v n (windowCount z v.length n) 0 rule

/-! ## The hand cards and the windows -/

/-- The hand cards from the weakest to the strongest, as the player orders them. -/
def inOrder (ctx : DaifugoContext) : List Card :=
  if ctx.isKakumei then ctx.deck.cards.reverse else ctx.deck.cards

theorem tefuda_eq (ctx : DaifugoContext) : tefuda ctx = .ok (inOrder ctx) := by
  simp only [tefuda, conv2Vector_eq, except_ok_bind, sortCards_cards, except_pure, inOrder]

theorem mem_inOrder {ctx : DaifugoContext} {c : Card} : c ∈ inOrder ctx ↔ c ∈ ctx.deck := by
  unfold inOrder
  split <;> simp

theorem length_inOrder (ctx : DaifugoContext) : (inOrder ctx).length = ctx.deck.size := by
  unfold inOrder
  split <;> simp [size_eq]

theorem nodup_inOrder (ctx : DaifugoContext) : (inOrder ctx).Nodup := by
  unfold inOrder
  split
  · exact List.nodup_reverse.mpr (cards_nodup _)
  · exact cards_nodup _

/-- The cards of the window of `n` cards at index `i`. -/
def windowAt (v : List Card) (i n : Nat) : CardSet := ofVector ((v.drop i).take n)

section

variable {v : List Card} {i n : Nat}

/-- The loop collects the cards of the window. -/
theorem window_eq (h : n = 0 ∨ i + n ≤ v.length) : window v i n = .ok (windowAt v i n) := by
  suffices ∀ s, Loop.forEach (windowBody v) (List.range' i n) s =
      .ok (((v.drop i).take n).foldl addCard s, none) by
    simp only [window, this ∅, except_ok_bind]; rfl
  induction n generalizing i with
  | zero => intro s; simp [Loop.forEach]
  | succ n ih =>
    intro s
    have hlt : i < v.length := by omega
    have hbody : windowBody v i s = .ok (s.addCard v[i], none) := by
      simp [windowBody, vectorIndex, hlt]
    rw [List.range'_succ, Loop.forEach, hbody, List.drop_eq_getElem_cons hlt, List.take_succ_cons,
      List.foldl_cons]
    exact ih (.inr (by omega)) _

/-- A window that ends after the hand cards is read past their end. -/
theorem window_fault (hi : i ≤ v.length) (h : v.length < i + n) :
    window v i n = .error .badIndex := by
  suffices ∀ s, Loop.forEach (windowBody v) (List.range' i n) s = .error .badIndex by
    simp only [window, this]; rfl
  induction n generalizing i with
  | zero => omega
  | succ n ih =>
    intro s
    rw [List.range'_succ, Loop.forEach]
    by_cases hlt : i < v.length
    · have hbody : windowBody v i s = .ok (s.addCard v[i], none) := by
        simp [windowBody, vectorIndex, hlt]
      simp only [hbody]
      exact ih hlt (by omega) _
    · have hbody : windowBody v i s = .error .badIndex := by
        simp only [windowBody, vectorIndex, List.getElem?_eq_none (not_lt.mp hlt)]; rfl
      simp only [hbody]

end

/-- A window of the hand cards is a part of the deck. -/
theorem windowAt_subset {ctx : DaifugoContext} {i n : Nat} :
    windowAt (inOrder ctx) i n ⊆ ctx.deck :=
  subset_iff.mpr fun _ hc =>
    mem_inOrder.mp (List.mem_of_mem_drop (List.mem_of_mem_take (mem_ofVector.mp hc)))

/-! ## The answer -/

/-- A pass, or hand cards that may be put on the table. -/
def Legal (rule : DaifugoRule) (ctx : DaifugoContext) (hand : CardSet) : Prop :=
  hand = ∅ ∨ hand ⊆ ctx.deck ∧
    (rule.setKakumei ctx.isKakumei).canPut hand ctx.baLast = .ok .ok

/-- The play is accepted in this turn. -/
def Accepts (rule : DaifugoRule) (ctx : DaifugoContext) (hand : CardSet) : Prop :=
  (rule.setKakumei ctx.isKakumei).canPut hand ctx.baLast = .ok .ok

section

variable {v : List Card} {n : Nat}

/-- The loop over the windows answers with the first one that is accepted, or with a pass if there
is none. -/
theorem tryWindows_first (ctx : DaifugoContext) (left i : Nat) (rule : DaifugoRule)
    (h : n = 0 ∨ i + left + n ≤ v.length + 1) :
    ∃ hand rule', tryWindows ctx v n left i rule = .ok (hand, rule') ∧
      ((hand = ∅ ∧ ∀ j, i ≤ j → j < i + left → ¬ Accepts rule ctx (windowAt v j n)) ∨
        ∃ j, i ≤ j ∧ j < i + left ∧ hand = windowAt v j n ∧ Accepts rule ctx hand ∧
          ∀ j', i ≤ j' → j' < j → ¬ Accepts rule ctx (windowAt v j' n)) := by
  induction left generalizing i rule with
  | zero => exact ⟨∅, rule, rfl, .inl ⟨rfl, fun j h1 h2 => by omega⟩⟩
  | succ left ih =>
    have hput : Accepts rule ctx (windowAt v i n) ↔
        putResult (rule.setKakumei ctx.isKakumei).isKakumei (windowAt v i n) ctx.baLast = .ok := by
      rw [Accepts, canPut_eq, Except.ok.injEq]
    simp only [tryWindows, window_eq (show n = 0 ∨ i + n ≤ v.length by omega), except_ok_bind,
      canPut_eq]
    by_cases hok : Accepts rule ctx (windowAt v i n)
    · rw [if_pos (hput.mp hok)]
      exact ⟨_, _, rfl, .inr ⟨i, le_rfl, by omega, rfl, hok, fun j' h1 h2 => by omega⟩⟩
    · rw [if_neg (mt hput.mpr hok)]
      obtain ⟨hand, rule', hrun, hend⟩ := ih (i + 1) (rule.setKakumei ctx.isKakumei) (by omega)
      have hbefore : ∀ j', i ≤ j' → (i + 1 ≤ j' → ¬ Accepts rule ctx (windowAt v j' n)) →
          ¬ Accepts rule ctx (windowAt v j' n) := by
        intro j' hj' hno
        rcases Nat.eq_or_lt_of_le hj' with rfl | hlt
        · exact hok
        · exact hno hlt
      refine ⟨hand, rule', hrun, ?_⟩
      rcases hend with ⟨rfl, hno⟩ | ⟨j, h1, h2, rfl, hacc, hno⟩
      · exact .inl ⟨rfl, fun j hj hlt => hbefore j hj fun hj' => hno j hj' (by omega)⟩
      · exact .inr ⟨j, by omega, by omega, rfl, hacc, fun j' hj hlt => hbefore j' hj fun hj' =>
          hno j' hj' hlt⟩

end

theorem windowCount_eq {z : SizeT} {size n : Nat} (hn : n ≤ size + 1) (hs : size ≤ 53) :
    windowCount z size n = size + 1 - n := by
  have hz : (53 : Int) + 1 < z.modulus := by cases z <;> decide
  rw [windowCount, Int.emod_eq_of_lt] <;> omega

/-- The count wraps around below zero, and is then at least one. -/
theorem windowCount_pos {z : SizeT} {size n : Nat} (hn : size + 1 < n) (hs : n ≤ 53) :
    0 < windowCount z size n := by
  have hz : (53 : Int) + 1 < z.modulus := by cases z <;> decide
  have hwrap : ((size : Int) - ((n : Int) - 1)) % z.modulus =
      (size : Int) - ((n : Int) - 1) + z.modulus := by
    rw [← Int.add_emod_right, Int.emod_eq_of_lt] <;> omega
  rw [windowCount, hwrap]
  omega

theorem playCount_le_iff {ctx : DaifugoContext} {m : Nat} :
    playCount ctx ≤ m + 1 ↔ ctx.baLast.size ≤ m + 1 := by
  unfold playCount DaifugoContext.baLast
  cases ctx.ba.getLast? with
  | none => simp
  | some s => rfl

/-- **When the simple player is in bounds and legal.** It reads only hand cards and answers with a
pass or a legal play exactly if the last play has at most one card more than the hand. -/
theorem think_legal_iff (z : SizeT) (rule : DaifugoRule) (ctx : DaifugoContext) :
    (∃ hand rule', think z rule ctx = .ok (hand, rule') ∧ Legal rule ctx hand) ↔
      ctx.baLast.size ≤ ctx.deck.size + 1 := by
  have hs := size_le ctx.deck
  have hthink : think z rule ctx = tryWindows ctx (inOrder ctx) (playCount ctx)
      (windowCount z ctx.deck.size (playCount ctx)) 0 rule := by
    simp only [think, tefuda_eq, except_ok_bind, length_inOrder]
  rw [← playCount_le_iff, hthink]
  constructor
  · rintro ⟨hand, rule', hrun, -⟩
    by_contra hn
    have hpos := windowCount_pos (z := z) (not_le.mp hn) (by
      have := @playCount_le_iff ctx 52
      exact this.mpr (size_le _))
    obtain ⟨left, hleft⟩ := Nat.exists_eq_succ_of_ne_zero hpos.ne'
    have hfault : window (inOrder ctx) 0 (playCount ctx) = .error .badIndex :=
      window_fault (Nat.zero_le _) (by rw [length_inOrder]; omega)
    rw [hleft, tryWindows, hfault] at hrun
    cases hrun
  · intro hn
    obtain ⟨hand, rule', hrun, hfirst⟩ := tryWindows_first (v := inOrder ctx)
      (n := playCount ctx) ctx (windowCount z ctx.deck.size (playCount ctx)) 0 rule (by
        rw [windowCount_eq hn hs, length_inOrder]
        omega)
    refine ⟨hand, rule', hrun, ?_⟩
    rcases hfirst with ⟨rfl, -⟩ | ⟨j, -, -, rfl, hacc, -⟩
    · exact .inl rfl
    · exact .inr ⟨windowAt_subset, hacc⟩

/-- One card against three threes: the first window reads past the hand. -/
theorem think_one_card_against_three :
    ¬ ∃ hand rule', think .bits64 ⟨.A, false⟩ ⟨ofVector [⟨4⟩], 0, [ofVector [⟨0⟩, ⟨1⟩, ⟨2⟩]], ∅,
        false, []⟩ = .ok (hand, rule') ∧
      Legal ⟨.A, false⟩ ⟨ofVector [⟨4⟩], 0, [ofVector [⟨0⟩, ⟨1⟩, ⟨2⟩]], ∅, false, []⟩ hand := by
  rintro ⟨hand, rule', hrun, -⟩
  have hfault : think .bits64 ⟨.A, false⟩ ⟨ofVector [⟨4⟩], 0, [ofVector [⟨0⟩, ⟨1⟩, ⟨2⟩]], ∅,
      false, []⟩ = .error .badIndex := by decide +kernel
  rw [hfault] at hrun
  cases hrun

end PoorPlayer

end Neof5
