import Neof5.Poor
import Neof5.RuleSpec
import Neof5.Trick

/-!
# How good the answers of the simple player are

`think` tries windows of neighbouring cards, and the cards of one number are neighbours. So on a
hand without the joker it misses no play: the least accepted window is the weakest accepted play
(`think_exact`). The order of the cards is turned around as a whole under the revolution; the joker,
which stays on top in the rule, then comes first, and it is played before every weaker card
(`joker_kept_iff`).

* `inOrder_sorted`: the hand cards are in the order of the rule.
* `exists_window`: where a play is accepted, so is a window of its number.
-/

namespace Neof5

open CardSet

/-! ## Lists in order -/

section Split

variable {β : Type} {f : β → Nat}

/-- In a list in order the elements with a smaller key come first. -/
theorem filter_append_filter_of_sorted {v : List β} (hv : v.Pairwise fun a b => f a ≤ f b)
    (p : Nat) : (v.filter fun a => f a < p) ++ (v.filter fun a => p ≤ f a) = v := by
  induction v with
  | nil => rfl
  | cons a v ih =>
    obtain ⟨ha, hv⟩ := List.pairwise_cons.mp hv
    by_cases hlt : f a < p
    · simp [hlt, not_le.mpr hlt, ih hv]
    · -- No later element is smaller.
      have hall : ∀ b ∈ v, p ≤ f b := fun b hb => (not_lt.mp hlt).trans (ha b hb)
      have hnone : v.filter (fun a => f a < p) = [] :=
        List.filter_eq_nil_iff.mpr fun b hb => by simpa using hall b hb
      have hkeep : v.filter (fun a => p ≤ f a) = v :=
        List.filter_eq_self.mpr fun b hb => by simpa using hall b hb
      simp [hlt, not_lt.mp hlt, hnone, hkeep]

/-- The elements with one key are neighbours. -/
theorem exists_block_of_sorted {v : List β} (hv : v.Pairwise fun a b => f a ≤ f b) (p : Nat) :
    ∃ pre post, v = pre ++ (v.filter fun a => f a = p) ++ post := by
  have hupper : (v.filter fun a => p ≤ f a).filter (fun a => f a < p + 1) =
      v.filter fun a => f a = p := by
    rw [List.filter_filter]
    refine List.filter_congr fun a _ => ?_
    simp only [← Bool.decide_and, decide_eq_decide]
    omega
  refine ⟨v.filter fun a => f a < p, (v.filter fun a => p ≤ f a).filter fun a => p + 1 ≤ f a, ?_⟩
  rw [← hupper, List.append_assoc, filter_append_filter_of_sorted (hv.filter _) (p + 1),
    filter_append_filter_of_sorted hv p]

end Split

namespace PoorPlayer

/-! ## The order of the hand cards -/

/-- The hand cards are in the order of the ids, or in the reversed one. -/
theorem inOrder_id (ctx : DaifugoContext) :
    (inOrder ctx).Pairwise fun a b => if ctx.isKakumei then b < a else a < b := by
  unfold inOrder
  cases ctx.isKakumei with
  | false => exact cards_sorted _
  | true => exact List.pairwise_reverse.mpr (cards_sorted _)

theorem getElem?_inOrder_le {ctx : DaifugoContext} {i j : Nat} {c d : Card}
    (hc : (inOrder ctx)[i]? = some c) (hd : (inOrder ctx)[j]? = some d) (h : i ≤ j) :
    c = d ∨ if ctx.isKakumei then d < c else c < d := by
  obtain ⟨hi, rfl⟩ := List.getElem?_eq_some_iff.mp hc
  obtain ⟨hj, rfl⟩ := List.getElem?_eq_some_iff.mp hd
  rcases Nat.eq_or_lt_of_le h with rfl | hlt
  · exact .inl rfl
  · exact .inr (List.pairwise_iff_getElem.mp (inOrder_id ctx) i j hi hj hlt)

/-- A card of the deck is no joker, if the deck has none. -/
theorem isJoker_of_mem {deck : CardSet} (hj : Card.joker ∉ deck) {c : Card} (hc : c ∈ deck) :
    c.isJoker = false := by
  rw [← Bool.not_eq_true, Card.isJoker_iff_eq]
  rintro rfl
  exact hj hc

/-- Without the joker they are in the order of the rule. -/
theorem inOrder_sorted {ctx : DaifugoContext} (hj : Card.joker ∉ ctx.deck) :
    (inOrder ctx).Pairwise fun a b => a.power ctx.isKakumei ≤ b.power ctx.isKakumei := by
  refine (inOrder_id ctx).imp_of_mem fun {a b} ha hb h => ?_
  have hrank : ∀ {c d : Card}, c < d → c.rank ≤ d.rank := fun h =>
    Card.rank_le_of_id_le (Nat.le_of_lt (Card.lt_iff.mp h))
  simp only [Card.power, isJoker_of_mem hj (mem_inOrder.mp ha),
    isJoker_of_mem hj (mem_inOrder.mp hb), Bool.false_eq_true, ↓reduceIte]
  cases hk : ctx.isKakumei with
  | false =>
    have := hrank (by simpa [hk] using h : a < b)
    simpa using this
  | true =>
    have := hrank (by simpa [hk] using h : b < a)
    simp only [↓reduceIte]
    omega

/-- The loop of `think`. -/
theorem think_eq (z : SizeT) (rule : DaifugoRule) {ctx : DaifugoContext}
    (hn : playCount ctx ≤ ctx.deck.size + 1) :
    think z rule ctx = tryWindows ctx (inOrder ctx) (playCount ctx)
      (ctx.deck.size + 1 - playCount ctx) 0 rule := by
  simp only [think, tefuda_eq, except_ok_bind, length_inOrder]
  rw [windowCount_eq hn (size_le _)]

/-! ## Completeness -/

section

variable {rule : DaifugoRule} {ctx : DaifugoContext} {H W : CardSet}

/-- `canPut` looks at the number of cards and the strength of a group only. -/
theorem accepts_congr (hH : H ≠ ∅) (hW : W ≠ ∅) (hgH : H.IsGroup) (hgW : W.IsGroup)
    (hsize : W.size = H.size) (hp : W.lead.power ctx.isKakumei = H.lead.power ctx.isKakumei) :
    Accepts rule ctx W ↔ Accepts rule ctx H := by
  simp only [Accepts, canPut_eq, putResult, hH, hW, hgH, hgW, hsize, DaifugoRule.setKakumei, hp]

theorem size_ofVector {v : List Card} (h : v.Nodup) : (ofVector v).size = v.length := by
  have : (ofVector v).toFinset = v.toFinset := by
    ext c
    rw [mem_toFinset, mem_ofVector, List.mem_toFinset]
  rw [size_eq_card, this, List.toFinset_card_of_nodup h]

/-- The cards of a group without the joker have the strength of its lead. -/
theorem power_eq_lead {k : Bool} (hg : H.IsGroup) (hno : ∀ c ∈ H, c.isJoker = false) {c : Card}
    (hc : c ∈ H) : c.power k = H.lead.power k := by
  have hlead := (lead_eq fun h => not_mem_empty c (h ▸ hc)).2.1
  have h1 := hno c hc
  have h2 := hno _ hlead
  exact Card.power_eq_of_rank h1 h2 (hg c hc _ hlead h1 h2)

/-- The strength of a window of one number is that of its first card. -/
theorem playStrength_windowAt (hj : Card.joker ∉ ctx.deck) {i n : Nat} {c : Card}
    (hc : (inOrder ctx)[i]? = some c) (hn : 1 ≤ n)
    (hg : (windowAt (inOrder ctx) i n).IsGroup) :
    playStrength ctx.isKakumei (windowAt (inOrder ctx) i n) = c.power ctx.isKakumei := by
  obtain ⟨hi, rfl⟩ := List.getElem?_eq_some_iff.mp hc
  have hmem : (inOrder ctx)[i] ∈ windowAt (inOrder ctx) i n := by
    obtain ⟨m, rfl⟩ := Nat.exists_eq_add_of_le' hn
    rw [windowAt, mem_ofVector, List.drop_eq_getElem_cons hi, List.take_succ_cons]
    exact List.mem_cons_self
  have hne : windowAt (inOrder ctx) i n ≠ ∅ := fun h => not_mem_empty _ (h ▸ hmem)
  have hno : ∀ c ∈ windowAt (inOrder ctx) i n, c.isJoker = false := fun c hc =>
    isJoker_of_mem hj (subset_iff.mp windowAt_subset c hc)
  rw [playStrength_eq hne]
  exact (power_eq_lead hg hno hmem).symm

theorem rank_eq_of_power {k : Bool} {a b : Card} (ha : a.isJoker = false) (hb : b.isJoker = false)
    (h : a.power k = b.power k) : a.rank = b.rank := by
  have h1 := Card.power_lt_iff (k := k) ha hb
  have h2 := Card.power_lt_iff (k := k) hb ha
  rw [h] at h1
  rw [h] at h2
  cases k <;> simp only [lt_irrefl, false_iff, Bool.false_eq_true, ↓reduceIte] at h1 h2 <;> omega

/-- The cards of one number are neighbours. -/
theorem exists_block (hj : Card.joker ∉ ctx.deck) (p : Nat) :
    ∃ pre block post, inOrder ctx = pre ++ block ++ post ∧ block.Nodup ∧
      ∀ c, c ∈ block ↔ c ∈ ctx.deck ∧ c.power ctx.isKakumei = p := by
  obtain ⟨pre, post, hv⟩ := exists_block_of_sorted (inOrder_sorted hj) p
  refine ⟨pre, _, post, hv, (nodup_inOrder ctx).filter _, fun c => ?_⟩
  rw [List.mem_filter, mem_inOrder, decide_eq_true_eq]

/-- Cards of one strength are a group. -/
theorem isGroup_of_power {k : Bool} {p : Nat}
    (h : ∀ c ∈ W, c.isJoker = false ∧ c.power k = p) : W.IsGroup := fun c hc d hd hcj hdj =>
  rank_eq_of_power hcj hdj ((h c hc).2.trans (h d hd).2.symm)

/-- Where a play is accepted, so is a window of its number. -/
theorem exists_window (hj : Card.joker ∉ ctx.deck) (hne : H ≠ ∅) (hsub : H ⊆ ctx.deck)
    (hacc : Accepts rule ctx H) :
    ∃ i c, i + H.size ≤ (inOrder ctx).length ∧ (inOrder ctx)[i]? = some c ∧
      Accepts rule ctx (windowAt (inOrder ctx) i H.size) ∧
      c.power ctx.isKakumei = playStrength ctx.isKakumei H := by
  have hg : H.IsGroup := isGroup_of_canPut hacc hne
  have hdeck : ∀ c ∈ H, c ∈ ctx.deck := subset_iff.mp hsub
  have hno : ∀ c ∈ H, c.isJoker = false := fun c hc => isJoker_of_mem hj (hdeck c hc)
  obtain ⟨pre, block, post, hv, hnd, hblock⟩ := exists_block hj (H.lead.power ctx.isKakumei)
  -- The cards of the play are in the block of their number, so it is long enough.
  have hlen : H.size ≤ block.length := by
    rw [size_eq]
    refine (H.cards_nodup.subperm fun c hc => (hblock c).mpr ?_).length_le
    have hc := mem_cards.mp hc
    exact ⟨hdeck c hc, power_eq_lead hg hno hc⟩
  have hpos : 0 < H.size := size_pos.mpr hne
  have hwin : windowAt (inOrder ctx) pre.length H.size = ofVector (block.take H.size) := by
    rw [windowAt, hv, List.append_assoc, List.drop_left, List.take_append_of_le_length hlen]
  have hmem : ∀ c ∈ ofVector (block.take H.size), c.isJoker = false ∧
      c.power ctx.isKakumei = H.lead.power ctx.isKakumei := fun c hc => by
    obtain ⟨hd, hp⟩ := (hblock c).mp (List.mem_of_mem_take (mem_ofVector.mp hc))
    exact ⟨isJoker_of_mem hj hd, hp⟩
  have hsize : (ofVector (block.take H.size)).size = H.size := by
    rw [size_ofVector (hnd.sublist (List.take_sublist _ _)), List.length_take,
      Nat.min_eq_left hlen]
  have hne' : ofVector (block.take H.size) ≠ ∅ := size_pos.mp (by omega)
  refine ⟨pre.length, block[0], ?_, ?_, ?_, ?_⟩
  · rw [hv]
    simp only [List.length_append]
    omega
  · rw [hv, List.append_assoc, List.getElem?_append_right le_rfl, Nat.sub_self,
      List.getElem?_append_left (by omega), List.getElem?_eq_getElem]
  · rw [hwin, accepts_congr hne hne' hg (isGroup_of_power hmem) hsize
      (hmem _ (lead_eq hne').2.1).2]
    exact hacc
  · rw [playStrength_eq hne]
    exact ((hblock _).mp (List.getElem_mem _)).2

/-- A window in bounds has its length. -/
theorem size_windowAt {i n : Nat} (h : i + n ≤ (inOrder ctx).length) :
    (windowAt (inOrder ctx) i n).size = n := by
  have hnd : (((inOrder ctx).drop i).take n).Nodup :=
    ((nodup_inOrder ctx).sublist (List.drop_sublist _ _)).sublist (List.take_sublist _ _)
  rw [windowAt, size_ofVector hnd, List.length_take, List.length_drop]
  omega

end

/-- A play of the deck with as many cards as the last one, which is accepted. -/
structure Answer (rule : DaifugoRule) (ctx : DaifugoContext) (hand : CardSet) : Prop where
  subset : hand ⊆ ctx.deck
  size : hand.size = playCount ctx
  accepted : Accepts rule ctx hand

/-- **Without the joker the player is exact.** If the last play has a card, and at most one more
than the hand, the player passes exactly if there is no answer, and else its answer is one of the
weakest number. -/
theorem think_exact (z : SizeT) (rule : DaifugoRule) (ctx : DaifugoContext)
    (hj : Card.joker ∉ ctx.deck) (h1 : 1 ≤ playCount ctx)
    (hn : playCount ctx ≤ ctx.deck.size + 1) :
    ∃ hand rule', think z rule ctx = .ok (hand, rule') ∧
      (hand = ∅ ↔ ∀ H, ¬ Answer rule ctx H) ∧
      (hand ≠ ∅ → Answer rule ctx hand ∧ ∀ H, Answer rule ctx H →
        playStrength ctx.isKakumei hand ≤ playStrength ctx.isKakumei H) := by
  have hlen := length_inOrder ctx
  obtain ⟨hand, rule', hrun, hfirst⟩ := tryWindows_first (v := inOrder ctx) (n := playCount ctx)
    ctx (ctx.deck.size + 1 - playCount ctx) 0 rule (by omega)
  refine ⟨hand, rule', (think_eq z rule hn).trans hrun, ?_⟩
  -- Every answer has its window.
  have hwindow : ∀ H, Answer rule ctx H → ∃ i c, i < ctx.deck.size + 1 - playCount ctx ∧
      (inOrder ctx)[i]? = some c ∧ Accepts rule ctx (windowAt (inOrder ctx) i (playCount ctx)) ∧
      c.power ctx.isKakumei = playStrength ctx.isKakumei H := by
    intro H hH
    have hne : H ≠ ∅ := size_pos.mp (by rw [hH.size]; omega)
    obtain ⟨i, c, hi, hc, hacc, hp⟩ := exists_window hj hne hH.subset hH.accepted
    rw [hH.size] at hi hacc
    exact ⟨i, c, by omega, hc, hacc, hp⟩
  rcases hfirst with ⟨rfl, hno⟩ | ⟨j, -, hlt, rfl, hacc, hbefore⟩
  · refine ⟨iff_of_true rfl fun H hH => ?_, fun h => (h rfl).elim⟩
    obtain ⟨i, c, hi, -, hacc, -⟩ := hwindow H hH
    exact hno i (Nat.zero_le _) (by omega) hacc
  · have hsize : (windowAt (inOrder ctx) j (playCount ctx)).size = playCount ctx :=
      size_windowAt (by omega)
    have hne : windowAt (inOrder ctx) j (playCount ctx) ≠ ∅ := size_pos.mp (by omega)
    have hans : Answer rule ctx (windowAt (inOrder ctx) j (playCount ctx)) :=
      ⟨windowAt_subset, hsize, hacc⟩
    refine ⟨iff_of_false hne fun h => h _ hans, fun _ => ⟨hans, fun H hH => ?_⟩⟩
    obtain ⟨i, c, hi, hc, hacc', hp⟩ := hwindow H hH
    -- The first window is not behind that of the answer, and the cards are in order.
    have hji : j ≤ i := not_lt.mp fun hij => hbefore i (Nat.zero_le _) hij hacc'
    have hjlen : j < (inOrder ctx).length := by omega
    rw [← hp, playStrength_windowAt hj (List.getElem?_eq_getElem hjlen) h1
      (isGroup_of_canPut hacc hne)]
    obtain ⟨hilen, rfl⟩ := List.getElem?_eq_some_iff.mp hc
    rcases Nat.eq_or_lt_of_le hji with rfl | hlt
    · exact le_rfl
    · exact List.pairwise_iff_getElem.mp (inOrder_sorted hj) j i hjlen hilen hlt

theorem think_exact_pair_of_fives :
    Card.joker ∉ ofVector [⟨0⟩, ⟨8⟩, ⟨9⟩] ∧
    1 ≤ playCount ⟨ofVector [⟨0⟩, ⟨8⟩, ⟨9⟩], 0, [ofVector [⟨1⟩, ⟨2⟩]], ∅, false, []⟩ ∧
    ∃ hand rule', think .bits64 ⟨.B, false⟩
        ⟨ofVector [⟨0⟩, ⟨8⟩, ⟨9⟩], 0, [ofVector [⟨1⟩, ⟨2⟩]], ∅, false, []⟩ = .ok (hand, rule') ∧
      (hand = ∅ ↔ ∀ H, ¬ Answer ⟨.B, false⟩
        ⟨ofVector [⟨0⟩, ⟨8⟩, ⟨9⟩], 0, [ofVector [⟨1⟩, ⟨2⟩]], ∅, false, []⟩ H) ∧
      (hand ≠ ∅ → Answer ⟨.B, false⟩
          ⟨ofVector [⟨0⟩, ⟨8⟩, ⟨9⟩], 0, [ofVector [⟨1⟩, ⟨2⟩]], ∅, false, []⟩ hand ∧
        ∀ H, Answer ⟨.B, false⟩
          ⟨ofVector [⟨0⟩, ⟨8⟩, ⟨9⟩], 0, [ofVector [⟨1⟩, ⟨2⟩]], ∅, false, []⟩ H →
          playStrength false hand ≤ playStrength false H) :=
  ⟨by decide, by decide, think_exact .bits64 ⟨.B, false⟩
    ⟨ofVector [⟨0⟩, ⟨8⟩, ⟨9⟩], 0, [ofVector [⟨1⟩, ⟨2⟩]], ∅, false, []⟩ (by decide) (by decide)
    (by decide)⟩

/-! ## The joker -/

section

variable {rule : DaifugoRule} {ctx : DaifugoContext}

/-- A single card may be led. -/
theorem accepts_lead (h : ctx.baLast = ∅) (c : Card) : Accepts rule ctx (single c) := by
  rw [Accepts, h, canPut_empty_ok_iff (single_ne_empty _)]
  exact isGroup_of_size_le_one (by rw [size_single])

/-- Where a single card is accepted, so is the joker. -/
theorem accepts_joker {c : Card} (hc : c.isJoker = false) (h : Accepts rule ctx (single c)) :
    Accepts rule ctx (single Card.joker) := by
  by_cases hb : ctx.baLast = ∅
  · exact accepts_lead hb _
  · rw [Accepts, canPut_ok_iff (single_ne_empty _) hb, lead_single] at h
    obtain ⟨-, hbg, hsize, hp⟩ := h
    rw [Accepts, canPut_ok_iff (single_ne_empty _) hb, lead_single, Card.power_joker]
    exact ⟨isGroup_of_size_le_one (by rw [size_single]), hbg,
      by rw [hsize, size_single, size_single], hp.trans (Card.power_lt hc)⟩

theorem windowAt_one {v : List Card} {i : Nat} {c : Card} (hc : v[i]? = some c) :
    windowAt v i 1 = single c := by
  obtain ⟨hi, rfl⟩ := List.getElem?_eq_some_iff.mp hc
  rw [windowAt, List.drop_eq_getElem_cons hi]
  rfl

/-- Against a single card or none, the player answers with the first card that is accepted. -/
theorem think_single (z : SizeT) (hcount : playCount ctx = 1)
    (hother : ∃ c ∈ ctx.deck, Accepts rule ctx (single c)) :
    ∃ j c rule', think z rule ctx = .ok (single c, rule') ∧ (inOrder ctx)[j]? = some c ∧
      ∀ (i : Nat) d, (inOrder ctx)[i]? = some d → Accepts rule ctx (single d) → j ≤ i := by
  have hlen := length_inOrder ctx
  obtain ⟨hand, rule', hrun, hfirst⟩ := tryWindows_first (v := inOrder ctx) (n := 1) ctx
    ctx.deck.size 0 rule (by omega)
  have hthink : think z rule ctx = .ok (hand, rule') := by
    rw [think_eq z rule (by omega), hcount, Nat.add_sub_cancel]
    exact hrun
  obtain ⟨c, hc, hacc⟩ := hother
  obtain ⟨i, hi⟩ := List.mem_iff_getElem?.mp (mem_inOrder.mpr hc)
  have hilen := (List.getElem?_eq_some_iff.mp hi).1
  obtain ⟨j, -, hjlt, rfl, -, hbefore⟩ := hfirst.resolve_left fun ⟨_, hno⟩ =>
    hno i (Nat.zero_le _) (by omega) (by rw [windowAt_one hi]; exact hacc)
  have hget : (inOrder ctx)[j]? = some (inOrder ctx)[j] := List.getElem?_eq_getElem (by omega)
  rw [windowAt_one hget] at hthink
  refine ⟨j, _, rule', hthink, hget, fun i d hi hd => not_lt.mp fun hij => ?_⟩
  exact hbefore i (Nat.zero_le _) hij (by rw [windowAt_one hi]; exact hd)

/-- With no play on the table, or with a single card, a play has one card. -/
theorem playCount_eq_one (h : ctx.ba = [] ∨ ctx.baLast.size = 1) : playCount ctx = 1 := by
  rcases h with h | h
  · simp [playCount, h]
  · unfold DaifugoContext.baLast at h
    unfold playCount
    cases hl : ctx.ba.getLast? with
    | none => rfl
    | some s => rw [hl] at h; exact h

/-- No card has a larger id than the joker. -/
theorem not_joker_lt (c : Card) : ¬ Card.joker < c := by
  have := c.getId_lt
  rw [Card.lt_iff, show Card.joker.getId = 52 from rfl]
  omega

/-- **Keeping the joker.** The deck has the joker and another card that is accepted alone. The
player keeps the joker exactly if there is no revolution. -/
theorem joker_kept_iff (z : SizeT) (rule : DaifugoRule) (ctx : DaifugoContext)
    (hj : Card.joker ∈ ctx.deck) (hba : ctx.ba = [] ∨ ctx.baLast.size = 1)
    (hother : ∃ c ∈ ctx.deck, c.isJoker = false ∧ Accepts rule ctx (single c)) :
    (∀ hand rule', think z rule ctx = .ok (hand, rule') → hand ≠ single Card.joker) ↔
      ctx.isKakumei = false := by
  obtain ⟨c, hc, hcj, hacc⟩ := hother
  obtain ⟨j, d, rule', hthink, hd, hfirst⟩ := think_single z (playCount_eq_one hba) ⟨c, hc, hacc⟩
  have hiff : (∀ hand rule', think z rule ctx = .ok (hand, rule') → hand ≠ single Card.joker) ↔
      d ≠ Card.joker := by
    constructor
    · rintro h rfl
      exact h _ _ hthink rfl
    · rintro h hand rule'' hrun rfl
      rw [hthink] at hrun
      have heq : single d = single Card.joker := congrArg Prod.fst (Except.ok.inj hrun)
      exact h (by rw [← lead_single d, heq, lead_single])
  rw [hiff]
  cases hk : ctx.isKakumei with
  | false =>
    -- The joker comes after the other card.
    refine iff_of_true ?_ rfl
    rintro rfl
    obtain ⟨i, hi⟩ := List.mem_iff_getElem?.mp (mem_inOrder.mpr hc)
    rcases getElem?_inOrder_le hd hi (hfirst i c hi hacc) with rfl | hlt
    · cases hcj
    · exact not_joker_lt c (by simpa [hk] using hlt)
  | true =>
    -- The joker comes first, and where the other card is accepted, so is the joker.
    refine iff_of_false (not_not_intro ?_) (by simp)
    obtain ⟨i, hi⟩ := List.mem_iff_getElem?.mp (mem_inOrder.mpr hj)
    refine (getElem?_inOrder_le hd hi (hfirst i _ hi (accepts_joker hcj hacc))).resolve_right ?_
    simpa [hk] using not_joker_lt d

theorem joker_kept_iff_three_and_joker :
    Card.joker ∈ ofVector [⟨0⟩, ⟨52⟩] ∧
    ((∀ hand rule', think .bits64 ⟨.A, false⟩ ⟨ofVector [⟨0⟩, ⟨52⟩], 0, [], ∅, false, []⟩ =
        .ok (hand, rule') → hand ≠ single Card.joker) ↔ false = false) :=
  ⟨by decide, joker_kept_iff .bits64 ⟨.A, false⟩
    ⟨ofVector [⟨0⟩, ⟨52⟩], 0, [], ∅, false, []⟩ (by decide) (.inl rfl)
    ⟨⟨0⟩, by decide, by decide, accepts_lead rfl _⟩⟩

/-- A three and the joker under the revolution, with no card on the table: the three is accepted,
and the player leads with the joker. -/
theorem joker_first_under_revolution :
    Accepts ⟨.A, false⟩ ⟨ofVector [⟨0⟩, ⟨52⟩], 0, [], ∅, true, []⟩ (single ⟨0⟩) ∧
    ¬ ∀ hand rule', think .bits64 ⟨.A, false⟩ ⟨ofVector [⟨0⟩, ⟨52⟩], 0, [], ∅, true, []⟩ =
        .ok (hand, rule') → hand ≠ single Card.joker := by
  have hrun : think .bits64 ⟨.A, false⟩ ⟨ofVector [⟨0⟩, ⟨52⟩], 0, [], ∅, true, []⟩ =
      .ok (single Card.joker, ⟨.A, true⟩) := by decide +kernel
  exact ⟨accepts_lead rfl _, fun hall => hall _ _ hrun rfl⟩

end

end PoorPlayer

end Neof5
