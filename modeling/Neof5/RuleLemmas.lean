import Neof5.CardViews

/-!
# What the rules decide

`canPut_eq`: on every two sets `canPut` returns, without a fault, the verdict `putResult`, which
is stated over the members of the sets.

* `IsGroup s`: the cards of `s` other than the joker have one rank.
* `lead s`: the least card of `s`. It is the joker only if `s` is the lone joker, so it is the
  card that `_tryGetFirstCard` finds (`tryGetFirstCard_eq`).
* `power k c`: the strength of a card under the revolution flag `k`; the joker is on top in both
  orders. `compareCards` compares the powers (`compareCards_pos_iff`).

Both classes have the same verdict: `_isKaidan` accepts no set (`isKaidanCards_eq`). It wants
neighbours to be one apart as card indices, but equal suits lie four apart.
-/

namespace Neof5

@[simp] theorem except_ok_bind {α β : Type} (a : α) (f : α → Except Fault β) :
    ((.ok a : Except Fault α) >>= f) = f a := rfl

@[simp] theorem except_pure_bind {α β : Type} (a : α) (f : α → Except Fault β) :
    ((pure a : Except Fault α) >>= f) = f a := rfl

@[simp] theorem except_pure {α : Type} (a : α) : (pure a : Except Fault α) = .ok a := rfl

/-- What a computation returned, from a part of it. -/
theorem map_ok {ε α β : Type} {x : Except ε α} {f : α → β} {b : β} (h : x.map f = .ok b) :
    ∃ a, x = .ok a ∧ f a = b := by
  cases x with
  | error e => cases h
  | ok a => exact ⟨a, rfl, Except.ok.inj h⟩

/-- A computation that returned passed through its first step. -/
theorem bind_ok {ε α β : Type} {x : Except ε α} {f : α → Except ε β} {b : β}
    (h : (x >>= f) = .ok b) : ∃ a, x = .ok a ∧ f a = .ok b := by
  cases x with
  | error e => cases h
  | ok a => exact ⟨a, rfl, h⟩

namespace CardSet

/-- The cards of `s` other than the joker have one rank. -/
def IsGroup (s : CardSet) : Prop :=
  ∀ c ∈ s, ∀ d ∈ s, c.isJoker = false → d.isJoker = false → c.rank = d.rank

instance (s : CardSet) : Decidable s.IsGroup := inferInstanceAs (Decidable (∀ _, _))

/-- The least card of a set (the joker for the empty set). -/
def lead (s : CardSet) : Card := s.cards.head?.getD Card.joker

theorem IsGroup.subset {s t : CardSet} (h : t.IsGroup) (hs : s ⊆ t) : s.IsGroup :=
  fun c hc d hd => h c (subset_iff.mp hs c hc) d (subset_iff.mp hs d hd)

theorem lead_eq {s : CardSet} (h : s ≠ ∅) :
    s.at 0 = .ok s.lead ∧ s.lead ∈ s ∧ ∀ d ∈ s, s.lead.getId ≤ d.getId := by
  obtain ⟨c, hat, hc, hm, hle⟩ := at_zero h
  have : s.lead = c := by simp [lead, hc]
  rw [this]; exact ⟨hat, hm, hle⟩

/-- Only the lone joker is led by the joker. -/
theorem lead_joker {s : CardSet} (h : s ≠ ∅) (hj : s.lead.isJoker = true) :
    ∀ c ∈ s, c = Card.joker := by
  intro c hc
  have hle := (lead_eq h).2.2 c hc
  rw [Card.isJoker_iff_eq.mp hj] at hle
  ext
  have := c.getId_lt
  show c.getId = 52
  have : Card.joker.getId = 52 := rfl
  omega

theorem lead_not_joker {s : CardSet} (hs : 2 ≤ s.size) : s.lead.isJoker = false := by
  have hne : s ≠ ∅ := by rintro rfl; simp at hs
  by_contra hj
  rw [Bool.not_eq_false] at hj
  have hall := lead_joker hne hj
  have hsub : s ⊆ (∅ : CardSet).addCard Card.joker :=
    subset_iff.mpr fun c hc => by simp [hall c hc]
  have := size_le_of_subset hsub
  rw [size_addCard (by simp), size_empty] at this
  omega

/-- A set of one card is a group. -/
theorem isGroup_of_size_le_one {s : CardSet} (h : s.size ≤ 1) : s.IsGroup := by
  intro c hc d hd _ _
  rw [size_eq_card, Finset.card_le_one] at h
  rw [h c (by simpa using hc) d (by simpa using hd)]

end CardSet

namespace Card

/-- The strength of a card under the revolution flag: the joker is on top in both orders. -/
def power (k : Bool) (c : Card) : Nat :=
  if c.isJoker then 13 else if k then 12 - c.rank else c.rank

theorem power_le (k : Bool) (c : Card) : c.power k ≤ 13 := by
  have := c.rank_le
  unfold power; split <;> [skip; split] <;> omega

@[simp] theorem power_joker (k : Bool) : joker.power k = 13 := rfl

theorem power_lt {k : Bool} {c : Card} (h : c.isJoker = false) : c.power k < 13 := by
  have := rank_lt h
  simp only [power, h, Bool.false_eq_true, ↓reduceIte]
  split <;> omega

theorem power_eq_of_rank {k : Bool} {a b : Card} (ha : a.isJoker = false) (hb : b.isJoker = false)
    (h : a.rank = b.rank) : a.power k = b.power k := by
  simp [power, ha, hb, h]

/-- Below the joker, the power orders the cards by rank, the other way under the revolution. -/
theorem power_lt_iff {k : Bool} {a b : Card} (ha : a.isJoker = false) (hb : b.isJoker = false) :
    a.power k < b.power k ↔ if k then b.rank < a.rank else a.rank < b.rank := by
  have := rank_lt ha
  have := rank_lt hb
  cases k <;> simp only [power, ha, hb, Bool.false_eq_true, ↓reduceIte]
  omega

/-- The revolution turns the order of the cards below the joker around. -/
theorem power_lt_not_iff {k : Bool} {a b : Card} (ha : a.isJoker = false)
    (hb : b.isJoker = false) : a.power k < b.power k ↔ b.power (!k) < a.power (!k) := by
  rw [power_lt_iff ha hb, power_lt_iff hb ha]
  cases k <;> simp

end Card

/-! ## Class A -/

/-- `compareCards a b` is positive exactly when `b` is the stronger card. -/
theorem compareCards_pos_iff {r : DaifugoRule} {a b : Card} :
    0 < r.compareCards a b ↔ a.power r.isKakumei < b.power r.isKakumei := by
  unfold DaifugoRule.compareCards
  by_cases hn : a.getNum = b.getNum
  · have hr := Card.getNum_eq_iff.mp hn
    have hj : a.isJoker = b.isJoker := by
      rw [Bool.eq_iff_iff, Card.isJoker_iff, Card.isJoker_iff, hr]
    simp [hn, Card.power, hr, hj]
  · have hr : a.rank ≠ b.rank := fun e => hn (Card.getNum_eq_iff.mpr e)
    simp only [hn, ↓reduceIte]
    cases ha : a.isJoker with
    | true =>
      have := b.power_le r.isKakumei
      simp [Card.power, ha]
      unfold Card.power at this
      omega
    | false =>
      cases hb : b.isJoker with
      | true =>
        have := Card.power_lt (k := r.isKakumei) ha
        have hb' : b.power r.isKakumei = 13 := by simp [Card.power, hb]
        simp only [Bool.false_eq_true, ↓reduceIte]; omega
      | false =>
        have h1 := Card.rank_lt ha
        have h2 := Card.rank_lt hb
        have hlt : b < a ↔ b.rank < a.rank := by
          rw [Card.lt_iff]
          constructor
          · intro h
            have := Card.rank_le_of_id_le (Nat.le_of_lt h)
            omega
          · intro h; exact Card.lt_iff.mp (Card.lt_of_rank_lt h)
        simp only [Bool.false_eq_true, ↓reduceIte, hlt, Card.power, ha, hb]
        cases r.isKakumei <;> simp only [Bool.false_eq_true, ↓reduceIte] <;> split <;> omega

/-- The scan of `_tryGetFirstCard` over the members themselves. -/
private def scanBody (c : Card) (check : Option Card) : Except Fault (Option Card × Option Unit) :=
  if c.isJoker then pure (check, none)
  else
    match check with
    | none => pure (some c, none)
    | some d => if d.getNum ≠ c.getNum then pure (check, some ()) else pure (check, none)

private theorem scan_eq (s : CardSet) :
    Loop.forEach (tryGetFirstCardBody s) (List.range s.size) none =
      Loop.forEach scanBody s.cards none := by
  rw [s.size_eq]
  apply Loop.forEach_range
  intro i c check hi
  have : s.at i = .ok c := by rw [s.at_eq]; simp [hi]
  simp only [tryGetFirstCardBody, this, except_ok_bind]
  rfl

/-- The invariant of the scan over the cards done: `check` is their first card that is not a joker,
and the others have its rank. -/
private structure ScanInv (s : CardSet) (done : List Card) (check : Option Card) : Prop where
  check_eq : check = (done.filter (!·.isJoker)).head?
  mem : ∀ c ∈ done, c ∈ s
  same : ∀ d, check = some d → ∀ c ∈ done, c.isJoker = false → d.rank = c.rank

/-- One card of the scan. -/
private theorem scanBody_spec {s : CardSet} {done : List Card} {c : Card} {check : Option Card}
    (hcs : c ∈ s) (h : ScanInv s done check) :
    ∃ out, scanBody c check = .ok out ∧
      Loop.Ends (ScanInv s (done ++ [c])) (fun _ _ => ¬ s.IsGroup) out := by
  have hin : ∀ d ∈ done ++ [c], d ∈ s := by
    intro d hd
    rcases List.mem_append.mp hd with hd | hd
    · exact h.mem d hd
    · rw [List.mem_singleton.mp hd]; exact hcs
  unfold scanBody
  by_cases hj : c.isJoker = true
  · refine ⟨_, by simp only [hj, ↓reduceIte]; rfl, ?_⟩
    refine ⟨by simp [h.check_eq, hj], hin, fun d hd e he hej => ?_⟩
    rcases List.mem_append.mp he with he | he
    · exact h.same d hd e he hej
    · rw [List.mem_singleton.mp he, hj] at hej; cases hej
  · rw [Bool.not_eq_true] at hj
    simp only [hj, Bool.false_eq_true, ↓reduceIte]
    cases check with
    | none =>
      have hnone : done.filter (!·.isJoker) = [] := List.head?_eq_none_iff.mp h.check_eq.symm
      refine ⟨_, rfl, by simp [List.filter_append, hnone, hj], hin, fun d hd e he hej => ?_⟩
      cases hd
      have hno : ∀ x ∈ done, x.isJoker = true := by simpa using List.filter_eq_nil_iff.mp hnone
      rcases List.mem_append.mp he with he | he
      · rw [hno e he] at hej; cases hej
      · rw [List.mem_singleton.mp he]
    | some d =>
      have hd : d ∈ done ∧ d.isJoker = false := by
        have := List.mem_of_mem_head? h.check_eq.symm
        simpa using List.mem_filter.mp this
      by_cases hn : d.getNum = c.getNum
      · refine ⟨(some d, none), by simp [hn], ?_, hin, fun x hx e he hej => ?_⟩
        · rw [List.filter_append, List.head?_append, ← h.check_eq]; rfl
        · cases hx
          rcases List.mem_append.mp he with he | he
          · exact h.same d rfl e he hej
          · rw [List.mem_singleton.mp he]; exact Card.getNum_eq_iff.mp hn
      · refine ⟨(some d, some ()), by simp [hn], ?_⟩
        intro hg
        exact hn (Card.getNum_eq_iff.mpr (hg d (h.mem d hd.1) c hcs hd.2 hj))

/-- A scan that got through has seen a group. -/
private theorem ScanInv.isGroup {s : CardSet} {check : Option Card}
    (h : ScanInv s s.cards check) : s.IsGroup := by
  intro c hc d hd hcj hdj
  obtain ⟨x, hx⟩ : ∃ x, check = some x := by
    rw [h.check_eq, ← Option.isSome_iff_exists, List.isSome_head?]
    exact List.ne_nil_of_mem (List.mem_filter.mpr ⟨CardSet.mem_cards.mpr hc, by simp [hcj]⟩)
  rw [← h.same x hx c (CardSet.mem_cards.mpr hc) hcj,
    ← h.same x hx d (CardSet.mem_cards.mpr hd) hdj]

/-- The scan ends with the first card that is not a joker, if the others agree with it. -/
private theorem scan_spec (s : CardSet) :
    ∃ out, Loop.forEach scanBody s.cards none = .ok out ∧
      Loop.Ends (fun check => check = (s.cards.filter (!·.isJoker)).head? ∧ s.IsGroup)
        (fun _ _ => ¬ s.IsGroup) out := by
  obtain ⟨⟨check, stop⟩, hout, hend⟩ := Loop.forEach_total (f := scanBody) (l := s.cards)
    (I := ScanInv s) (Q := fun _ _ => ¬ s.IsGroup)
    (fun done c rest check hxs h =>
      scanBody_spec (CardSet.mem_cards.mp (by rw [hxs]; simp)) h)
    (s := none) ⟨by simp, by simp, by simp⟩
  refine ⟨_, hout, ?_⟩
  cases stop with
  | some u => exact hend
  | none => exact ⟨hend.check_eq, hend.isGroup⟩

/-- `_tryGetFirstCard` finds the least card of a group. -/
theorem tryGetFirstCard_eq {s : CardSet} (h : s ≠ ∅) :
    tryGetFirstCard s = .ok (if s.IsGroup then some (some s.lead) else none) := by
  have hpos := CardSet.size_pos.mpr h
  have hlead := CardSet.lead_eq h
  unfold tryGetFirstCard
  split
  · omega
  · rename_i h1
    simp [hlead.1, CardSet.isGroup_of_size_le_one (Nat.le_of_eq h1)]
  · rename_i h0 h1
    have h2 : 2 ≤ s.size := by
      have : s.size ≠ 1 := h1
      omega
    rw [scan_eq]
    obtain ⟨⟨check, stop⟩, hout, he⟩ := scan_spec s
    rw [hout]
    cases stop with
    | some u => simp only [Loop.ends_some] at he; simp [he]
    | none =>
      simp only [Loop.ends_none] at he
      -- The joker is the last card, so the first card is the first one that is no joker.
      have hhead : (s.cards.filter (!·.isJoker)).head? = some s.lead := by
        obtain ⟨c, t, hc⟩ := List.exists_cons_of_ne_nil
          (fun e => h (CardSet.cards_eq_nil_iff.mp e))
        have hlc : s.lead = c := by simp [CardSet.lead, hc]
        have hj := CardSet.lead_not_joker h2
        rw [hlc] at hj ⊢
        simp [hc, hj]
      simp [he.1, he.2, hhead]

/-- The verdict of `canPut`. -/
def putResult (k : Bool) (cards ba : CardSet) : ChkResult :=
  if cards = ∅ then .ok
  else if ¬ cards.IsGroup then .errDifferentNum
  else if ba = ∅ then .ok
  else if ba.size ≠ cards.size then .errCountUnmatch
  else if ¬ ba.IsGroup then .errInvalidBa
  else if ba.lead.power k < cards.lead.power k then .ok
  else .errNotStrong

theorem canPutA_eq (r : DaifugoRule) (cards ba : CardSet) :
    r.canPutA cards ba = .ok (putResult r.isKakumei cards ba) := by
  unfold DaifugoRule.canPutA putResult
  by_cases hc : cards = ∅
  · simp [hc]
  have hce : cards.empty = false := CardSet.empty_eq_false_iff.mpr hc
  simp only [hce, tryGetFirstCard_eq hc, hc]
  by_cases hg : cards.IsGroup
  · by_cases hb : ba = ∅
    · simp [hg, hb]
    have hbe : ba.empty = false := CardSet.empty_eq_false_iff.mpr hb
    by_cases hs : ba.size = cards.size
    · by_cases hbg : ba.IsGroup
      · have := compareCards_pos_iff (r := r) (a := ba.lead) (b := cards.lead)
        by_cases hlt : ba.lead.power r.isKakumei < cards.lead.power r.isKakumei
        · have hcmp : ¬ r.compareCards ba.lead cards.lead ≤ 0 := by
            have := this.mpr hlt; omega
          simp [hg, hb, hbe, hs, hbg, tryGetFirstCard_eq hb, hlt, hcmp]
        · have hcmp : r.compareCards ba.lead cards.lead ≤ 0 := by
            by_contra h; exact hlt (this.mp (by omega))
          simp [hg, hb, hbe, hs, hbg, tryGetFirstCard_eq hb, hlt, hcmp]
      · simp [hg, hb, hbe, hs, hbg, tryGetFirstCard_eq hb]
    · simp [hg, hb, hbe, hs]
  · simp [hg]

/-! ## Sequences and class B -/

theorem extractJoker_eq (s : CardSet) :
    s.extractJoker = .ok (if Card.joker ∈ s then (1, s.subCard Card.joker) else (0, s)) := by
  have h : (s.has Card.joker = true) ↔ Card.joker ∈ s := Iff.rfl
  simp only [CardSet.extractJoker, Card.get_joker, except_ok_bind]
  by_cases hj : Card.joker ∈ s
  · simp [hj, h.mpr hj]
  · simp [hj, Bool.eq_false_iff.mpr fun e => hj (h.mp e)]

/-- Taking the joker out leaves the other cards, at most one card less. -/
theorem extractJoker_spec (s : CardSet) :
    ∃ n t, s.extractJoker = .ok (n, t) ∧ n ≤ 1 ∧ s.size ≤ t.size + 1 ∧
      ∀ c, c ∈ t ↔ c ∈ s ∧ c.isJoker = false := by
  have hno : ∀ c : Card, c.isJoker = false ↔ c ≠ Card.joker := fun c => by
    rw [← Bool.not_eq_true, Card.isJoker_iff_eq]
  rw [extractJoker_eq]
  by_cases hj : Card.joker ∈ s
  · refine ⟨1, s.subCard Card.joker, by simp [hj], Nat.le_refl _, ?_, fun c => by simp [hno]⟩
    rw [CardSet.size_subCard hj]
  · refine ⟨0, s, by simp [hj], by omega, by omega, fun c => ?_⟩
    rw [hno]
    exact ⟨fun hc => ⟨hc, fun e => hj (e ▸ hc)⟩, And.left⟩

/-- Cards of one suit lie a multiple of four apart in the table. -/
private theorem suit_mod : ∀ c : Card, c.isJoker = false →
    c.getSuit = if c.getId % 4 = 0 then .CLV else if c.getId % 4 = 1 then .DIA
      else if c.getId % 4 = 2 then .HRT else .SPD := by decide

private theorem id_gap {a b : Card} (ha : a.isJoker = false) (hb : b.isJoker = false)
    (hs : a.getSuit = b.getSuit) (hlt : a < b) : a.getId + 4 ≤ b.getId := by
  rw [suit_mod a ha, suit_mod b hb] at hs
  rw [Card.lt_iff] at hlt
  have : a.getId % 4 = b.getId % 4 := by
    have h1 := Nat.mod_lt a.getId (show 0 < 4 by decide)
    have h2 := Nat.mod_lt b.getId (show 0 < 4 by decide)
    split_ifs at hs <;> omega
  omega

/-- The loop over the suits reads only cards of the vector. -/
private theorem sameSuit_total (first : Card) {v : List Card} {l : List Nat}
    (hl : ∀ i ∈ l, i < v.length) :
    ∃ u stop, Loop.forEach (sameSuitBody first v) l () = .ok (u, stop) := by
  obtain ⟨⟨u, stop⟩, hout, -⟩ := Loop.forEach_total' (f := sameSuitBody first v) (l := l)
    (I := fun _ => True) (Q := fun _ _ => True) (fun i s hi _ => by
      unfold sameSuitBody vectorAt
      rw [List.getElem?_eq_getElem (hl i hi)]
      simp only [except_ok_bind]
      split <;> exact ⟨_, rfl, trivial⟩) (s := ()) trivial
  exact ⟨u, stop, hout⟩

/-- One joker does not fill the gap between two cards of one suit. -/
private theorem kaidanBody_gap {n : Nat} {a b : Card} {rest : List Card} (hn : n ≤ 1)
    (hgap : a.getId + 4 ≤ b.getId) :
    kaidanBody n (a :: b :: rest) 0 0 = .ok (0, some ()) := by
  have hcmp : ¬ b.compareTo a - 1 = 0 ∧ ¬ b.compareTo a - 1 ≤ (n : Int) - 0 := by
    unfold Card.compareTo Card.compare
    omega
  simp only [kaidanBody, vectorAt, Nat.zero_add, List.getElem?_cons_succ, List.getElem?_cons_zero,
    except_ok_bind, hcmp.1, hcmp.2, ↓reduceIte]
  rfl

/-- `_isKaidan` accepts no set: two neighbours of one suit are at least four apart, which one
joker cannot fill. -/
theorem isKaidanCards_eq (cards : CardSet) : isKaidanCards cards = .ok none := by
  unfold isKaidanCards
  by_cases h3 : cards.size < 3
  · simp [h3]
  obtain ⟨n, t, hx, hn, hsz, ht⟩ := extractJoker_spec cards
  obtain ⟨a, b, rest, hl⟩ : ∃ a b rest, t.cards = a :: b :: rest := by
    have h2 : 2 ≤ t.cards.length := by rw [← t.size_eq]; omega
    match h : t.cards with
    | [] | [_] => rw [h] at h2; simp at h2
    | a :: b :: rest => exact ⟨a, b, rest, rfl⟩
  have hsort : sortCards (a :: b :: rest) = a :: b :: rest := by rw [← hl, t.sortCards_cards]
  have hab : a < b := by
    have := t.cards_sorted; rw [hl, List.pairwise_cons] at this
    exact this.1 b (List.mem_cons_self ..)
  have hj : ∀ c ∈ t.cards, c.isJoker = false := fun c hc =>
    ((ht c).mp (CardSet.mem_cards.mp hc)).2
  simp only [h3, ↓reduceIte, hx, except_ok_bind, t.conv2Vector_eq, hl, hsort]
  simp only [vectorAt, List.getElem?_cons_zero, except_ok_bind, List.length_cons,
    Nat.add_sub_cancel, List.range'_succ, List.range_succ_eq_map, Loop.forEach, sameSuitBody,
    List.getElem?_cons_succ, except_pure]
  by_cases hs : a.getSuit = b.getSuit
  · have hgap := id_gap (hj a (by simp [hl])) (hj b (by simp [hl])) hs hab
    -- The other suits do not matter: if they agree too, the first two neighbours fail.
    obtain ⟨u, stop, hout⟩ := sameSuit_total a (v := a :: b :: rest)
      (l := List.range' (1 + 1) rest.length) (by
        intro i hi
        simp only [List.mem_range'_1] at hi
        simp only [List.length_cons]
        omega)
    simp only [hs, ne_eq, not_true_eq_false, ↓reduceIte, hout, except_ok_bind]
    cases stop with
    | some v => rfl
    | none => simp [kaidanBody_gap hn hgap]
  · simp [hs]

/-- Both classes have the verdict of class A. -/
theorem canPut_eq (r : DaifugoRule) (cards ba : CardSet) :
    r.canPut cards ba = .ok (putResult r.isKakumei cards ba) := by
  unfold DaifugoRule.canPut
  cases r.cls with
  | A => exact canPutA_eq r cards ba
  | B =>
    simp only [DaifugoRule.canPutB, canPutA_eq, isKaidanCards_eq, except_ok_bind]
    split
    · rfl
    · split <;> rfl

/-- A play that is not a pass, against an empty table: every group is accepted. -/
theorem canPut_empty_ok_iff {r : DaifugoRule} {cards : CardSet} (h : cards ≠ ∅) :
    r.canPut cards ∅ = .ok .ok ↔ cards.IsGroup := by
  rw [canPut_eq]
  by_cases hg : cards.IsGroup <;> simp [putResult, h, hg]

/-- A play that is not a pass, against cards on the table. -/
theorem canPut_ok_iff {r : DaifugoRule} {cards ba : CardSet} (h : cards ≠ ∅) (hb : ba ≠ ∅) :
    r.canPut cards ba = .ok .ok ↔ cards.IsGroup ∧ ba.IsGroup ∧ ba.size = cards.size ∧
      ba.lead.power r.isKakumei < cards.lead.power r.isKakumei := by
  rw [canPut_eq]
  simp only [putResult, h, hb, ↓reduceIte, Except.ok.injEq]
  split_ifs <;> simp_all

/-- An accepted play that is not a pass is a group. -/
theorem isGroup_of_canPut {r : DaifugoRule} {cards ba : CardSet}
    (hok : r.canPut cards ba = .ok .ok) (h : cards ≠ ∅) : cards.IsGroup := by
  by_cases hb : ba = ∅
  · subst hb; exact (canPut_empty_ok_iff h).mp hok
  · exact ((canPut_ok_iff h hb).mp hok).1

theorem canAgari_total (r : DaifugoRule) (cards : CardSet) : ∃ c, r.canAgari cards = .ok c := by
  unfold DaifugoRule.canAgari
  cases r.cls with
  | A => exact ⟨_, rfl⟩
  | B =>
    obtain ⟨n, t, hx, -⟩ := extractJoker_spec cards
    simp only [hx, except_ok_bind]
    by_cases h1 : t.empty = true
    · exact ⟨.errJokerAgari, by simp [h1]⟩
    · by_cases h2 : t.hasNumOf (if r.isKakumei then 3 else 2) = true
      · exact ⟨.err2Agari, by simp [h1, h2]⟩
      · exact ⟨.ok, by simp [h1, h2]⟩

end Neof5
