import Neof5.Picojson
import Neof5.RuleLemmas

/-!
# What the JSON parser reads

* `parseValue_append`: text behind a value does not change what is read, except behind a number,
  which ends only where another character follows. So no part of an object text is an object text
  (`parseText_append`).
* `parseValue_length`, `parseValue_fuel`: every value takes some of the input, so the levels and
  rounds of `parseText` are enough.
* `parseText_serialize_pair`: the objects that the client sends are read back as they were.
-/

namespace Neof5

namespace Picojson

variable {ν : Type} {pf : Platform ν}

/-! ## Characters -/

section Chars

variable {s r t : Bytes} {c ch : UInt8} {n m : Nat}

theorem skipWs_append (h : skipWs s = c :: r) : skipWs (s ++ t) = c :: (r ++ t) := by
  unfold skipWs at *
  rw [List.dropWhile_append, h]
  simp

theorem length_skipWs_le (s : Bytes) : (skipWs s).length ≤ s.length :=
  (List.dropWhile_suffix _).length_le

theorem expect_eq_some : expect ch s = some r ↔ skipWs s = ch :: r := by
  unfold expect
  split
  · rename_i c r' h
    rw [h]
    by_cases hc : c = ch <;> simp [hc]
  · rename_i h
    simp [h]

theorem expect_append (h : expect ch s = some r) : expect ch (s ++ t) = some (r ++ t) :=
  expect_eq_some.mpr (skipWs_append (expect_eq_some.mp h))

/-- An input that starts with another character is still refused when more follows. -/
theorem expect_append_none (h : expect ch s = none) (hs : skipWs s ≠ []) :
    expect ch (s ++ t) = none := by
  obtain ⟨c, r, hc⟩ := List.exists_cons_of_ne_nil hs
  have hne : c ≠ ch := by
    rintro rfl
    rw [expect_eq_some.mpr hc] at h
    cases h
  simp [expect, skipWs_append hc, hne]

theorem expect_length (h : expect ch s = some r) : r.length < s.length := by
  have := length_skipWs_le s
  rw [expect_eq_some.mp h, List.length_cons] at this
  omega

theorem matchText_append {p : Bytes} (h : matchText p s = some r) :
    matchText p (s ++ t) = some (r ++ t) := by
  induction p generalizing s with
  | nil => cases h; rfl
  | cons a p ih =>
    match s with
    | [] => cases h
    | c :: s =>
      rw [matchText] at h
      rw [List.cons_append, matchText]
      split at h
      · rename_i hc
        rw [if_pos hc]
        exact ih h
      · cases h

theorem matchText_length {p : Bytes} (h : matchText p s = some r) : r.length ≤ s.length := by
  induction p generalizing s with
  | nil => cases h; exact Nat.le_refl _
  | cons a p ih =>
    match s with
    | [] => cases h
    | c :: s =>
      rw [matchText] at h
      split at h
      · exact (ih h).trans (Nat.le_succ _)
      · cases h

end Chars

/-! ## Strings -/

section Strings

variable {s r t : Bytes} {u : Nat} {n m : Nat}

/-- A hexadecimal number takes four characters. -/
theorem parseQuadhex_eq_some (h : parseQuadhex s = some (u, r)) :
    ∃ a b c d, s = a :: b :: c :: d :: r ∧ ∀ t, parseQuadhex (s ++ t) = some (u, r ++ t) := by
  match s with
  | a :: b :: c :: d :: r' =>
    simp only [parseQuadhex, Option.bind_eq_bind, Option.bind_eq_some_iff, Option.pure_def,
      Option.some.injEq, Prod.mk.injEq] at h
    obtain ⟨a', ha, b', hb, c', hc, d', hd, rfl, rfl⟩ := h
    refine ⟨a, b, c, d, rfl, fun t => ?_⟩
    simp [parseQuadhex, ha, hb, hc, hd]
  | [] | [_] | [_, _] | [_, _, _] => cases h

theorem parseCodepoint_append {x : Bytes} (h : parseCodepoint s = some (x, r)) :
    parseCodepoint (s ++ t) = some (x, r ++ t) := by
  simp only [parseCodepoint, Option.bind_eq_bind, Option.bind_eq_some_iff, Prod.exists] at h ⊢
  obtain ⟨u, r₁, hu, h⟩ := h
  obtain ⟨-, -, -, -, -, hu'⟩ := parseQuadhex_eq_some hu
  refine ⟨u, r₁ ++ t, hu' t, ?_⟩
  split at h
  · rename_i hsur
    rw [if_pos hsur]
    split at h
    · cases h
    · rename_i hlow
      rw [if_neg hlow]
      simp only [Option.bind_eq_some_iff, Prod.exists] at h ⊢
      obtain ⟨r₂, hm, w, r₃, hw, h⟩ := h
      obtain ⟨-, -, -, -, -, hw'⟩ := parseQuadhex_eq_some hw
      refine ⟨r₂ ++ t, matchText_append hm, w, r₃ ++ t, hw' t, ?_⟩
      split at h
      · rename_i hw
        rw [if_pos hw]
        simp only [Option.pure_def, Option.some.injEq, Prod.mk.injEq] at h ⊢
        exact ⟨h.1, by rw [h.2]⟩
      · cases h
  · rename_i hsur
    rw [if_neg hsur]
    simp only [Option.pure_def, Option.some.injEq, Prod.mk.injEq] at h ⊢
    exact ⟨h.1, by rw [h.2]⟩

theorem parseCodepoint_length {x : Bytes} (h : parseCodepoint s = some (x, r)) :
    r.length < s.length := by
  simp only [parseCodepoint, Option.bind_eq_bind, Option.bind_eq_some_iff, Prod.exists] at h
  obtain ⟨u, r₁, hu, h⟩ := h
  obtain ⟨a, b, c, d, rfl, -⟩ := parseQuadhex_eq_some hu
  simp only [List.length_cons]
  split at h
  · split at h
    · cases h
    · simp only [Option.bind_eq_some_iff, Prod.exists] at h
      obtain ⟨r₂, hm, w, r₃, hw, h⟩ := h
      obtain ⟨a', b', c', d', rfl, -⟩ := parseQuadhex_eq_some hw
      have := matchText_length hm
      simp only [List.length_cons] at this
      split at h
      · simp only [Option.pure_def, Option.some.injEq, Prod.mk.injEq] at h
        rw [← h.2]
        omega
      · cases h
  · simp only [Option.pure_def, Option.some.injEq, Prod.mk.injEq] at h
    rw [← h.2]
    omega

theorem stringRound_append {out : Bytes} {x : Bytes ⊕ Bytes}
    (h : stringRound out s = some (x, r)) : stringRound out (s ++ t) = some (x, r ++ t) := by
  match s with
  | [] => cases h
  | ch :: s =>
    rw [stringRound.eq_def] at h ⊢
    simp only [List.cons_append] at h ⊢
    split at h
    · cases h
    · rename_i h₁
      rw [if_neg h₁]
      split at h
      · rename_i h₂
        cases h
        rw [if_pos h₂]
      · rename_i h₂
        rw [if_neg h₂]
        split at h
        · rename_i h₃
          rw [if_pos h₃]
          match s with
          | [] => cases h
          | e :: s =>
            simp only [List.cons_append] at h ⊢
            split at h
            · rename_i h₄
              rw [if_pos h₄]
              obtain ⟨⟨u, r'⟩, hu, he⟩ := Option.map_eq_some_iff.mp h
              cases he
              rw [parseCodepoint_append hu]
              rfl
            · rename_i h₄
              rw [if_neg h₄]
              obtain ⟨c, hc, he⟩ := Option.map_eq_some_iff.mp h
              cases he
              rw [hc]
              rfl
        · rename_i h₃
          cases h
          rw [if_neg h₃]

theorem stringRound_length {out : Bytes} {x : Bytes ⊕ Bytes}
    (h : stringRound out s = some (x, r)) : r.length < s.length := by
  match s with
  | [] => cases h
  | ch :: s =>
    rw [stringRound.eq_def] at h
    simp only at h
    split_ifs at h
    · cases h; simp
    · match s with
      | [] => cases h
      | e :: s =>
        simp only at h
        split_ifs at h
        · obtain ⟨⟨u, r'⟩, hu, he⟩ := Option.map_eq_some_iff.mp h
          cases he
          have := parseCodepoint_length hu
          simp only [List.length_cons]
          omega
        · obtain ⟨c, hc, he⟩ := Option.map_eq_some_iff.mp h
          cases he
          simp
    · cases h; simp

theorem parseString_append {x : Bytes} (h : parseString n s = some (x, r)) (hnm : n ≤ m) :
    parseString m (s ++ t) = some (x, r ++ t) :=
  Scan.iterate_append (f := stringRound) (fun _ _ _ _ => stringRound_append) hnm h

theorem parseString_length {x : Bytes} (h : parseString n s = some (x, r)) :
    r.length < s.length :=
  Scan.iterate_length (fun _ _ _ _ => stringRound_length) h

theorem parseString_fuel (hn : s.length < n) (hm : s.length < m) :
    parseString n s = parseString m s :=
  Scan.iterate_congr (fun _ _ _ _ _ => stringRound_length) (fun _ _ _ => rfl) (Nat.le_refl _) hn hm

end Strings

/-! ## Values -/

section Values

variable {s r t : Bytes} {n m : Nat}

/-- A number ends where a character follows that is not part of it. -/
theorem parseNumber_append {x : ν} (h : parseNumber pf s = some (x, r)) (hr : r ≠ []) :
    parseNumber pf (s ++ t) = some (x, r ++ t) := by
  obtain ⟨y, hy, he⟩ := Option.map_eq_some_iff.mp h
  cases he
  obtain ⟨c, r, hc⟩ := List.exists_cons_of_ne_nil hr
  have htake : (s ++ t).takeWhile isNumberChar = s.takeWhile isNumberChar := by
    rw [List.takeWhile_append, if_neg]
    intro hlen
    have := congrArg List.length (List.takeWhile_append_dropWhile (p := isNumberChar) (l := s))
    rw [List.length_append, hc, List.length_cons] at this
    omega
  have hdrop : (s ++ t).dropWhile isNumberChar = s.dropWhile isNumberChar ++ t := by
    rw [List.dropWhile_append, hc]
    simp
  rw [parseNumber, htake, hdrop, hy]
  rfl

theorem parseNumber_length {x : ν} {c : UInt8} (hc : isNumberChar c = true)
    (h : parseNumber pf (c :: s) = some (x, r)) : r.length ≤ s.length := by
  obtain ⟨y, -, he⟩ := Option.map_eq_some_iff.mp h
  cases he
  rw [List.dropWhile_cons, if_pos hc]
  exact (List.dropWhile_suffix _).length_le

/-- What is asked of the parser of the items: that text behind a value does not matter, as long as
the value is not a number at the end of the text. -/
def ItemsAppend (item item' : Bytes → Option (Json ν × Bytes)) (t : Bytes) : Prop :=
  ∀ s v r, item s = some (v, r) → (r = [] → ∀ x, v ≠ .num x) → item' (s ++ t) = some (v, r ++ t)

/-- The end of a round: a comma, behind which another one follows, or the closing character. -/
def roundEnd {α : Type} (close : UInt8) (a : α) (s : Bytes) : Option ((α ⊕ α) × Bytes) :=
  match expect ','.toUInt8 s with
  | some r => some (.inl a, r)
  | none => (expect close s).bind fun r => some (.inr a, r)

theorem roundEnd_append {α : Type} {close : UInt8} {a : α} {x : α ⊕ α}
    (h : roundEnd close a s = some (x, r)) : roundEnd close a (s ++ t) = some (x, r ++ t) := by
  unfold roundEnd at h ⊢
  split at h
  · rename_i r' hcomma
    cases h
    rw [expect_append hcomma]
  · rename_i hcomma
    obtain ⟨r', hclose, h⟩ := Option.bind_eq_some_iff.mp h
    cases h
    rw [expect_append_none hcomma (by rw [expect_eq_some.mp hclose]; simp), expect_append hclose]
    rfl

theorem roundEnd_length {α : Type} {close : UInt8} {a : α} {x : α ⊕ α}
    (h : roundEnd close a s = some (x, r)) : r.length < s.length := by
  unfold roundEnd at h
  split at h
  · rename_i r' hcomma
    cases h
    exact expect_length hcomma
  · obtain ⟨r', hclose, h⟩ := Option.bind_eq_some_iff.mp h
    cases h
    exact expect_length hclose

/-- A value that a round ends behind is not at the end of the text. -/
theorem ne_nil_of_roundEnd {α : Type} {close : UInt8} {a : α} {x : α ⊕ α}
    (h : roundEnd close a s = some (x, r)) : s ≠ [] :=
  List.ne_nil_of_length_pos (Nat.zero_lt_of_lt (roundEnd_length h))

theorem arrayRound_eq_some {item : Bytes → Option (Json ν × Bytes)} {a : List (Json ν)}
    {x : List (Json ν) ⊕ List (Json ν)} :
    arrayRound item a s = some (x, r) ↔
      ∃ v r₁, item s = some (v, r₁) ∧ roundEnd ']'.toUInt8 (a ++ [v]) r₁ = some (x, r) := by
  simp only [arrayRound, Option.bind_eq_bind, Option.bind_eq_some_iff, Prod.exists]
  rfl

theorem objectRound_eq_some {item : Bytes → Option (Json ν × Bytes)} {o : List (Bytes × Json ν)}
    {x : List (Bytes × Json ν) ⊕ List (Bytes × Json ν)} :
    objectRound item n o s = some (x, r) ↔
      ∃ r₁ key r₂ r₃ v r₄, expect '"'.toUInt8 s = some r₁ ∧ parseString n r₁ = some (key, r₂) ∧
        expect ':'.toUInt8 r₂ = some r₃ ∧ item r₃ = some (v, r₄) ∧
        roundEnd '\x7d'.toUInt8 (Json.set key v o) r₄ = some (x, r) := by
  simp only [objectRound, Option.bind_eq_bind, Option.bind_eq_some_iff, Prod.exists]
  constructor
  · rintro ⟨r₁, hquote, key, r₂, hkey, r₃, hcolon, v, r₄, hv, hend⟩
    exact ⟨r₁, key, r₂, r₃, v, r₄, hquote, hkey, hcolon, hv, hend⟩
  · rintro ⟨r₁, key, r₂, r₃, v, r₄, hquote, hkey, hcolon, hv, hend⟩
    exact ⟨r₁, hquote, key, r₂, hkey, r₃, hcolon, v, r₄, hv, hend⟩

theorem arrayRound_append {item item' : Bytes → Option (Json ν × Bytes)}
    (hitem : ItemsAppend item item' t) (a : List (Json ν)) (s : Bytes)
    (x : List (Json ν) ⊕ List (Json ν)) (r : Bytes) (h : arrayRound item a s = some (x, r)) :
    arrayRound item' a (s ++ t) = some (x, r ++ t) := by
  obtain ⟨v, r₁, hv, hend⟩ := arrayRound_eq_some.mp h
  refine arrayRound_eq_some.mpr ⟨v, r₁ ++ t, ?_, roundEnd_append hend⟩
  exact hitem s v r₁ hv fun e => absurd e (ne_nil_of_roundEnd hend)

theorem objectRound_append {item item' : Bytes → Option (Json ν × Bytes)}
    (hitem : ItemsAppend item item' t) (hnm : n ≤ m) (o : List (Bytes × Json ν)) (s : Bytes)
    (x : List (Bytes × Json ν) ⊕ List (Bytes × Json ν)) (r : Bytes)
    (h : objectRound item n o s = some (x, r)) :
    objectRound item' m o (s ++ t) = some (x, r ++ t) := by
  obtain ⟨r₁, key, r₂, r₃, v, r₄, hquote, hkey, hcolon, hv, hend⟩ := objectRound_eq_some.mp h
  refine objectRound_eq_some.mpr ⟨r₁ ++ t, key, r₂ ++ t, r₃ ++ t, v, r₄ ++ t,
    expect_append hquote, parseString_append hkey hnm, expect_append hcolon, ?_,
    roundEnd_append hend⟩
  exact hitem r₃ v r₄ hv fun e => absurd e (ne_nil_of_roundEnd hend)

/-- A loop that ended read something other than white space first. -/
theorem skipWs_ne_nil_of_iterate {σ β : Type} {f : σ → Bytes → Option ((σ ⊕ β) × Bytes)} {a : σ}
    {b : β} (hf : ∀ s x r, f a s = some (x, r) → skipWs s ≠ [])
    (h : Scan.iterate f n a s = some (b, r)) : skipWs s ≠ [] := by
  cases n with
  | zero => cases h
  | succ n =>
    rw [Scan.iterate] at h
    cases hs : f a s with
    | none => rw [hs] at h; cases h
    | some y => exact hf s y.1 y.2 hs

theorem skipWs_ne_nil_of_parseValue {v : Json ν} (h : parseValue pf n s = some (v, r)) :
    skipWs s ≠ [] := by
  intro hs
  cases n with
  | zero => cases h
  | succ n => rw [parseValue, hs] at h; cases h

/-- What follows the opening character of an array or an object: the closing one, or the rounds of
its list. -/
def listBody {σ β : Type} (close : UInt8) (f : σ → Bytes → Option ((σ ⊕ β) × Bytes)) (n : Nat)
    (a : σ) (empty : Json ν) (wrap : β → Json ν) (s : Bytes) : Option (Json ν × Bytes) :=
  match expect close s with
  | some r => some (empty, r)
  | none => (Scan.iterate f n a s).map fun (b, r) => (wrap b, r)

section

variable {σ β : Type} {close : UInt8} {f g : σ → Bytes → Option ((σ ⊕ β) × Bytes)} {a : σ}
  {empty v : Json ν} {wrap : β → Json ν}

theorem listBody_append (hfirst : ∀ s x r, f a s = some (x, r) → skipWs s ≠ [])
    (hround : ∀ a s x r, f a s = some (x, r) → g a (s ++ t) = some (x, r ++ t)) (hnm : n ≤ m)
    (h : listBody close f n a empty wrap s = some (v, r)) :
    listBody close g m a empty wrap (s ++ t) = some (v, r ++ t) := by
  unfold listBody at h ⊢
  cases hclose : expect close s with
  | some r' =>
    rw [hclose] at h
    cases h
    rw [expect_append hclose]
  | none =>
    rw [hclose] at h
    obtain ⟨⟨b, r'⟩, hb, he⟩ := Option.map_eq_some_iff.mp h
    cases he
    rw [expect_append_none hclose (skipWs_ne_nil_of_iterate hfirst hb)]
    simp only [Scan.iterate_append hround hnm hb, Option.map_some]

theorem listBody_length (hround : ∀ a s x r, f a s = some (x, r) → r.length < s.length)
    (h : listBody close f n a empty wrap s = some (v, r)) : r.length < s.length := by
  unfold listBody at h
  split at h
  · rename_i r' hclose
    cases h
    exact expect_length hclose
  · obtain ⟨⟨b, r'⟩, hb, he⟩ := Option.map_eq_some_iff.mp h
    cases he
    exact Scan.iterate_length hround hb

end

theorem literal_append {p q : Bytes} {w v : Json ν}
    (h : (matchText p q).map (fun r => (w, r)) = some (v, r)) :
    (matchText p (q ++ t)).map (fun r => (w, r)) = some (v, r ++ t) := by
  obtain ⟨r', hr, he⟩ := Option.map_eq_some_iff.mp h
  cases he
  rw [matchText_append hr]
  rfl

/-- **More text does not change a value.** Except that a number at the end of the text may go on. -/
theorem parseValue_append {v : Json ν} (h : parseValue pf n s = some (v, r))
    (hnum : r = [] → ∀ x, v ≠ .num x) (hnm : n ≤ m) :
    parseValue pf m (s ++ t) = some (v, r ++ t) := by
  induction n generalizing m s v r with
  | zero => cases h
  | succ n ih =>
    obtain _ | m := m
    · omega
    have hnm' : n ≤ m := by omega
    have hitem : ItemsAppend (parseValue pf n) (parseValue pf m) t :=
      fun s v r hv hx => ih hv hx hnm'
    obtain ⟨ch, q, hs⟩ := List.exists_cons_of_ne_nil (skipWs_ne_nil_of_parseValue h)
    simp only [parseValue, hs] at h
    simp only [parseValue, skipWs_append hs]
    by_cases h₁ : ch = 'n'.toUInt8
    · rw [if_pos h₁] at h ⊢
      exact literal_append h
    rw [if_neg h₁] at h ⊢
    by_cases h₂ : ch = 'f'.toUInt8
    · rw [if_pos h₂] at h ⊢
      exact literal_append h
    rw [if_neg h₂] at h ⊢
    by_cases h₃ : ch = 't'.toUInt8
    · rw [if_pos h₃] at h ⊢
      exact literal_append h
    rw [if_neg h₃] at h ⊢
    by_cases h₄ : ch = '"'.toUInt8
    · rw [if_pos h₄] at h ⊢
      obtain ⟨⟨x, r'⟩, hx, he⟩ := Option.map_eq_some_iff.mp h
      cases he
      rw [parseString_append hx hnm']
      rfl
    rw [if_neg h₄] at h ⊢
    by_cases h₅ : ch = '['.toUInt8
    · rw [if_pos h₅] at h ⊢
      refine listBody_append (fun s x r hx => ?_) (arrayRound_append hitem) hnm' h
      obtain ⟨w, r₁, hw, -⟩ := arrayRound_eq_some.mp hx
      exact skipWs_ne_nil_of_parseValue hw
    rw [if_neg h₅] at h ⊢
    by_cases h₆ : ch = '\x7b'.toUInt8
    · rw [if_pos h₆] at h ⊢
      refine listBody_append (fun s x r hx => ?_) (objectRound_append hitem hnm') hnm' h
      obtain ⟨r₁, -, -, -, -, -, hquote, -⟩ := objectRound_eq_some.mp hx
      rw [expect_eq_some.mp hquote]
      simp
    rw [if_neg h₆] at h ⊢
    split at h
    · rename_i h₇
      rw [if_pos h₇]
      obtain ⟨⟨x, r'⟩, hx, he⟩ := Option.map_eq_some_iff.mp h
      cases he
      rw [← List.cons_append, parseNumber_append hx fun e => hnum e x rfl]
      rfl
    · cases h

/-! ## Enough levels and rounds -/

theorem arrayRound_length {item : Bytes → Option (Json ν × Bytes)} {a : List (Json ν)}
    (hitem : ∀ v r, item s = some (v, r) → r.length < s.length)
    {x : List (Json ν) ⊕ List (Json ν)} (h : arrayRound item a s = some (x, r)) :
    r.length < s.length := by
  obtain ⟨v, r₁, hv, hend⟩ := arrayRound_eq_some.mp h
  exact (roundEnd_length hend).trans (hitem v r₁ hv)

theorem objectRound_length {item : Bytes → Option (Json ν × Bytes)} {o : List (Bytes × Json ν)}
    (hitem : ∀ s' v r, s'.length < s.length → item s' = some (v, r) → r.length < s'.length)
    {x : List (Bytes × Json ν) ⊕ List (Bytes × Json ν)}
    (h : objectRound item n o s = some (x, r)) : r.length < s.length := by
  obtain ⟨r₁, key, r₂, r₃, v, r₄, hquote, hkey, hcolon, hv, hend⟩ := objectRound_eq_some.mp h
  have h₁ := expect_length hquote
  have h₂ := parseString_length hkey
  have h₃ := expect_length hcolon
  have h₄ := hitem r₃ v r₄ (by omega) hv
  have h₅ := roundEnd_length hend
  omega

/-- Every value takes some of the input. -/
theorem parseValue_length {v : Json ν} (h : parseValue pf n s = some (v, r)) :
    r.length < s.length := by
  induction n generalizing s v r with
  | zero => cases h
  | succ n ih =>
    obtain ⟨ch, q, hs⟩ := List.exists_cons_of_ne_nil (skipWs_ne_nil_of_parseValue h)
    have hq : q.length < s.length := by
      have := length_skipWs_le s
      rw [hs, List.length_cons] at this
      omega
    suffices r.length ≤ q.length by omega
    have hlit : ∀ {p : Bytes} {w : Json ν},
        (matchText p q).map (fun r => (w, r)) = some (v, r) → r.length ≤ q.length := by
      intro p w h
      obtain ⟨r', hr, he⟩ := Option.map_eq_some_iff.mp h
      cases he
      exact matchText_length hr
    simp only [parseValue, hs] at h
    split_ifs at h with h₁ h₂ h₃ h₄ h₅ h₆ h₇
    · exact hlit h
    · exact hlit h
    · exact hlit h
    · obtain ⟨⟨x, r'⟩, hx, he⟩ := Option.map_eq_some_iff.mp h
      cases he
      exact (parseString_length hx).le
    · exact (listBody_length (fun a s x r => arrayRound_length fun v r hv => ih hv) h).le
    · exact (listBody_length (fun o s x r => objectRound_length fun s' v r _ hv => ih hv) h).le
    · obtain ⟨⟨x, r'⟩, hx, he⟩ := Option.map_eq_some_iff.mp h
      cases he
      refine parseNumber_length ?_ hx
      rcases h₇ with ⟨h0, h9⟩ | rfl
      · simp [isNumberChar, h0, h9]
      · decide

/-- More levels and rounds than characters do not change the result. -/
theorem parseValue_fuel (hn : s.length < n) (hm : s.length < m) :
    parseValue pf n s = parseValue pf m s := by
  induction n generalizing m s with
  | zero => omega
  | succ n ih =>
    obtain _ | m := m
    · omega
    simp only [parseValue]
    cases hs : skipWs s with
    | nil => rfl
    | cons ch q =>
      have hq : q.length < s.length := by
        have := length_skipWs_le s
        rw [hs, List.length_cons] at this
        omega
      have hitem : ∀ s', s'.length ≤ q.length → parseValue pf n s' = parseValue pf m s' :=
        fun s' h => ih (by omega) (by omega)
      have harr : Scan.iterate (arrayRound (parseValue pf n)) n [] q =
          Scan.iterate (arrayRound (parseValue pf m)) m [] q := by
        refine Scan.iterate_congr (fun a s x r _ => arrayRound_length fun v r => parseValue_length)
          (fun a s h => ?_) (Nat.le_refl _) (by omega) (by omega)
        simp only [arrayRound, hitem s h]
      have hobj : Scan.iterate (objectRound (parseValue pf n) n) n [] q =
          Scan.iterate (objectRound (parseValue pf m) m) m [] q := by
        refine Scan.iterate_congr
          (fun o s x r _ => objectRound_length fun s' v r _ => parseValue_length)
          (fun o s h => ?_) (Nat.le_refl _) (by omega) (by omega)
        unfold objectRound
        refine Option.bind_congr fun r₁ hquote => ?_
        have h₁ := expect_length hquote
        rw [parseString_fuel (n := n) (m := m) (by omega) (by omega)]
        refine Option.bind_congr fun ⟨key, r₂⟩ hkey => ?_
        have h₂ := parseString_length hkey
        refine Option.bind_congr fun r₃ hcolon => ?_
        have h₃ := expect_length hcolon
        simp only [hitem r₃ (by omega)]
      have hstr : parseString n q = parseString m q := parseString_fuel (by omega) (by omega)
      simp only [hstr, harr, hobj]

/-- No text behind a value that is not a number changes it. -/
theorem parseText_append {v : Json ν} (h : parseText pf s = some (v, r))
    (hnum : r = [] → ∀ x, v ≠ .num x) : parseText pf (s ++ t) = some (v, r ++ t) :=
  parseValue_append h hnum (by rw [List.length_append]; omega)

end Values

/-! ## Reading back what was written -/

section RoundTrip

variable {rest : Bytes} {n : Nat}

/-- The three forms of an escaped character: itself, a letter behind a backslash, or a number. -/
theorem escape_cases (c : UInt8) :
    (escape c = [c] ∧ ¬ c < ' '.toUInt8 ∧ c ≠ '"'.toUInt8 ∧ c ≠ '\\'.toUInt8) ∨
    (∃ e, escape c = ['\\'.toUInt8, e] ∧ e ≠ 'u'.toUInt8 ∧ unescape e = some c) ∨
    ∃ x y, escape c = ascii "\\u00" ++ [x, y] ∧
      parseQuadhex (ascii "00" ++ [x, y]) = some (c.toNat, []) ∧ c.toNat < 0x80 := by
  have key : ∀ i : Fin 256, let c := UInt8.ofFin i
      (escape c = [c] ∧ ¬ c < ' '.toUInt8 ∧ c ≠ '"'.toUInt8 ∧ c ≠ '\\'.toUInt8) ∨
      (escape c = ['\\'.toUInt8, (escape c).getD 1 0] ∧ (escape c).getD 1 0 ≠ 'u'.toUInt8 ∧
        unescape ((escape c).getD 1 0) = some c) ∨
      (escape c = ascii "\\u00" ++ [(escape c).getD 4 0, (escape c).getD 5 0] ∧
        parseQuadhex (ascii "00" ++ [(escape c).getD 4 0, (escape c).getD 5 0]) =
          some (c.toNat, []) ∧ c.toNat < 0x80) := by
    decide +kernel
  rcases key c.toFin with h | h | h
  · exact .inl h
  · exact .inr (.inl ⟨_, h⟩)
  · exact .inr (.inr ⟨_, _, h⟩)

/-- Each escaped character takes one round. -/
theorem stringRound_escape (out : Bytes) (c : UInt8) :
    stringRound out (escape c ++ rest) = some (.inl (out ++ [c]), rest) := by
  rcases escape_cases c with ⟨he, h₁, h₂, h₃⟩ | ⟨e, he, h₁, h₂⟩ | ⟨x, y, he, h₁, h₂⟩
  · rw [he, List.singleton_append, stringRound.eq_def]
    simp only [h₁, h₂, h₃, ↓reduceIte]
  · rw [he, stringRound.eq_def]
    simp only [List.cons_append, List.nil_append, h₁, h₂, ↓reduceIte, Option.map_some]
    rfl
  · have hquad : parseCodepoint (ascii "00" ++ [x, y] ++ rest) = some ([c], rest) := by
      obtain ⟨-, -, -, -, -, hq⟩ := parseQuadhex_eq_some h₁
      have hsur : ¬ (0xd800 ≤ c.toNat ∧ c.toNat ≤ 0xdfff) := by omega
      simp only [parseCodepoint, hq rest, Option.bind_eq_bind, Option.bind_some, if_neg hsur,
        encodeCodepoint, if_pos h₂, List.nil_append]
      simp
    rw [he]
    show (parseCodepoint (ascii "00" ++ [x, y] ++ rest)).map _ = _
    rw [hquad]
    rfl

theorem length_le_flatMap_escape (s : Bytes) : s.length ≤ (s.flatMap escape).length := by
  induction s with
  | nil => simp
  | cons c s ih =>
    have : 1 ≤ (escape c).length := by
      rcases escape_cases c with ⟨he, -⟩ | ⟨e, he, -⟩ | ⟨x, y, he, -⟩ <;> rw [he] <;> simp
    rw [List.flatMap_cons, List.length_append, List.length_cons]
    omega

theorem parseString_serialize {s : Bytes} (hn : s.length < n) :
    parseString n (s.flatMap escape ++ '"'.toUInt8 :: rest) = some (s, rest) := by
  suffices ∀ out, Scan.iterate stringRound n out (s.flatMap escape ++ '"'.toUInt8 :: rest) =
      some (out ++ s, rest) from this []
  induction s generalizing n with
  | nil =>
    intro out
    obtain ⟨n, rfl⟩ := Nat.exists_eq_add_of_lt hn
    rw [List.append_nil]
    rfl
  | cons c s ih =>
    intro out
    obtain _ | n := n
    · simp at hn
    rw [List.flatMap_cons, List.append_assoc, Scan.iterate, stringRound_escape]
    simpa using ih (by simpa using hn) (out ++ [c])

theorem parseValue_serializeStr {s : Bytes} (hn : s.length < n) :
    parseValue pf (n + 1) (serializeStr s ++ rest) = some (.str s, rest) := by
  have hq : skipWs (serializeStr s ++ rest) =
      '"'.toUInt8 :: (s.flatMap escape ++ '"'.toUInt8 :: rest) := by
    simp only [serializeStr, List.cons_append, List.append_assoc]
    rfl
  simp only [parseValue, hq, parseString_serialize hn]
  rfl

/-- A member of an object; what follows it decides whether the loop goes on. -/
private theorem objectRound_serialize {k a : Bytes} {o : List (Bytes × Json ν)}
    (hk : k.length < n + 1) (ha : a.length < n) (q : Bytes) :
    objectRound (parseValue pf (n + 1)) (n + 1) o
        (serializeStr k ++ ':'.toUInt8 :: (serializeStr a ++ q)) =
      roundEnd '\x7d'.toUInt8 (Json.set k (.str a) o) q := by
  have hquote : expect '"'.toUInt8 (serializeStr k ++ ':'.toUInt8 :: (serializeStr a ++ q)) =
      some (k.flatMap escape ++ '"'.toUInt8 :: (':'.toUInt8 :: (serializeStr a ++ q))) := by
    rw [expect_eq_some]
    simp only [serializeStr, List.cons_append, List.append_assoc]
    rfl
  have hcolon : expect ':'.toUInt8 (':'.toUInt8 :: (serializeStr a ++ q)) =
      some (serializeStr a ++ q) := expect_eq_some.mpr rfl
  simp only [objectRound, hquote, parseString_serialize hk, hcolon, parseValue_serializeStr ha,
    Option.bind_eq_bind, Option.bind_some]
  rfl

/-- The text of an object of two strings. -/
theorem serialize_pair (k₁ a k₂ b : Bytes) :
    serialize pf (.obj [(k₁, .str a), (k₂, .str b)]) = '\x7b'.toUInt8 ::
      (serializeStr k₁ ++ ':'.toUInt8 :: (serializeStr a ++ ','.toUInt8 ::
        (serializeStr k₂ ++ ':'.toUInt8 :: (serializeStr b ++ ['\x7d'.toUInt8])))) := by
  simp [serialize, serializeMembers]

/-- **Round trip.** An object of two strings is read back as it was written. -/
theorem parseText_serialize_pair {k₁ k₂ a b : Bytes} (hk : k₁ < k₂) :
    parseText pf (serialize pf (.obj [(k₁, .str a), (k₂, .str b)])) =
      some (.obj [(k₁, .str a), (k₂, .str b)], []) := by
  have h₁ := length_le_flatMap_escape k₁
  have h₂ := length_le_flatMap_escape a
  have h₃ := length_le_flatMap_escape k₂
  have h₄ := length_le_flatMap_escape b
  rw [parseText, serialize_pair]
  generalize hN : List.length (_ :: _) = N
  have hlen : k₁.length + a.length + k₂.length + b.length + 10 < N := by
    rw [← hN]
    simp only [serializeStr, List.length_cons, List.length_append, List.length_nil]
    omega
  clear hN
  obtain ⟨N, rfl⟩ : ∃ M, N = M + 2 := ⟨N - 2, by omega⟩
  have hmember : Scan.iterate (objectRound (parseValue pf (N + 2)) (N + 2)) (N + 2) []
      (serializeStr k₁ ++ ':'.toUInt8 :: (serializeStr a ++ ','.toUInt8 ::
        (serializeStr k₂ ++ ':'.toUInt8 :: (serializeStr b ++ ['\x7d'.toUInt8])))) =
      some ([(k₁, .str a), (k₂, .str b)], []) := by
    rw [Scan.iterate, objectRound_serialize (by omega) (by omega)]
    have hcomma : ∀ (o : List (Bytes × Json ν)) q, roundEnd '\x7d'.toUInt8 o (','.toUInt8 :: q) =
        some (.inl o, q) := fun _ _ => rfl
    have hset : Json.set k₂ (.str b) (Json.set k₁ (.str a) []) =
        [(k₁, .str a), (k₂, (.str b : Json ν))] := by
      have hne : k₂ ≠ k₁ := by
        rintro rfl
        exact List.lt_irrefl _ hk
      simp [Json.set, hne, List.lt_asymm hk]
    simp only [hcomma]
    rw [Scan.iterate, objectRound_serialize (by omega) (by omega), hset]
    rfl
  have hopen : ∀ q : Bytes, skipWs ('\x7b'.toUInt8 :: q) = '\x7b'.toUInt8 :: q := fun _ => rfl
  have hclose : ∀ q : Bytes, expect '\x7d'.toUInt8 (serializeStr k₁ ++ q) = none := fun _ => rfl
  rw [parseValue, hopen]
  simp only [hclose, hmember]
  rfl

end RoundTrip

end Picojson

end Neof5
