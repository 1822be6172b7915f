import Neof5.PicojsonGrammar
import Neof5.Protocol

/-!
# What the JSON parser accepts

* `parseText_iff`: the parser reads a value from the front of an input exactly if the input starts
  with a text of that value, and a number does not go on behind it.
* `parseText_serialize`: what the serializer writes for a value is a text of it, so it is read back.
* `parseText_normal`: a text is as good as what the serializer writes for its value.
-/

namespace Neof5

open Neof5Protocol (digitPlatform)

namespace Picojson

variable {ν : Type}

/-! ## Values -/

section Values

variable {pf : Platform ν} {item : Bytes → Option (Json ν × Bytes)} {L : Bytes → Json ν → Prop}
  {s t r w : Bytes} {v : Json ν} {n : Nat}

/-- A member of an object, up to its value. -/
def member (item : Bytes → Option (Json ν × Bytes)) (n : Nat) (s : Bytes) :
    Option ((Bytes × Json ν) × Bytes) := do
  let r ← expect '"'.toUInt8 s
  let (key, r) ← parseString n r
  let r ← expect ':'.toUInt8 r
  let (v, r) ← item r
  return ((key, v), r)

theorem arrayRound_eq :
    arrayRound item = listRound item (fun a v => a ++ [v]) ']'.toUInt8 := rfl

theorem objectRound_eq : objectRound item n =
    listRound (member item n) (fun o m => Json.set m.1 m.2 o) '\x7d'.toUInt8 := by
  funext o s
  simp only [objectRound, listRound, member, Option.bind_eq_bind, Option.bind_assoc,
    Option.pure_def, Option.bind_some]
  rfl

theorem member_sound (hitem : ∀ s v r, item s = some (v, r) → ∃ t, s = t ++ r ∧ L t v)
    (s : Bytes) (m : Bytes × Json ν) (r : Bytes) (h : member item n s = some (m, r)) :
    ∃ t, s = t ++ r ∧ MemberText L t m := by
  simp only [member, Option.bind_eq_bind, Option.bind_eq_some_iff, Prod.exists, Option.pure_def,
    Option.some.injEq, Prod.mk.injEq] at h
  obtain ⟨r₁, hquote, key, r₂, hkey, r₃, hcolon, v, r₄, hv, rfl, rfl⟩ := h
  obtain ⟨w, hw, rfl⟩ := (expect_iff (by decide)).mp hquote
  obtain ⟨k, rfl, hk⟩ := parseString_sound hkey
  obtain ⟨w', hw', rfl⟩ := (expect_iff (by decide)).mp hcolon
  obtain ⟨t, rfl, ht⟩ := hitem _ _ _ hv
  exact ⟨_, by simp, .mk hw hk hw' ht⟩

theorem member_complete
    (hitem : ∀ t v r, L t v → t.length < n → Stops r → item (t ++ r) = some (v, r))
    (t : Bytes) (m : Bytes × Json ν) (r : Bytes) (h : MemberText L t m) (hn : t.length < n)
    (hr : Stops r) : member item n (t ++ r) = some (m, r) := by
  cases h with
  | @mk w w' k key t v hw hk hw' ht =>
    simp only [List.length_append, List.length_cons] at hn
    have hquote : expect '"'.toUInt8 (w ++ '"'.toUInt8 :: (k ++ '"'.toUInt8 ::
        (w' ++ ':'.toUInt8 :: t)) ++ r) =
          some (k ++ '"'.toUInt8 :: (w' ++ ':'.toUInt8 :: (t ++ r))) :=
      (expect_iff (by decide)).mpr ⟨w, hw, by simp⟩
    have hkey := parseString_complete (r := w' ++ ':'.toUInt8 :: (t ++ r)) hk (n := n) (by omega)
    have hcolon : expect ':'.toUInt8 (w' ++ ':'.toUInt8 :: (t ++ r)) = some (t ++ r) :=
      (expect_iff (by decide)).mpr ⟨w', hw', rfl⟩
    simp only [member, hquote, hkey, hcolon, hitem t v r ht (by omega) hr, Option.bind_eq_bind,
      Option.bind_some]
    rfl

theorem foldl_snoc (a : List (Json ν)) : a.foldl (fun a v => a ++ [v]) [] = a := by
  rw [List.foldl_append_eq_append, ← List.flatMap_def, List.flatMap_singleton', List.nil_append]

theorem closes_bracket : Closes ']'.toUInt8 := ⟨by decide, by decide, by decide⟩

theorem closes_brace : Closes '\x7d'.toUInt8 := ⟨by decide, by decide, by decide⟩

/-- The first character of a number is that of no other value. -/
theorem number_first {c : UInt8} (h : ('0'.toUInt8 ≤ c ∧ c ≤ '9'.toUInt8) ∨ c = '-'.toUInt8) :
    isWs c = false ∧ c ≠ ']'.toUInt8 ∧ c ≠ 'n'.toUInt8 ∧ c ≠ 'f'.toUInt8 ∧ c ≠ 't'.toUInt8 ∧
      c ≠ '"'.toUInt8 ∧ c ≠ '['.toUInt8 ∧ c ≠ '\x7b'.toUInt8 := by
  have key : ∀ i : Fin 256, let c := UInt8.ofFin i
      ('0'.toUInt8 ≤ c ∧ c ≤ '9'.toUInt8) ∨ c = '-'.toUInt8 →
      isWs c = false ∧ c ≠ ']'.toUInt8 ∧ c ≠ 'n'.toUInt8 ∧ c ≠ 'f'.toUInt8 ∧ c ≠ 't'.toUInt8 ∧
        c ≠ '"'.toUInt8 ∧ c ≠ '['.toUInt8 ∧ c ≠ '\x7b'.toUInt8 := by
    decide +kernel
  exact key c.toFin h

/-- What a value can begin with. -/
theorem ValueText.begins (h : ValueText pf t v) :
    ∃ w c q, White w ∧ isWs c = false ∧ c ≠ ']'.toUInt8 ∧ t = w ++ c :: q := by
  cases h with
  | null hw | noItems hw | arr hw | noMembers hw | obj hw | str hw =>
    exact ⟨_, _, _, hw, by decide, by decide, rfl⟩
  | @bool w b hw =>
    cases b with
    | false => exact ⟨_, _, _, hw, by decide, by decide, rfl⟩
    | true => exact ⟨_, _, _, hw, by decide, by decide, rfl⟩
  | @num w t x hw hx =>
    obtain ⟨c, hc, hfirst⟩ := hx.first
    obtain ⟨q, rfl⟩ : ∃ q, t = c :: q := by
      cases t with
      | nil => cases hc
      | cons d q => cases hc; exact ⟨q, rfl⟩
    obtain ⟨hws, hne, -⟩ := number_first hfirst
    exact ⟨w, c, q, hw, hws, hne, rfl⟩

theorem begins_member (L : Bytes → Json ν → Prop) : Begins (MemberText L) '\x7d'.toUInt8 := by
  intro t m h
  cases h with
  | mk hw _ _ _ => exact ⟨_, _, _, hw, by decide, by decide, rfl⟩

/-- The value of any other type ends where its text ends. -/
theorem ends_of_ne (h : ∀ x, v ≠ .num x) : Ends v r := fun x hx => absurd hx (h x)

theorem parseNumber_sound {x : ν} {c : UInt8}
    (hc : ('0'.toUInt8 ≤ c ∧ c ≤ '9'.toUInt8) ∨ c = '-'.toUInt8)
    (h : parseNumber pf (c :: s) = some (x, r)) :
    ∃ t, c :: s = t ++ r ∧ NumberText pf t x ∧ Stops r := by
  obtain ⟨y, hy, he⟩ := Option.map_eq_some_iff.mp h
  cases he
  have hnum : isNumberChar c = true := by
    rcases hc with ⟨h0, h9⟩ | rfl
    · simp [isNumberChar, h0, h9]
    · decide
  refine ⟨(c :: s).takeWhile isNumberChar, List.takeWhile_append_dropWhile.symm,
    ⟨fun d hd => List.mem_takeWhile_imp hd, ?_, hy⟩, ?_⟩
  · rw [List.takeWhile_cons_of_pos hnum]
    exact ⟨c, rfl, hc⟩
  · intro d hd
    have hhead := List.head?_dropWhile_not isNumberChar (c :: s)
    rw [Option.mem_def.mp hd] at hhead
    simpa using hhead

theorem parseNumber_complete {x : ν} (h : NumberText pf t x) (hr : Stops r) :
    parseNumber pf (t ++ r) = some (x, r) := by
  have hstop : r.takeWhile isNumberChar = [] ∧ r.dropWhile isNumberChar = r := by
    cases r with
    | nil => exact ⟨rfl, rfl⟩
    | cons c r =>
      have hc : ¬ isNumberChar c = true := by simp [hr c rfl]
      exact ⟨List.takeWhile_cons_of_neg hc, List.dropWhile_cons_of_neg hc⟩
  rw [parseNumber, List.takeWhile_append_of_pos h.chars, List.dropWhile_append_of_pos h.chars,
    hstop.1, hstop.2, List.append_nil, h.value]
  rfl

/-! ### By the first character -/

section First

variable {q : Bytes}

theorem parseValue_n (h : skipWs s = 'n'.toUInt8 :: q) :
    parseValue pf (n + 1) s = (matchText (ascii "ull") q).map fun r => (.null, r) := by
  simp only [parseValue, h]
  rfl

theorem parseValue_f (h : skipWs s = 'f'.toUInt8 :: q) :
    parseValue pf (n + 1) s = (matchText (ascii "alse") q).map fun r => (.bool false, r) := by
  simp only [parseValue, h]
  rfl

theorem parseValue_t (h : skipWs s = 't'.toUInt8 :: q) :
    parseValue pf (n + 1) s = (matchText (ascii "rue") q).map fun r => (.bool true, r) := by
  simp only [parseValue, h]
  rfl

theorem parseValue_quote (h : skipWs s = '"'.toUInt8 :: q) :
    parseValue pf (n + 1) s = (parseString n q).map fun p => (.str p.1, p.2) := by
  simp only [parseValue, h]
  rfl

theorem parseValue_bracket (h : skipWs s = '['.toUInt8 :: q) :
    parseValue pf (n + 1) s = listBody ']'.toUInt8
      (listRound (parseValue pf n) (fun a v => a ++ [v]) ']'.toUInt8) n [] (.arr []) .arr q := by
  rw [← arrayRound_eq]
  simp only [parseValue, h]
  rfl

theorem parseValue_brace (h : skipWs s = '\x7b'.toUInt8 :: q) :
    parseValue pf (n + 1) s = listBody '\x7d'.toUInt8
      (listRound (member (parseValue pf n) n) (fun o m => Json.set m.1 m.2 o) '\x7d'.toUInt8) n []
      (.obj []) .obj q := by
  rw [← objectRound_eq]
  simp only [parseValue, h]
  rfl

end First

/-- **What the parser accepts is a text of the grammar.** -/
theorem parseValue_sound (h : parseValue pf n s = some (v, r)) :
    ∃ t, s = t ++ r ∧ ValueText pf t v ∧ Ends v r := by
  induction n generalizing s v r with
  | zero => cases h
  | succ n ih =>
    obtain ⟨ch, q, hs⟩ := List.exists_cons_of_ne_nil (skipWs_ne_nil_of_parseValue h)
    obtain ⟨w, hw, -, rfl⟩ := skipWs_eq_cons hs
    have hitem : ∀ s v r, parseValue pf n s = some (v, r) → ∃ t, s = t ++ r ∧ ValueText pf t v := by
      intro s v r h
      obtain ⟨t, hs, ht, -⟩ := ih h
      exact ⟨t, hs, ht⟩
    have hlit : ∀ {p : Bytes} {v' : Json ν},
        (matchText p q).map (fun r => (v', r)) = some (v, r) → q = p ++ r ∧ v' = v := by
      intro p v' h
      obtain ⟨r', hr, he⟩ := Option.map_eq_some_iff.mp h
      cases he
      exact ⟨matchText_iff.mp hr, rfl⟩
    by_cases h₁ : ch = 'n'.toUInt8
    · subst h₁
      obtain ⟨rfl, rfl⟩ := hlit (parseValue_n hs ▸ h)
      exact ⟨_, by simp [ascii], .null hw, ends_of_ne (by simp)⟩
    by_cases h₂ : ch = 'f'.toUInt8
    · subst h₂
      obtain ⟨rfl, rfl⟩ := hlit (parseValue_f hs ▸ h)
      exact ⟨_, by simp [ascii], .bool hw, ends_of_ne (by simp)⟩
    by_cases h₃ : ch = 't'.toUInt8
    · subst h₃
      obtain ⟨rfl, rfl⟩ := hlit (parseValue_t hs ▸ h)
      exact ⟨_, by simp [ascii], .bool hw, ends_of_ne (by simp)⟩
    by_cases h₄ : ch = '"'.toUInt8
    · subst h₄
      obtain ⟨⟨x, r'⟩, hx, he⟩ := Option.map_eq_some_iff.mp (parseValue_quote hs ▸ h)
      cases he
      obtain ⟨t, rfl, ht⟩ := parseString_sound hx
      exact ⟨_, by simp, .str hw ht, ends_of_ne (by simp)⟩
    by_cases h₅ : ch = '['.toUInt8
    · subst h₅
      rw [parseValue_bracket hs] at h
      rcases listBody_sound closes_bracket hitem h with ⟨w', hw', rfl, rfl⟩ | ⟨t, a, rfl, ht, rfl⟩
      · exact ⟨_, by simp, .noItems hw hw', ends_of_ne (by simp)⟩
      · rw [foldl_snoc]
        exact ⟨_, by simp, .arr hw ht, ends_of_ne (by simp)⟩
    by_cases h₆ : ch = '\x7b'.toUInt8
    · subst h₆
      rw [parseValue_brace hs] at h
      rcases listBody_sound closes_brace (member_sound hitem) h with
        ⟨w', hw', rfl, rfl⟩ | ⟨t, ms, rfl, ht, rfl⟩
      · exact ⟨_, by simp, .noMembers hw hw', ends_of_ne (by simp)⟩
      · exact ⟨_, by simp, .obj hw ht (Json.isMapOf_iff.mpr rfl), ends_of_ne (by simp)⟩
    simp only [parseValue, hs, if_neg h₁, if_neg h₂, if_neg h₃, if_neg h₄, if_neg h₅,
      if_neg h₆] at h
    split_ifs at h with h₇
    obtain ⟨⟨x, r'⟩, hx, he⟩ := Option.map_eq_some_iff.mp h
    cases he
    obtain ⟨t, ht, hnum, hstop⟩ := parseNumber_sound h₇ hx
    exact ⟨w ++ t, by rw [ht, List.append_assoc], .num hw hnum, fun _ _ => hstop⟩

/-- **Every text of the grammar is accepted**, with what follows it left over. -/
theorem parseValue_complete (h : ValueText pf t v) (hr : Ends v r) (hn : t.length < n) :
    parseValue pf n (t ++ r) = some (v, r) := by
  induction n generalizing t v r with
  | zero => omega
  | succ n ih =>
    have hitem : ∀ t v r, ValueText pf t v → t.length < n → Stops r →
        parseValue pf n (t ++ r) = some (v, r) :=
      fun t v r ht hlt hstop => ih ht (fun _ _ => hstop) hlt
    have hlit : ∀ {p : Bytes} {v' : Json ν},
        (matchText p (p ++ r)).map (fun r => (v', r)) = some (v', r) := by
      intro p v'
      rw [matchText_iff.mpr rfl]
      rfl
    have hskip : ∀ {w q : Bytes} {c : UInt8}, White w → isWs c = false →
        skipWs (w ++ c :: q ++ r) = c :: (q ++ r) := by
      intro w q c hw hc
      rw [List.append_assoc]
      exact skipWs_white hw hc
    cases h with
    | null hw => exact (parseValue_n (hskip hw (by decide))).trans hlit
    | @bool w b hw =>
      cases b with
      | false => exact (parseValue_f (hskip hw (by decide))).trans hlit
      | true => exact (parseValue_t (hskip hw (by decide))).trans hlit
    | @num w t x hw hx =>
      obtain ⟨c, hc, hfirst⟩ := hx.first
      obtain ⟨q, rfl⟩ : ∃ q, t = c :: q := by
        cases t with
        | nil => cases hc
        | cons d q => cases hc; exact ⟨q, rfl⟩
      obtain ⟨hws, -, h₁, h₂, h₃, h₄, h₅, h₆⟩ := number_first hfirst
      have hnum := parseNumber_complete hx (hr x rfl)
      rw [List.cons_append] at hnum
      rw [parseValue, hskip hw hws]
      simp only [if_neg h₁, if_neg h₂, if_neg h₃, if_neg h₄, if_neg h₅, if_neg h₆, if_pos hfirst,
        hnum, Option.map_some]
    | @str w t s hw ht =>
      simp only [List.length_append, List.length_cons] at hn
      rw [parseValue_quote (hskip hw (by decide)), List.append_assoc, List.singleton_append,
        parseString_complete ht (by omega)]
      rfl
    | noItems hw hw' =>
      rw [parseValue_bracket (hskip hw (by decide))]
      exact listBody_empty closes_bracket hw'
    | @arr w t a hw ht =>
      simp only [List.length_append, List.length_cons] at hn
      rw [parseValue_bracket (hskip hw (by decide)),
        listBody_complete closes_bracket (fun t v => ValueText.begins) hitem ht (by omega),
        foldl_snoc]
    | noMembers hw hw' =>
      rw [parseValue_brace (hskip hw (by decide))]
      exact listBody_empty closes_brace hw'
    | @obj w t ms o hw ht ho =>
      obtain rfl := Json.isMapOf_iff.mp ho
      simp only [List.length_append, List.length_cons] at hn
      rw [parseValue_brace (hskip hw (by decide))]
      exact listBody_complete closes_brace (begins_member _) (member_complete hitem) ht (by omega)

/-- **The language.** The parser reads the value `v` from the front of an input and leaves `r`
exactly if a text of the value stands before `r`, and a number does not go on in `r`. -/
theorem parseText_iff (pf : Platform ν) (s r : Bytes) (v : Json ν) :
    parseText pf s = some (v, r) ↔ ∃ t, s = t ++ r ∧ ValueText pf t v ∧ Ends v r := by
  constructor
  · exact parseValue_sound
  · rintro ⟨t, rfl, ht, hr⟩
    exact parseValue_complete ht hr (by rw [List.length_append]; omega)

end Values

/-! ## Reading back what was written -/

section Serialize

variable {pf : Platform ν} {v : Json ν} {t s r : Bytes}

/-- An escaped character is a part of a string. -/
theorem charText_escape (c : UInt8) : CharText (escape c) [c] := by
  rcases escape_cases c with ⟨he, h₁, h₂, h₃⟩ | ⟨e, he, -, hc⟩ | ⟨x, y, he, hquad, hlt⟩
  · rw [he]
    exact .plain h₁ h₂ h₃
  · rw [he]
    exact .escape hc
  · obtain ⟨q, hq, hcode⟩ := parseQuadhex_iff.mp hquad
    rw [List.append_nil] at hq
    have hnat : (Char.ofNat c.toNat).toNat = c.toNat := toNat_ofNat (by omega) (by omega)
    have hbyte : String.utf8EncodeChar (Char.ofNat c.toNat) = [c] := by
      rw [← encodeCodepoint_eq, hnat, encodeCodepoint, if_pos hlt]
      simp
    rw [he, ← hbyte, show ascii "\\u00" ++ [x, y] = '\\'.toUInt8 :: 'u'.toUInt8 :: q from hq ▸ rfl]
    exact .unicode (.unit (hnat.symm ▸ hcode))

theorem stringText_escape (s : Bytes) : StringText (s.flatMap escape) s := by
  induction s with
  | nil => exact .nil
  | cons c s ih => exact .cons (charText_escape c) ih

theorem items_text {a : List (Json ν)} (h : ∀ v ∈ a, ValueText pf (serialize pf v) v)
    (hne : a ≠ []) :
    ListText (ValueText pf) ']'.toUInt8 (serializeItems pf a ++ [']'.toUInt8]) a := by
  induction a with
  | nil => exact absurd rfl hne
  | cons v a ih =>
    have hv := h v (by simp)
    have hnil : White [] := by simp [White]
    rw [serializeItems]
    cases a with
    | nil =>
      have hlast : ListText (ValueText pf) ']'.toUInt8 _ _ := .last hv hnil
      simpa using hlast
    | cons w a =>
      have hmore := ListText.more hv hnil (ih (fun v hv => h v (by simp [hv])) (by simp))
      simpa using hmore

theorem members_text {o : List (Bytes × Json ν)} (h : ∀ m ∈ o, ValueText pf (serialize pf m.2) m.2)
    (hne : o ≠ []) : ListText (MemberText (ValueText pf)) '\x7d'.toUInt8
      (serializeMembers pf o ++ ['\x7d'.toUInt8]) o := by
  induction o with
  | nil => exact absurd rfl hne
  | cons m o ih =>
    obtain ⟨k, v⟩ := m
    have hnil : White [] := by simp [White]
    have hmember : MemberText (ValueText pf)
        (serializeStr k ++ ':'.toUInt8 :: serialize pf v) (k, v) := by
      have hmk := MemberText.mk hnil (stringText_escape k) hnil (h (k, v) (by simp))
      simpa [serializeStr] using hmk
    rw [serializeMembers]
    cases o with
    | nil =>
      have hlast : ListText (MemberText (ValueText pf)) '\x7d'.toUInt8 _ _ := .last hmember hnil
      simpa using hlast
    | cons m o =>
      have hmore := ListText.more hmember hnil (ih (fun m hm => h m (by simp [hm])) (by simp))
      simpa using hmore

/-- The number is read back as it was written. -/
def ReadsBack (pf : Platform ν) (x : ν) : Prop := NumberText pf (pf.format x) x

/-- **What the serializer writes is a text of the value.** -/
theorem serialize_text (ho : v.Ordered) (hn : v.NumbersIn (ReadsBack pf)) :
    ValueText pf (serialize pf v) v := by
  have hnil : White [] := by simp [White]
  induction v using Json.induct with
  | null =>
    have hnull : ValueText pf _ _ := .null hnil
    simpa [serialize] using hnull
  | bool b =>
    have hbool : ValueText pf _ (.bool b) := .bool hnil
    simpa [serialize] using hbool
  | num x =>
    cases hn with
    | num hx => simpa [serialize] using ValueText.num hnil hx
  | str s =>
    have hstr : ValueText pf _ _ := .str hnil (stringText_escape s)
    simpa [serialize, serializeStr] using hstr
  | arr a ih =>
    cases ho with
    | arr ho =>
      cases hn with
      | arr hn =>
        rw [serialize]
        by_cases hempty : a = []
        · subst hempty
          have hitems : ValueText pf _ _ := .noItems hnil hnil
          simpa [serializeItems] using hitems
        · exact .arr hnil (items_text (fun v hv => ih v hv (ho v hv) (hn v hv)) hempty)
  | obj o ih =>
    cases ho with
    | obj hsorted ho =>
      cases hn with
      | obj hn =>
        rw [serialize]
        by_cases hempty : o = []
        · subst hempty
          have hmembers : ValueText pf _ _ := .noMembers hnil hnil
          simpa [serializeMembers] using hmembers
        · refine .obj hnil (members_text (fun m hm => ih m hm (ho m hm) (hn m hm)) hempty) ?_
          exact Json.isMapOf_iff.mpr (Json.ofMembers_sorted hsorted).symm

/-- **Round trip.** A value whose objects are maps and whose numbers are read back is read back from
what the serializer writes for it, whatever follows it that is not part of a number. -/
theorem parseText_serialize (pf : Platform ν) (v : Json ν) (r : Bytes) (ho : v.Ordered)
    (hn : v.NumbersIn (ReadsBack pf)) (hr : Ends v r) :
    parseText pf (serialize pf v ++ r) = some (v, r) :=
  parseValue_complete (serialize_text ho hn) hr (by rw [List.length_append]; omega)

/-- An object with a list, and a string that is escaped. -/
def sampleValue : Json Int :=
  .obj [(ascii "a", .arr [.num 7, .null]), (ascii "b", .str (utf8 "\"ほ\n"))]

theorem sampleValue_ordered : sampleValue.Ordered := by
  refine .obj (by simp only [Json.Sorted]; decide) (List.forall_mem_cons.mpr ⟨.arr ?_, ?_⟩)
  · exact List.forall_mem_cons.mpr ⟨.num, List.forall_mem_singleton.mpr .null⟩
  · exact List.forall_mem_singleton.mpr .str

theorem readsBack_digit : ReadsBack digitPlatform 7 := by
  have hformat : digitPlatform.format 7 = ['7'.toUInt8] := by decide +kernel
  rw [ReadsBack, hformat]
  exact ⟨List.forall_mem_singleton.mpr (by decide), ⟨'7'.toUInt8, rfl, by decide⟩, by rfl⟩

theorem sampleValue_numbers : sampleValue.NumbersIn (ReadsBack digitPlatform) := by
  refine .obj (List.forall_mem_cons.mpr ⟨.arr ?_, ?_⟩)
  · exact List.forall_mem_cons.mpr ⟨.num readsBack_digit, List.forall_mem_singleton.mpr .null⟩
  · exact List.forall_mem_singleton.mpr .str

theorem parseText_serialize_sample :
    parseText digitPlatform (serialize digitPlatform sampleValue ++ ascii ",") =
      some (sampleValue, ascii ",") :=
  parseText_serialize digitPlatform sampleValue (ascii ",") sampleValue_ordered sampleValue_numbers
    (ends_of_ne fun _ => by simp [sampleValue])

/-! ### What the parser gives -/

theorem ListText.exists_item {α : Type} {item : Bytes → α → Prop} {close : UInt8} {xs : List α}
    {x : α} (h : ListText item close t xs) (hx : x ∈ xs) : ∃ u, item u x ∧ u.length < t.length := by
  induction h with
  | @last t w y hy _ =>
    obtain rfl := List.mem_singleton.mp hx
    exact ⟨t, hy, by simp only [List.length_append, List.length_singleton]; omega⟩
  | @more t w u y ys hy _ _ ih =>
    simp only [List.length_append, List.length_cons]
    rcases List.mem_cons.mp hx with rfl | hx
    · exact ⟨t, hy, by omega⟩
    · obtain ⟨u', hu', hlt⟩ := ih hx
      exact ⟨u', hu', by omega⟩

/-- The objects that are read are maps. -/
theorem ValueText.ordered (h : ValueText pf t v) : v.Ordered := by
  induction hn : t.length using Nat.strong_induction_on generalizing t v with
  | _ n ih =>
    subst hn
    cases h with
    | null => exact .null
    | bool => exact .bool
    | num => exact .num
    | str => exact .str
    | noItems => exact .arr (by simp)
    | @arr w t a _ ht =>
      refine .arr fun v hv => ?_
      obtain ⟨u, hu, hlt⟩ := ht.exists_item hv
      exact ih u.length (by simp only [List.length_append, List.length_cons]; omega) hu rfl
    | noMembers => exact .obj .nil (by simp)
    | @obj w t ms o _ ht ho =>
      refine .obj ho.sorted fun m hm => ?_
      rw [Json.isMapOf_iff.mp ho] at hm
      obtain ⟨u, hu, hlt⟩ := ht.exists_item (Json.mem_ofMembers hm)
      cases hu with
      | @mk w₁ w₂ k key u v _ _ _ hv =>
        simp only [List.length_append, List.length_cons] at hlt
        exact ih u.length (by simp only [List.length_append, List.length_cons]; omega) hv rfl

/-- **The normal form.** Whatever text a value was read from, with white space, escapes and keys
that come twice, its objects are sorted, with each key once. So the text that the serializer writes
for the value is read as the same value, as long as the numbers are read back. -/
theorem parseText_normal (pf : Platform ν) (s r : Bytes) (v : Json ν)
    (h : parseText pf s = some (v, r)) :
    v.Ordered ∧
      (v.NumbersIn (ReadsBack pf) → parseText pf (serialize pf v) = some (v, [])) := by
  obtain ⟨t, -, ht, -⟩ := parseValue_sound h
  refine ⟨ht.ordered, fun hn => ?_⟩
  have hread := parseValue_complete (r := []) (serialize_text ht.ordered hn)
    (fun _ _ c hc => by cases hc) (Nat.lt_succ_self _)
  rwa [List.append_nil] at hread

/-- A text with spaces, with escapes and with a key that comes twice. -/
def sampleSource : Bytes :=
  ascii " \x7b \"b\" : true, \"a\":[ 7,null ] , \"b\":\"\\u0022\\u307b\\n\"\x7d !"

set_option maxRecDepth 20000 in
theorem sampleSource_read :
    parseText digitPlatform sampleSource = some (sampleValue, ascii " !") := by rfl

theorem parseText_normal_sample :
    sampleValue.Ordered ∧
      parseText digitPlatform (serialize digitPlatform sampleValue) = some (sampleValue, []) := by
  obtain ⟨hordered, hread⟩ :=
    parseText_normal digitPlatform sampleSource (ascii " !") sampleValue sampleSource_read
  exact ⟨hordered, hread sampleValue_numbers⟩

end Serialize

end Picojson

end Neof5
