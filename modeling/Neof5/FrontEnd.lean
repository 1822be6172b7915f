import Neof5.RuleLemmas

/-!
# The Android front end (`MainActivity.java`, `jnimain.cpp`)

`onClick` reads the input fields and calls the native `jnimain` on another thread. The class of the
rules is chosen twice: `onClick` looks for the letter `B` in the path and passes 1 or 0 on, and
`jnimain` compares what it is passed with the letter `B` again. So the native side never builds
`DaifugoRuleB` (`jnimain_rule_agrees_iff`).
-/

namespace Neof5

/-- A Java string: its UTF-16 code units. -/
abbrev JString := List UInt16

/-- The UTF-16 form of a literal. -/
def utf16 (s : String) : JString := s.toList.flatMap fun c =>
  if c.toNat < 0x10000 then [c.toNat.toUInt16]
  else [(0xd800 + (c.toNat - 0x10000) / 0x400).toUInt16,
    (0xdc00 + (c.toNat - 0x10000) % 0x400).toUInt16]

namespace MainActivity

/-- The exceptions that `onClick` catches. -/
inductive JavaException where
  | numberFormat
  | stringIndexOutOfBounds
  deriving DecidableEq, Repr

/-- What `onClick` uses of the Java library and what does not decide anything here. -/
structure JavaLib where
  /-- `Integer.parseInt`; `none` where it throws -/
  parseInt : JString → Option Int
  /-- `URLEncoder.encode(s, "utf-8")` -/
  urlEncode : JString → JString

/-- `s.indexOf(str, fromIndex)` for a string of one character. -/
def indexOf (s : JString) (ch : UInt16) (fromIndex : Nat) : Int :=
  match (s.drop fromIndex).idxOf? ch with
  | some i => ((fromIndex + i : Nat) : Int)
  | none => -1

/-- `s.charAt(index)` -/
def charAt (s : JString) (index : Int) : Except JavaException UInt16 :=
  if index < 0 then .error .stringIndexOutOfBounds
  else
    match s[index.toNat]? with
    | some c => .ok c
    | none => .error .stringIndexOutOfBounds

/-- `Integer.parseInt(s)` -/
def parseInt (lib : JavaLib) (s : JString) : Except JavaException Int :=
  match lib.parseInt s with
  | some n => .ok n
  | none => .error .numberFormat

/-- The arguments of a call of `jnimain`. -/
structure JniCall where
  level : Int
  ruleAB : Int
  host : JString
  port : Int
  path : JString
  deriving DecidableEq, Repr

/-- `onClick`: the call of `jnimain`, or the exception that is shown to the user. -/
def onClick (lib : JavaLib) (host port path level : JString) : Except JavaException JniCall := do
  let intPort ← parseInt lib port
  let a := indexOf path '/'.toNat.toUInt16 1
  let rule := if (← charAt path (a + 1)) = 'B'.toNat.toUInt16 then 1 else 0
  let intLevel ← parseInt lib level
  let name := lib.urlEncode (utf16 "ネオ爺" ++ level)
  return ⟨intLevel, rule, host, intPort, path ++ utf16 "?name=" ++ name⟩

end MainActivity

/-- `PoorPlayer`, `SagePlayer` -/
inductive PlayerKind where
  | poor
  | sage
  deriving DecidableEq, Repr

/-- The objects that the native side creates for a game. -/
structure Setup where
  player : PlayerKind
  rule : RuleClass
  deriving DecidableEq, Repr

/-- `jnimain`, up to the connection. -/
def jnimain (playerLevel ruleAB : Int) : Setup where
  player := if playerLevel = 1 then .poor else .sage
  rule := if ruleAB = 'B'.toNat then .B else .A

namespace MainActivity

/-- The character of the path that names the class of the rules: the one after the first `/` from
index 1 on, or the first one. -/
def ruleChar (path : JString) : Option UInt16 :=
  path[(indexOf path '/'.toNat.toUInt16 1 + 1).toNat]?

theorem charAt_ok {s : JString} {i : Int} {c : UInt16} (h : charAt s i = .ok c) :
    s[i.toNat]? = some c := by
  unfold charAt at h
  split at h
  · cases h
  · split at h
    · rename_i d hd
      cases h
      exact hd
    · cases h

/-- A call that is made passes 1 for the letter `B` and 0 for every other. -/
theorem onClick_ruleAB {lib : JavaLib} {host port path level : JString} {call : JniCall}
    (h : onClick lib host port path level = .ok call) :
    call.ruleAB = if ruleChar path = some 'B'.toNat.toUInt16 then 1 else 0 := by
  obtain ⟨intPort, -, h⟩ := bind_ok h
  obtain ⟨c, hc, h⟩ := bind_ok h
  obtain ⟨intLevel, -, h⟩ := bind_ok h
  cases h
  rw [ruleChar, charAt_ok hc]
  simp only [Option.some.injEq]

/-- **When the two sides agree on the rules.** They do exactly if the path does not ask for
class B. -/
theorem jnimain_rule_agrees_iff (lib : JavaLib) (host port path level : JString) (call : JniCall)
    (h : onClick lib host port path level = .ok call) :
    ((jnimain call.level call.ruleAB).rule = .B ↔ ruleChar path = some 'B'.toNat.toUInt16) ↔
      ruleChar path ≠ some 'B'.toNat.toUInt16 := by
  have hA : (jnimain call.level call.ruleAB).rule = .A := by
    have hne : call.ruleAB ≠ 'B'.toNat := by
      rw [onClick_ruleAB h]
      split <;> decide
    simp only [jnimain, if_neg hne]
  rw [hA]
  simp

/-- A library that reads one number, and encodes the name of the player of that level. -/
def digitLib : JavaLib where
  parseInt s := if s = utf16 "2" then some 2 else none
  urlEncode s := if s = utf16 "ネオ爺2" then utf16 "%E3%83%8D%E3%82%AA%E7%88%BA2" else s

/-- The path of a game of class A. -/
theorem jnimain_rule_agrees_path_A :
    ((jnimain 2 0).rule = .B ↔ ruleChar (utf16 "/play/A") = some 'B'.toNat.toUInt16) ↔
      ruleChar (utf16 "/play/A") ≠ some 'B'.toNat.toUInt16 :=
  jnimain_rule_agrees_iff digitLib (utf16 "h") (utf16 "2") (utf16 "/play/A") (utf16 "2")
    ⟨2, 0, utf16 "h", 2, utf16 "/play/A?name=%E3%83%8D%E3%82%AA%E7%88%BA2"⟩ (by decide +kernel)

/-- The path of a game of class B: the native side plays class A. -/
theorem jnimain_rule_path_B :
    ∃ call, onClick digitLib (utf16 "h") (utf16 "2") (utf16 "/play/B") (utf16 "2") = .ok call ∧
      ¬ ((jnimain call.level call.ruleAB).rule = .B ↔
        ruleChar (utf16 "/play/B") = some 'B'.toNat.toUInt16) :=
  ⟨⟨2, 1, utf16 "h", 2, utf16 "/play/B?name=%E3%83%8D%E3%82%AA%E7%88%BA2"⟩, by decide +kernel,
    by decide⟩

end MainActivity

end Neof5
