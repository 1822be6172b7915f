import Neof5.CardText
import Neof5.Picojson

/-!
# The names of the headers (`libwebsockets-1.23/lib`: `parsers.c`, `minilex.c`)

`lextable` is a tree in two bytes a branch, which `minilex.c` has written from the list of names:
a character with its top bit set for the last branch of a node, and half the distance to the next
node, or zero at a leaf. `libwebsocket_parse` goes down by a character at a time.

* `lextable_exact`: whatever bytes arrive, the table recognises the 17 names, gives up at the first
  byte that no name goes on with, and is never read behind its end.
-/

namespace Neof5

namespace Lws

/-- `lextable` -/
def lextable : Bytes := [
  0x47, 0x07, 0x48, 0x0a, 0x43, 0x0f, 0x53, 0x19, 0x55, 0x3f, 0x4f, 0x46, 0x8d, 0x52, 0xc5, 0x01,
  0xd4, 0x01, 0xa0, 0x01, 0x80, 0x00, 0x6f, 0x02, 0xd4, 0x76, 0xf3, 0x01, 0xf4, 0x01, 0xba, 0x01,
  0x81, 0x00, 0xef, 0x01, 0xee, 0x01, 0xee, 0x01, 0xe5, 0x01, 0xe3, 0x01, 0xf4, 0x01, 0xe9, 0x01,
  0xef, 0x01, 0xee, 0x01, 0xba, 0x01, 0x82, 0x00, 0xe5, 0x01, 0xe3, 0x01, 0xad, 0x01, 0xd7, 0x01,
  0xe5, 0x01, 0xe2, 0x01, 0xd3, 0x01, 0xef, 0x01, 0xe3, 0x01, 0xeb, 0x01, 0xe5, 0x01, 0xf4, 0x01,
  0xad, 0x01, 0x4b, 0x08, 0x50, 0x10, 0x44, 0x27, 0x56, 0x2f, 0x4f, 0x36, 0x45, 0x3c, 0x41, 0x46,
  0xce, 0x4c, 0xe5, 0x01, 0xf9, 0x01, 0x31, 0x03, 0x32, 0x04, 0xba, 0x25, 0xba, 0x01, 0x83, 0x00,
  0xba, 0x01, 0x84, 0x00, 0xf2, 0x01, 0xef, 0x01, 0xf4, 0x01, 0xef, 0x01, 0xe3, 0x01, 0xef, 0x01,
  0xec, 0x01, 0xba, 0x01, 0x85, 0x00, 0xf0, 0x01, 0xe7, 0x01, 0xf2, 0x01, 0xe1, 0x01, 0xe4, 0x01,
  0xe5, 0x01, 0xba, 0x01, 0x86, 0x00, 0xf2, 0x01, 0xe9, 0x01, 0xe7, 0x01, 0xe9, 0x01, 0xee, 0x01,
  0xba, 0x01, 0x87, 0x00, 0xf2, 0x01, 0xe1, 0x01, 0xe6, 0x01, 0xf4, 0x01, 0xba, 0x01, 0x88, 0x00,
  0x8a, 0x01, 0x89, 0x00, 0x8a, 0x00, 0xe5, 0x01, 0xf2, 0x01, 0xf3, 0x01, 0xe9, 0x01, 0xef, 0x01,
  0xee, 0x01, 0xba, 0x01, 0x8b, 0x00, 0xf2, 0x01, 0xe9, 0x01, 0xe7, 0x01, 0xe9, 0x01, 0xee, 0x01,
  0xba, 0x01, 0x8c, 0x00, 0xf8, 0x01, 0xf4, 0x01, 0xe5, 0x01, 0xee, 0x01, 0xf3, 0x01, 0xe9, 0x01,
  0xef, 0x01, 0xee, 0x01, 0xf3, 0x01, 0xba, 0x01, 0x8d, 0x00, 0xe3, 0x01, 0xe3, 0x01, 0xe5, 0x01,
  0xf0, 0x01, 0xf4, 0x01, 0xba, 0x01, 0x8e, 0x00, 0xef, 0x01, 0xee, 0x01, 0xe3, 0x01, 0xe5, 0x01,
  0xba, 0x01, 0x8f, 0x00, 0xd4, 0x01, 0xd0, 0x01, 0xaf, 0x01, 0xb1, 0x01, 0xae, 0x01, 0xb1, 0x01,
  0xa0, 0x01, 0x90, 0x00]

/-- `set` in `minilex.c`, in the order of `enum lws_token_indexes` -/
def tokenNames : List Bytes :=
  ["GET ", "Host:", "Connection:", "Sec-WebSocket-Key1:", "Sec-WebSocket-Key2:",
    "Sec-WebSocket-Protocol:", "Upgrade:", "Origin:", "Sec-WebSocket-Draft:", "\r\n",
    "Sec-WebSocket-Key:", "Sec-WebSocket-Version:", "Sec-WebSocket-Origin:",
    "Sec-WebSocket-Extensions:", "Sec-WebSocket-Accept:", "Sec-WebSocket-Nonce:",
    "HTTP/1.1 "].map ascii

/-- `lextable[i]` -/
def tableAt (i : Nat) : Except Fault UInt8 :=
  match lextable[i]? with
  | some a => .ok a
  | none => .error .badIndex

/-- The loop of `lextable_decode` over the rest of the table from `pos` on; `none` for -1. -/
def decodeFrom (c : UInt8) : Bytes → Nat → Except Fault (Option Nat)
  | a :: d :: rest, pos =>
    if d = 0 then .ok (some pos)
    else if c == a &&& 0x7f then .ok (some (pos + d.toNat * 2))
    else if a &&& 0x80 ≠ 0 then .ok none
    else decodeFrom c rest (pos + 2)
  | _, _ => .error .badIndex

/-- `lextable_decode` -/
def lextableDecode (pos : Nat) (c : UInt8) : Except Fault (Option Nat) :=
  decodeFrom c (lextable.drop pos) pos

/-- Where the parser is after a byte of a name. -/
inductive Lex where
  | name (pos : Nat)
  | known (n : Nat)
  | unknown
  deriving DecidableEq, Repr

/-- The state `WSI_TOKEN_NAME_PART` of `libwebsocket_parse`, as far as the table decides. -/
def lexByte (pos : Nat) (c : UInt8) : Except Fault Lex := do
  match ← lextableDecode pos c with
  | none => return .unknown
  | some pos =>
    if (← tableAt (pos + 1)) = 0 then return .known ((← tableAt pos) &&& 0x7f).toNat
    else return .name pos

/-- The bytes of a name one after the other, and what is left when the name is known or is not. -/
def readName : Nat → Bytes → Except Fault (Lex × Bytes)
  | pos, [] => .ok (.name pos, [])
  | pos, c :: s => do
    match ← lexByte pos c with
    | .name pos => readName pos s
    | lex => return (lex, s)

/-! ## The tree -/

/-- The branches of the node at `pos`. -/
def branches : Bytes → Nat → Option (List (UInt8 × Nat))
  | a :: d :: rest, pos =>
    if d = 0 then none
    else
      let branch := (a &&& 0x7f, pos + d.toNat * 2)
      if a &&& 0x80 ≠ 0 then some [branch] else (branches rest (pos + 2)).map (branch :: ·)
  | _, _ => none

theorem decodeFrom_eq {c : UInt8} {s : Bytes} {pos : Nat} {bs : List (UInt8 × Nat)}
    (h : branches s pos = some bs) : decodeFrom c s pos = .ok (bs.lookup c) := by
  induction s, pos using branches.induct generalizing bs with
  | case1 a rest pos =>
    rw [branches, if_pos rfl] at h
    cases h
  | case2 a d rest pos hd hlast =>
    rw [branches, if_neg hd, if_pos hlast] at h
    cases h
    rw [decodeFrom, if_neg hd, List.lookup_cons]
    by_cases hc : (c == a &&& 0x7f) = true
    · rw [if_pos hc, hc]
    · rw [if_neg hc, if_pos hlast, Bool.not_eq_true _ |>.mp hc]
      rfl
  | case3 a d rest pos hd hlast ih =>
    rw [branches, if_neg hd, if_neg hlast] at h
    obtain ⟨bs', hbs', rfl⟩ := Option.map_eq_some_iff.mp h
    rw [decodeFrom, if_neg hd, List.lookup_cons]
    by_cases hc : (c == a &&& 0x7f) = true
    · rw [if_pos hc, hc]
    · rw [if_neg hc, if_neg hlast, Bool.not_eq_true _ |>.mp hc, ih hbs']
  | case4 s pos hs =>
    rw [branches] at h
    · cases h
    · exact hs

/-- The nodes on the way down a name, each with what was read before it. -/
def trail (u : Bytes) (pos : Nat) : Bytes → List (Nat × Bytes)
  | [] => []
  | c :: s => (pos, u) :: match lexByte pos c with
    | .ok (.name pos) => trail (u ++ [c]) pos s
    | _ => []

/-- The nodes of the tree. -/
def nodes : List (Nat × Bytes) := tokenNames.flatMap (trail [] 0)

/-- Each branch leads to the node, or to the name, of one character more. -/
def nodeOk (node : Nat × Bytes) : Bool :=
  match branches (lextable.drop node.1) node.1 with
  | none => false
  | some bs => bs.all fun b => match lexByte node.1 b.1 with
    | .ok (.name pos) => nodes.contains (pos, node.2 ++ [b.1])
    | .ok (.known t) => tokenNames[t]? == some (node.2 ++ [b.1])
    | _ => false

theorem nodes_ok : nodes.all nodeOk = true := by decide +kernel

/-- The beginning of a name, and not all of it. -/
def Part (u : Bytes) : Prop := ∃ name ∈ tokenNames, u <+: name ∧ u ≠ name

theorem root_mem_nodes : (0, []) ∈ nodes := by decide +kernel

/-- The way down ends before the last character does. -/
theorem trail_prefix {node : Nat × Bytes} {u : Bytes} {pos : Nat} {s : Bytes}
    (h : node ∈ trail u pos s) : node.2 <+: u ++ s ∧ node.2 ≠ u ++ s := by
  induction s generalizing u pos with
  | nil => cases h
  | cons c s ih =>
    rw [trail, List.mem_cons] at h
    obtain rfl | h := h
    · exact ⟨List.prefix_append u _, by simp⟩
    · split at h
      · rw [List.append_cons]
        exact ih h
      · cases h

theorem nodes_part {node : Nat × Bytes} (h : node ∈ nodes) : Part node.2 := by
  obtain ⟨name, hname, hnode⟩ := List.mem_flatMap.mp h
  exact ⟨name, hname, trail_prefix hnode⟩

/-- One byte, read at a node. -/
theorem lexByte_node {pos : Nat} {u : Bytes} (h : (pos, u) ∈ nodes) (c : UInt8) :
    lexByte pos c = .ok .unknown ∨
    (∃ p, lexByte pos c = .ok (.name p) ∧ (p, u ++ [c]) ∈ nodes) ∨
    ∃ t, lexByte pos c = .ok (.known t) ∧ tokenNames[t]? = some (u ++ [c]) := by
  have hok := List.all_eq_true.mp nodes_ok _ h
  rw [nodeOk] at hok
  split at hok
  · cases hok
  · next bs hbs =>
    have hdec : lextableDecode pos c = .ok (bs.lookup c) := decodeFrom_eq hbs
    cases hl : bs.lookup c with
    | none =>
      rw [hl] at hdec
      left
      rw [lexByte, hdec]
      rfl
    | some p =>
      obtain ⟨l₁, l₂, rfl, -⟩ := List.lookup_eq_some_iff.mp hl
      have hc := List.all_eq_true.mp hok (c, p) (by simp)
      split at hc
      · next p' hp => exact .inr (.inl ⟨p', hp, List.contains_iff_mem.mp hc⟩)
      · next t ht => exact .inr (.inr ⟨t, ht, eq_of_beq hc⟩)
      · cases hc

/-! ## Reading on -/

theorem readName_unknown {pos : Nat} {c : UInt8} (h : lexByte pos c = .ok .unknown) (s : Bytes) :
    readName pos (c :: s) = .ok (.unknown, s) := by
  rw [readName, h]
  rfl

theorem readName_known {pos t : Nat} {c : UInt8} (h : lexByte pos c = .ok (.known t)) (s : Bytes) :
    readName pos (c :: s) = .ok (.known t, s) := by
  rw [readName, h]
  rfl

theorem readName_name {pos p : Nat} {c : UInt8} (h : lexByte pos c = .ok (.name p)) (s : Bytes) :
    readName pos (c :: s) = readName p s := by
  rw [readName, h]
  rfl

/-- What is read when `s` comes after what led to the first argument. -/
def readOn (s : Bytes) : Lex × Bytes → Except Fault (Lex × Bytes)
  | (.name pos, _) => readName pos s
  | (lex, r) => .ok (lex, r ++ s)

theorem readName_append {pos : Nat} {s : Bytes} {out : Lex × Bytes}
    (h : readName pos s = .ok out) (s' : Bytes) : readName pos (s ++ s') = readOn s' out := by
  induction s generalizing pos with
  | nil =>
    cases h
    rfl
  | cons c s ih =>
    cases hc : lexByte pos c with
    | error e =>
      rw [readName, hc] at h
      cases h
    | ok next =>
      cases next with
      | name p =>
        rw [readName_name hc] at h
        rw [List.cons_append, readName_name hc]
        exact ih h
      | known t =>
        rw [readName_known hc] at h
        cases h
        rw [List.cons_append, readName_known hc, readOn]
        simp
      | unknown =>
        rw [readName_unknown hc] at h
        cases h
        rw [List.cons_append, readName_unknown hc, readOn]
        simp

/-- From a node on, whatever comes. -/
theorem readName_node (s : Bytes) {pos : Nat} {u : Bytes} (h : (pos, u) ∈ nodes) :
    (∃ p, readName pos s = .ok (.name p, []) ∧ (p, u ++ s) ∈ nodes) ∨
    ∃ v c r, s = v ++ c :: r ∧ (∃ p, (p, u ++ v) ∈ nodes) ∧
      (readName pos (v ++ [c]) = .ok (.unknown, []) ∨
        ∃ t, readName pos (v ++ [c]) = .ok (.known t, []) ∧
          tokenNames[t]? = some (u ++ v ++ [c])) := by
  induction s generalizing pos u with
  | nil => exact .inl ⟨pos, rfl, by simpa using h⟩
  | cons c s ih =>
    obtain hc | ⟨p, hc, hp⟩ | ⟨t, hc, ht⟩ := lexByte_node h c
    · exact .inr ⟨[], c, s, rfl, ⟨pos, by simpa using h⟩, .inl (readName_unknown hc [])⟩
    · obtain ⟨q, hq, hn⟩ | ⟨v, c', r, rfl, ⟨q, hq⟩, hv⟩ := ih hp
      · exact .inl ⟨q, by rw [readName_name hc, hq], by simpa using hn⟩
      · refine .inr ⟨c :: v, c', r, rfl, ⟨q, by simpa using hq⟩, ?_⟩
        rw [List.cons_append, readName_name hc]
        simpa using hv
    · exact .inr ⟨[], c, s, rfl, ⟨pos, by simpa using h⟩,
        .inr ⟨t, readName_known hc [], by simpa using ht⟩⟩

/-! ## The names -/

/-- Each name of the list is in the table under its own number. -/
theorem readName_token {t : Nat} {name : Bytes} (h : tokenNames[t]? = some name) :
    readName 0 name = .ok (.known t, []) := by
  have hall : ∀ i : Fin tokenNames.length,
      readName 0 (tokenNames.get i) = .ok (.known i, []) := by decide +kernel
  obtain ⟨ht, rfl⟩ := List.getElem?_eq_some_iff.mp h
  exact hall ⟨t, ht⟩

theorem readName_mem {name : Bytes} (h : name ∈ tokenNames) :
    ∃ t, readName 0 name = .ok (.known t, []) := by
  obtain ⟨t, ht⟩ := List.mem_iff_getElem?.mp h
  exact ⟨t, readName_token ht⟩

/-- What the table does not know no name begins with. -/
theorem not_prefix_of_unknown {u : Bytes} (h : readName 0 u = .ok (.unknown, [])) {name : Bytes}
    (hname : name ∈ tokenNames) : ¬ u <+: name := by
  rintro ⟨w, rfl⟩
  obtain ⟨t, ht⟩ := readName_mem hname
  have happ := readName_append h w
  rw [ht] at happ
  cases happ

/-- No name goes on after another one. -/
theorem eq_of_known {u : Bytes} {t : Nat} (h : readName 0 u = .ok (.known t, [])) {name : Bytes}
    (hname : name ∈ tokenNames) (hu : u <+: name) : u = name := by
  obtain ⟨w, rfl⟩ := hu
  obtain ⟨t', ht'⟩ := readName_mem hname
  have happ := readName_append h w
  rw [ht'] at happ
  cases happ
  exact (List.append_nil u).symm

theorem readName_part {u : Bytes} (h : Part u) :
    ∃ p, readName 0 u = .ok (.name p, []) ∧ (p, u) ∈ nodes := by
  obtain ⟨name, hname, hu, hne⟩ := h
  obtain hp | ⟨v, c, r, rfl, -, hv⟩ := readName_node u root_mem_nodes
  · exact hp
  · have hvc : v ++ [c] <+: v ++ c :: r := ⟨r, by simp⟩
    obtain hv | ⟨t, hv, -⟩ := hv
    · exact absurd (hvc.trans hu) (not_prefix_of_unknown hv hname)
    · have heq : v ++ [c] = name := eq_of_known hv hname (hvc.trans hu)
      exact absurd (hu.eq_of_length_le (by simp [← heq])) hne

/-- The three ways of reading from the root on. -/
theorem readName_run (s : Bytes) :
    (∃ p, readName 0 s = .ok (.name p, []) ∧ Part s) ∨
    (∃ t name r, s = name ++ r ∧ tokenNames[t]? = some name ∧
      readName 0 s = .ok (.known t, r)) ∨
    ∃ u c r, s = u ++ c :: r ∧ Part u ∧ (∀ name ∈ tokenNames, ¬ u ++ [c] <+: name) ∧
      readName 0 s = .ok (.unknown, r) := by
  obtain ⟨p, hp, hn⟩ | ⟨u, c, r, rfl, ⟨q, hq⟩, hu⟩ := readName_node s root_mem_nodes
  · exact .inl ⟨p, hp, nodes_part hn⟩
  · obtain hu | ⟨t, hu, ht⟩ := hu
    · refine .inr (.inr ⟨u, c, r, rfl, nodes_part hq,
        fun name hname => not_prefix_of_unknown hu hname, ?_⟩)
      rw [List.append_cons]
      exact readName_append hu r
    · refine .inr (.inl ⟨t, u ++ [c], r, List.append_cons .., ht, ?_⟩)
      rw [List.append_cons]
      exact readName_append hu r

theorem readName_gives_up {u : Bytes} {c : UInt8} (hu : Part u)
    (hno : ∀ name ∈ tokenNames, ¬ u ++ [c] <+: name) (r : Bytes) :
    readName 0 (u ++ c :: r) = .ok (.unknown, r) := by
  obtain ⟨p, hp, hn⟩ := readName_part hu
  have happ : readName 0 (u ++ c :: r) = readName p (c :: r) := readName_append hp _
  rw [happ]
  obtain hc | ⟨q, -, hq⟩ | ⟨t, -, ht⟩ := lexByte_node hn c
  · exact readName_unknown hc r
  · obtain ⟨name, hname, hpre, -⟩ := nodes_part hq
    exact absurd hpre (hno name hname)
  · exact absurd (List.prefix_refl _) (hno _ (List.mem_of_getElem? ht))

/--
**The table reads the names and nothing else.** The bytes can be anything, and as many as there are:
a token is found exactly at the end of its own name, the parser is inside of a name exactly as long
as what it has read begins one, and it gives up exactly at the first byte that no name goes on with.
-/
theorem lextable_exact (s : Bytes) :
    (∃ out, readName 0 s = .ok out) ∧
    (∀ t r, readName 0 s = .ok (.known t, r) ↔
      ∃ name, tokenNames[t]? = some name ∧ s = name ++ r) ∧
    ((∃ p r, readName 0 s = .ok (.name p, r)) ↔ Part s) ∧
    (∀ r, readName 0 s = .ok (.unknown, r) ↔
      ∃ u c, s = u ++ c :: r ∧ Part u ∧ ∀ name ∈ tokenNames, ¬ u ++ [c] <+: name) := by
  refine ⟨?_, fun t r => ⟨fun h => ?_, ?_⟩, ⟨?_, fun h => ?_⟩, fun r => ⟨fun h => ?_, ?_⟩⟩
  · obtain ⟨p, h, -⟩ | ⟨t, name, r, -, -, h⟩ | ⟨u, c, r, -, -, -, h⟩ := readName_run s
    all_goals exact ⟨_, h⟩
  · obtain ⟨p, h', -⟩ | ⟨t', name, r', hs, ht, h'⟩ | ⟨u, c, r', -, -, -, h'⟩ := readName_run s
    all_goals rw [h'] at h; cases h
    exact ⟨name, ht, hs⟩
  · rintro ⟨name, ht, rfl⟩
    exact readName_append (readName_token ht) r
  · rintro ⟨p, r, h⟩
    obtain ⟨p', h', hp⟩ | ⟨t, name, r', -, -, h'⟩ | ⟨u, c, r', -, -, -, h'⟩ := readName_run s
    all_goals rw [h'] at h; cases h
    exact hp
  · obtain ⟨p, hp, -⟩ := readName_part h
    exact ⟨p, [], hp⟩
  · obtain ⟨p, h', -⟩ | ⟨t, name, r', -, -, h'⟩ | ⟨u, c, r', hs, hu, hno, h'⟩ := readName_run s
    all_goals rw [h'] at h; cases h
    exact ⟨u, c, hs, hu, hno⟩
  · rintro ⟨u, c, rfl, hu, hno⟩
    exact readName_gives_up hu hno r

end Lws

end Neof5
