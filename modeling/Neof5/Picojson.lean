import Neof5.Lib.Scan
import Neof5.CardText

/-!
# JSON texts (`picojson.h`)

The values of `picojson::value`, the parser and the serializer, over bytes.

The input of the parser is the list of the bytes that are left. A character that the source reads
and puts back (`ungetc`) stays in the list. A parser gives the value and the rest of the input, or
`none` where the source returns false; what the source has stored by then in the value that it
fills is not followed here (`Platform.remains`). Trailing text after a value is not looked at.

The recursion takes a number of levels and rounds. One more than the length of the input is enough
(`parseValue_fuel`).
-/

namespace Neof5

/-- The bytes of a literal of ASCII characters. -/
def ascii (s : String) : Bytes := s.toList.map Char.toUInt8

/-- The UTF-8 bytes of a literal. -/
def utf8 (s : String) : Bytes := s.toList.flatMap String.utf8EncodeChar

/-- `picojson::value`, with the numbers of type `ν`. An object is a `std::map`: its members in the
order of their keys. -/
inductive Json (ν : Type) where
  | null
  | bool (b : Bool)
  | num (x : ν)
  | str (s : Bytes)
  | arr (a : List (Json ν))
  | obj (o : List (Bytes × Json ν))

/-- What depends on the machine and the C library. -/
structure Platform (ν : Type) where
  /-- plain `char` -/
  charKind : CharKind
  /-- `strtod` on a text that it reads to its end -/
  strtod : Bytes → Option ν
  /-- the conversion of a `double` to `int`, undefined if the value does not fit -/
  toInt : ν → Option Int
  /-- `snprintf` of a number in `to_str` -/
  format : ν → Bytes
  /-- what is left in the value if the text cannot be parsed -/
  remains : Bytes → Json ν

namespace Json

variable {ν : Type}

/-- `o[key] = v` -/
def set (key : Bytes) (v : Json ν) : List (Bytes × Json ν) → List (Bytes × Json ν)
  | [] => [(key, v)]
  | (k, w) :: o =>
    if key = k then (key, v) :: o
    else if key < k then (key, v) :: (k, w) :: o
    else (k, w) :: set key v o

/-- `o[key]`: a key that is missing gets the value null. -/
def field (o : List (Bytes × Json ν)) (key : String) : Json ν := (o.lookup (ascii key)).getD .null

/-- `get<bool>()` and so on. The source asserts that the type is the right one. -/
def getBool : Json ν → Except Fault Bool
  | .bool b => .ok b
  | _ => .error .badType

@[inherit_doc getBool]
def getNum : Json ν → Except Fault ν
  | .num x => .ok x
  | _ => .error .badType

@[inherit_doc getBool]
def getStr : Json ν → Except Fault Bytes
  | .str s => .ok s
  | _ => .error .badType

@[inherit_doc getBool]
def getArr : Json ν → Except Fault (List (Json ν))
  | .arr a => .ok a
  | _ => .error .badType

@[inherit_doc getBool]
def getObj : Json ν → Except Fault (List (Bytes × Json ν))
  | .obj o => .ok o
  | _ => .error .badType

end Json

namespace Picojson

variable {ν : Type}

/-! ## The parser -/

/-- The white space of `skip_ws`. -/
def isWs (c : UInt8) : Bool :=
  c = ' '.toUInt8 || c = '\t'.toUInt8 || c = '\n'.toUInt8 || c = '\r'.toUInt8

/-- `skip_ws` -/
def skipWs (s : Bytes) : Bytes := s.dropWhile isWs

/-- `expect` -/
def expect (ch : UInt8) (s : Bytes) : Option Bytes :=
  match skipWs s with
  | c :: r => if c = ch then some r else none
  | [] => none

/-- `match` -/
def matchText : Bytes → Bytes → Option Bytes
  | [], s => some s
  | p :: pattern, c :: s => if c = p then matchText pattern s else none
  | _ :: _, [] => none

/-- The value of a hexadecimal digit. -/
def hexDigit (c : UInt8) : Option Nat :=
  if '0'.toUInt8 ≤ c ∧ c ≤ '9'.toUInt8 then some (c.toNat - '0'.toNat)
  else if 'A'.toUInt8 ≤ c ∧ c ≤ 'F'.toUInt8 then some (c.toNat - 'A'.toNat + 10)
  else if 'a'.toUInt8 ≤ c ∧ c ≤ 'f'.toUInt8 then some (c.toNat - 'a'.toNat + 10)
  else none

/-- `_parse_quadhex`, its loop of four rounds written out. -/
def parseQuadhex : Bytes → Option (Nat × Bytes)
  | a :: b :: c :: d :: r => do
    let a ← hexDigit a
    let b ← hexDigit b
    let c ← hexDigit c
    let d ← hexDigit d
    return (((a * 16 + b) * 16 + c) * 16 + d, r)
  | _ => none

/-- The bytes that `_parse_codepoint` stores for a code point. -/
def encodeCodepoint (u : Nat) : Bytes :=
  if u < 0x80 then [u.toUInt8]
  else if u < 0x800 then [(0xc0 ||| u >>> 6).toUInt8, (0x80 ||| u &&& 0x3f).toUInt8]
  else if u < 0x10000 then
    [(0xe0 ||| u >>> 12).toUInt8, (0x80 ||| u >>> 6 &&& 0x3f).toUInt8,
      (0x80 ||| u &&& 0x3f).toUInt8]
  else
    [(0xf0 ||| u >>> 18).toUInt8, (0x80 ||| u >>> 12 &&& 0x3f).toUInt8,
      (0x80 ||| u >>> 6 &&& 0x3f).toUInt8, (0x80 ||| u &&& 0x3f).toUInt8]

/-- `_parse_codepoint` -/
def parseCodepoint (s : Bytes) : Option (Bytes × Bytes) := do
  let (u, r) ← parseQuadhex s
  if 0xd800 ≤ u ∧ u ≤ 0xdfff then
    if 0xdc00 ≤ u then none
    else
      let r ← matchText (ascii "\\u") r
      let (second, r) ← parseQuadhex r
      if 0xdc00 ≤ second ∧ second ≤ 0xdfff then
        return (encodeCodepoint ((u - 0xd800) * 0x400 + (second - 0xdc00) + 0x10000), r)
      else none
  else return (encodeCodepoint u, r)

/-- The character that an escape stands for. -/
def unescape (e : UInt8) : Option UInt8 :=
  if e = '"'.toUInt8 then some '"'.toUInt8
  else if e = '\\'.toUInt8 then some '\\'.toUInt8
  else if e = '/'.toUInt8 then some '/'.toUInt8
  else if e = 'b'.toUInt8 then some 8
  else if e = 'f'.toUInt8 then some 12
  else if e = 'n'.toUInt8 then some 10
  else if e = 'r'.toUInt8 then some 13
  else if e = 't'.toUInt8 then some 9
  else none

/-- One round of `_parse_string`. -/
def stringRound (out : Bytes) : Bytes → Option ((Bytes ⊕ Bytes) × Bytes)
  | [] => none
  | ch :: r =>
    if ch < ' '.toUInt8 then none
    else if ch = '"'.toUInt8 then some (.inr out, r)
    else if ch = '\\'.toUInt8 then
      match r with
      | [] => none
      | e :: r =>
        if e = 'u'.toUInt8 then (parseCodepoint r).map fun (u, r) => (.inl (out ++ u), r)
        else (unescape e).map fun c => (.inl (out ++ [c]), r)
    else some (.inl (out ++ [ch]), r)

/-- `_parse_string`, after the opening quote. -/
def parseString (n : Nat) (s : Bytes) : Option (Bytes × Bytes) := Scan.iterate stringRound n [] s

/-- The characters that `_parse_number` collects. -/
def isNumberChar (c : UInt8) : Bool :=
  ('0'.toUInt8 ≤ c && c ≤ '9'.toUInt8) || c = '+'.toUInt8 || c = '-'.toUInt8 || c = '.'.toUInt8 ||
    c = 'e'.toUInt8 || c = 'E'.toUInt8

/-- `_parse_number` -/
def parseNumber (pf : Platform ν) (s : Bytes) : Option (ν × Bytes) :=
  (pf.strtod (s.takeWhile isNumberChar)).map fun x => (x, s.dropWhile isNumberChar)

/-- One round of the loop of `_parse_array`; `item` parses a value. -/
def arrayRound (item : Bytes → Option (Json ν × Bytes)) (a : List (Json ν)) (s : Bytes) :
    Option ((List (Json ν) ⊕ List (Json ν)) × Bytes) := do
  let (v, r) ← item s
  match expect ','.toUInt8 r with
  | some r => return (.inl (a ++ [v]), r)
  | none =>
    let r ← expect ']'.toUInt8 r
    return (.inr (a ++ [v]), r)

/-- One round of the loop of `_parse_object`. -/
def objectRound (item : Bytes → Option (Json ν × Bytes)) (n : Nat) (o : List (Bytes × Json ν))
    (s : Bytes) : Option ((List (Bytes × Json ν) ⊕ List (Bytes × Json ν)) × Bytes) := do
  let r ← expect '"'.toUInt8 s
  let (key, r) ← parseString n r
  let r ← expect ':'.toUInt8 r
  let (v, r) ← item r
  match expect ','.toUInt8 r with
  | some r => return (.inl (Json.set key v o), r)
  | none =>
    let r ← expect '}'.toUInt8 r
    return (.inr (Json.set key v o), r)

/-- `_parse` -/
def parseValue (pf : Platform ν) : Nat → Bytes → Option (Json ν × Bytes)
  | 0, _ => none
  | n + 1, s =>
    match skipWs s with
    | [] => none
    | ch :: r =>
      if ch = 'n'.toUInt8 then (matchText (ascii "ull") r).map fun r => (.null, r)
      else if ch = 'f'.toUInt8 then (matchText (ascii "alse") r).map fun r => (.bool false, r)
      else if ch = 't'.toUInt8 then (matchText (ascii "rue") r).map fun r => (.bool true, r)
      else if ch = '"'.toUInt8 then (parseString n r).map fun (t, r) => (.str t, r)
      else if ch = '['.toUInt8 then
        match expect ']'.toUInt8 r with
        | some r => some (.arr [], r)
        | none =>
          (Scan.iterate (arrayRound (parseValue pf n)) n [] r).map fun (a, r) => (.arr a, r)
      else if ch = '\x7b'.toUInt8 then
        match expect '\x7d'.toUInt8 r with
        | some r => some (.obj [], r)
        | none =>
          (Scan.iterate (objectRound (parseValue pf n) n) n [] r).map fun (o, r) => (.obj o, r)
      else if ('0'.toUInt8 ≤ ch ∧ ch ≤ '9'.toUInt8) ∨ ch = '-'.toUInt8 then
        (parseNumber pf (ch :: r)).map fun (x, r) => (.num x, r)
      else none

/-- `_parse` with as many levels and rounds as the text can need. The rest is what the input would
still give; the iterator that `picojson::parse` returns is one further behind a number. -/
def parseText (pf : Platform ν) (s : Bytes) : Option (Json ν × Bytes) :=
  parseValue pf (s.length + 1) s

/-- `picojson::parse`: the value after it. -/
def parse (pf : Platform ν) (s : Bytes) : Json ν :=
  match parseText pf s with
  | some (v, _) => v
  | none => pf.remains s

/-! ## The serializer -/

/-- A hexadecimal digit of `%04x`. -/
def hexChar (n : Nat) : UInt8 :=
  if n < 10 then '0'.toUInt8 + n.toUInt8 else 'a'.toUInt8 + (n - 10).toUInt8

/-- The characters that `serialize_str` writes for one. -/
def escape (c : UInt8) : Bytes :=
  if c = '"'.toUInt8 then ascii "\\\""
  else if c = '\\'.toUInt8 then ascii "\\\\"
  else if c = '/'.toUInt8 then ascii "\\/"
  else if c = 8 then ascii "\\b"
  else if c = 12 then ascii "\\f"
  else if c = 10 then ascii "\\n"
  else if c = 13 then ascii "\\r"
  else if c = 9 then ascii "\\t"
  else if c < 0x20 ∨ c = 0x7f then
    ascii "\\u00" ++ [hexChar (c.toNat / 16), hexChar (c.toNat % 16)]
  else [c]

/-- `serialize_str` -/
def serializeStr (s : Bytes) : Bytes := '"'.toUInt8 :: (s.flatMap escape ++ ['"'.toUInt8])

mutual

/-- `serialize` -/
def serialize (pf : Platform ν) : Json ν → Bytes
  | .null => ascii "null"
  | .bool b => if b then ascii "true" else ascii "false"
  | .num x => pf.format x
  | .str s => serializeStr s
  | .arr a => '['.toUInt8 :: (serializeItems pf a ++ [']'.toUInt8])
  | .obj o => '\x7b'.toUInt8 :: (serializeMembers pf o ++ ['\x7d'.toUInt8])

/-- The items of an array, separated by commas. -/
def serializeItems (pf : Platform ν) : List (Json ν) → Bytes
  | [] => []
  | v :: a => serialize pf v ++ (if a.isEmpty then [] else ','.toUInt8 :: serializeItems pf a)

/-- The members of an object, separated by commas. -/
def serializeMembers (pf : Platform ν) : List (Bytes × Json ν) → Bytes
  | [] => []
  | (k, v) :: o =>
    serializeStr k ++ ':'.toUInt8 :: (serialize pf v ++
      (if o.isEmpty then [] else ','.toUInt8 :: serializeMembers pf o))

end

end Picojson

end Neof5
