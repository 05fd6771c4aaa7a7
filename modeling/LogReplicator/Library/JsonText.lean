import Mathlib.Tactic

/-!
# Objects of strings as JSON text

The compact form in which `json.Marshal` writes an object whose members are
strings, and a reader for that form.  Strings are escaped the way Go does it by
default: quotes, backslashes and control characters, the characters `<`, `>`
and `&`, and the two Unicode line separators.

Text is a list of characters; `utf8` and `decodeUtf8` relate it to bytes.
-/

namespace LogReplicator
namespace Library
namespace JsonText

section Utf8

/-- The UTF-8 bytes of a text. -/
def utf8 (cs : List Char) : List UInt8 :=
  cs.flatMap String.utf8EncodeChar

/-- The payload of a continuation byte. -/
def tail6 (b : UInt8) : Nat :=
  b.toNat - 0x80

/-- Read UTF-8; `none` when the last sequence is cut short. -/
def decodeUtf8 : List UInt8 → Option (List Char)
  | [] => some []
  | b :: bs =>
      if b.toNat < 0x80 then
        (decodeUtf8 bs).map (Char.ofNat b.toNat :: ·)
      else if b.toNat < 0xe0 then
        match bs with
        | b1 :: bs =>
            (decodeUtf8 bs).map
              (Char.ofNat ((b.toNat - 0xc0) * 64 + tail6 b1) :: ·)
        | _ => none
      else if b.toNat < 0xf0 then
        match bs with
        | b1 :: b2 :: bs =>
            (decodeUtf8 bs).map
              (Char.ofNat
                ((b.toNat - 0xe0) * 4096 + tail6 b1 * 64 + tail6 b2) :: ·)
        | _ => none
      else
        match bs with
        | b1 :: b2 :: b3 :: bs =>
            (decodeUtf8 bs).map
              (Char.ofNat
                ((b.toNat - 0xf0) * 262144 + tail6 b1 * 4096 + tail6 b2 * 64 +
                  tail6 b3) :: ·)
        | _ => none

theorem toNat_ofNat
    {k : Nat} (hk : k < 256) :
    (UInt8.ofNat k).toNat = k := by
  simp [UInt8.toNat_ofNat', Nat.mod_eq_of_lt hk]

section Decode

variable {b b1 b2 b3 : UInt8} {bs : List UInt8}

theorem decodeUtf8_one
    (h : b.toNat < 0x80) :
    decodeUtf8 (b :: bs) = (decodeUtf8 bs).map (Char.ofNat b.toNat :: ·) := by
  rw [decodeUtf8.eq_def]
  simp only [h, if_true]

theorem decodeUtf8_two
    (h : 0x80 ≤ b.toNat) (h' : b.toNat < 0xe0) :
    decodeUtf8 (b :: b1 :: bs) =
      (decodeUtf8 bs).map
        (Char.ofNat ((b.toNat - 0xc0) * 64 + tail6 b1) :: ·) := by
  rw [decodeUtf8.eq_def]
  simp only [Nat.not_lt.mpr h, h', if_true, if_false]

theorem decodeUtf8_three
    (h : 0xe0 ≤ b.toNat) (h' : b.toNat < 0xf0) :
    decodeUtf8 (b :: b1 :: b2 :: bs) =
      (decodeUtf8 bs).map
        (Char.ofNat
          ((b.toNat - 0xe0) * 4096 + tail6 b1 * 64 + tail6 b2) :: ·) := by
  have h'' : ¬ b.toNat < 0x80 := by omega
  rw [decodeUtf8.eq_def]
  simp only [h'', Nat.not_lt.mpr h, h', if_true, if_false]

theorem decodeUtf8_four
    (h : 0xf0 ≤ b.toNat) :
    decodeUtf8 (b :: b1 :: b2 :: b3 :: bs) =
      (decodeUtf8 bs).map
        (Char.ofNat
          ((b.toNat - 0xf0) * 262144 + tail6 b1 * 4096 + tail6 b2 * 64 +
            tail6 b3) :: ·) := by
  have h' : ¬ b.toNat < 0x80 := by omega
  have h'' : ¬ b.toNat < 0xe0 := by omega
  rw [decodeUtf8.eq_def]
  simp only [h', h'', Nat.not_lt.mpr h, if_false]

end Decode

theorem decodeUtf8_encodeChar
    (c : Char) (bs : List UInt8) :
    decodeUtf8 (String.utf8EncodeChar c ++ bs) =
      (decodeUtf8 bs).map (c :: ·) := by
  have hv : c.val.toNat < 0x110000 := by
    rcases c.valid with h | h
    · exact lt_trans h (by decide)
    · exact h.2
  have hc : ∀ k, k = c.val.toNat → Char.ofNat k = c := by
    intro k hk
    subst hk
    exact Char.ofNat_toNat c
  unfold String.utf8EncodeChar
  generalize c.val.toNat = v at hv hc
  -- one case per length of the encoding
  by_cases h1 : v ≤ 0x7f
  · have hb := toNat_ofNat (k := v) (by omega)
    simp only [h1, if_true, List.cons_append, List.nil_append]
    rw [decodeUtf8_one (by omega), hc _ hb]
  by_cases h2 : v ≤ 0x7ff
  · have hb := toNat_ofNat (k := v / 64 % 0x20 + 0xc0) (by omega)
    have hb1 := toNat_ofNat (k := v % 0x40 + 0x80) (by omega)
    simp only [h1, h2, if_true, if_false, List.cons_append, List.nil_append]
    rw [decodeUtf8_two (by omega) (by omega), hc _ (by unfold tail6; omega)]
  by_cases h3 : v ≤ 0xffff
  · have hb := toNat_ofNat (k := v / 4096 % 0x10 + 0xe0) (by omega)
    have hb1 := toNat_ofNat (k := v / 64 % 0x40 + 0x80) (by omega)
    have hb2 := toNat_ofNat (k := v % 0x40 + 0x80) (by omega)
    simp only [h1, h2, h3, if_true, if_false, List.cons_append, List.nil_append]
    rw [decodeUtf8_three (by omega) (by omega), hc _ (by unfold tail6; omega)]
  · have hb := toNat_ofNat (k := v / 262144 % 0x08 + 0xf0) (by omega)
    have hb1 := toNat_ofNat (k := v / 4096 % 0x40 + 0x80) (by omega)
    have hb2 := toNat_ofNat (k := v / 64 % 0x40 + 0x80) (by omega)
    have hb3 := toNat_ofNat (k := v % 0x40 + 0x80) (by omega)
    simp only [h1, h2, h3, if_false, List.cons_append, List.nil_append]
    rw [decodeUtf8_four (by omega), hc _ (by unfold tail6; omega)]

theorem decodeUtf8_utf8
    (cs : List Char) :
    decodeUtf8 (utf8 cs) = some cs := by
  induction cs with
  | nil =>
      rfl
  | cons c cs ih =>
      calc decodeUtf8 (utf8 (c :: cs))
          = decodeUtf8 (String.utf8EncodeChar c ++ utf8 cs) := rfl
        _ = some (c :: cs) := by rw [decodeUtf8_encodeChar, ih, Option.map_some]

end Utf8

section Strings

def hexDigit (k : Nat) : Char :=
  if k < 10 then Char.ofNat (48 + k) else Char.ofNat (87 + k)

def hexValue (c : Char) : Option Nat :=
  if 48 ≤ c.toNat ∧ c.toNat < 58 then some (c.toNat - 48)
  else if 97 ≤ c.toNat ∧ c.toNat < 103 then some (c.toNat - 87)
  else none

/-- The characters that are written as a `u` escape. -/
def hidden (c : Char) : Bool :=
  decide (c.toNat < 0x20) || decide (c ∈ ['<', '>', '&']) ||
    decide (c.toNat = 0x2028) || decide (c.toNat = 0x2029)

/-- One character of a string literal. -/
def escapeChar (c : Char) : List Char :=
  if c = '"' then ['\\', '"']
  else if c = '\\' then ['\\', '\\']
  else if c = '\n' then ['\\', 'n']
  else if c = '\r' then ['\\', 'r']
  else if c = '\t' then ['\\', 't']
  else if hidden c then
    ['\\', 'u', hexDigit (c.toNat / 4096 % 16), hexDigit (c.toNat / 256 % 16),
      hexDigit (c.toNat / 16 % 16), hexDigit (c.toNat % 16)]
  else [c]

/-- The character a short escape stands for. -/
def shortEscape (c : Char) : Option Char :=
  if c = 'n' then some '\n'
  else if c = 'r' then some '\r'
  else if c = 't' then some '\t'
  else if c = '"' ∨ c = '\\' ∨ c = '/' then some c
  else none

/-- The character a `u` escape stands for. -/
def longEscape (c3 c2 c1 c0 : Char) : Option Char := do
  let d3 ← hexValue c3
  let d2 ← hexValue c2
  let d1 ← hexValue c1
  let d0 ← hexValue c0
  pure (Char.ofNat (((d3 * 16 + d2) * 16 + d1) * 16 + d0))

/-- Put a character in front of what `readString` found. -/
def push (c : Char) (r : List Char × List Char) : List Char × List Char :=
  (c :: r.1, r.2)

/-- Read up to the closing quote; the result is the string and what follows. -/
def readString : List Char → Option (List Char × List Char)
  | [] => none
  | c :: cs =>
      if c = '"' then some ([], cs)
      else if c = '\\' then
        match cs with
        | [] => none
        | e :: cs =>
            if e = 'u' then
              match cs with
              | c3 :: c2 :: c1 :: c0 :: cs =>
                  (longEscape c3 c2 c1 c0).bind fun d => (readString cs).map (push d)
              | _ => none
            else (shortEscape e).bind fun d => (readString cs).map (push d)
      else (readString cs).map (push c)

/-- A string literal without its opening quote. -/
def writeString (s : List Char) : List Char :=
  s.flatMap escapeChar ++ ['"']

theorem hexValue_hexDigit
    {k : Nat} (hk : k < 16) :
    hexValue (hexDigit k) = some k := by
  interval_cases k <;> decide

theorem longEscape_of_toNat
    {c : Char} (hc : c.toNat < 65536) :
    longEscape (hexDigit (c.toNat / 4096 % 16)) (hexDigit (c.toNat / 256 % 16))
      (hexDigit (c.toNat / 16 % 16)) (hexDigit (c.toNat % 16)) = some c := by
  have hsum :
      ((c.toNat / 4096 % 16 * 16 + c.toNat / 256 % 16) * 16 +
        c.toNat / 16 % 16) * 16 + c.toNat % 16 = c.toNat := by
    omega
  simp [longEscape, hexValue_hexDigit, Nat.mod_lt, hsum]

theorem toNat_lt_of_hidden
    {c : Char} (h : hidden c = true) :
    c.toNat < 65536 := by
  simp only [hidden, Bool.or_eq_true, decide_eq_true_eq, List.mem_cons,
    List.not_mem_nil, or_false] at h
  rcases h with ((h | rfl | rfl | rfl) | h) | h
  · omega
  · decide
  · decide
  · decide
  · omega
  · omega

theorem readString_escapeChar
    (c : Char) (cs : List Char) :
    readString (escapeChar c ++ cs) = (readString cs).map (push c) := by
  unfold escapeChar
  by_cases h1 : c = '"'
  · subst h1
    rw [readString.eq_def]
    rfl
  by_cases h2 : c = '\\'
  · subst h2
    rw [readString.eq_def]
    rfl
  by_cases h3 : c = '\n'
  · subst h3
    rw [readString.eq_def]
    rfl
  by_cases h4 : c = '\r'
  · subst h4
    rw [readString.eq_def]
    rfl
  by_cases h5 : c = '\t'
  · subst h5
    rw [readString.eq_def]
    rfl
  by_cases h6 : hidden c
  · have hl := longEscape_of_toNat (toNat_lt_of_hidden h6)
    simp only [h1, h2, h3, h4, h5, h6, if_true, if_false, List.cons_append,
      List.nil_append]
    rw [readString.eq_def]
    simp [hl]
  · simp only [h1, h2, h3, h4, h5, h6, if_false]
    rw [readString.eq_def]
    simp [h1, h2]

theorem readString_writeString
    (s cs : List Char) :
    readString (writeString s ++ cs) = some (s, cs) := by
  induction s with
  | nil =>
      rw [readString.eq_def]
      rfl
  | cons c s ih =>
      calc readString (writeString (c :: s) ++ cs)
          = readString (escapeChar c ++ (writeString s ++ cs)) := by
            simp [writeString]
        _ = some (c :: s, cs) := by
            rw [readString_escapeChar, ih]
            rfl

end Strings

section Objects

/-- A member of an object, key first. -/
abbrev Member : Type := String × String

def writeMember (m : Member) : List Char :=
  '"' :: (writeString m.1.toList ++ ':' :: '"' :: writeString m.2.toList)

/-- What follows a member: more members, or the end of the object. -/
def writeMembers : List Member → List Char
  | [] => ['\x7d']
  | m :: ms => ',' :: (writeMember m ++ writeMembers ms)

def writeObject : List Member → List Char
  | [] => ['\x7b', '\x7d']
  | m :: ms => '\x7b' :: (writeMember m ++ writeMembers ms)

def readMember : List Char → Option (Member × List Char)
  | '"' :: cs =>
      match readString cs with
      | some (k, ':' :: '"' :: cs) =>
          (readString cs).map fun r => ((String.ofList k, String.ofList r.1), r.2)
      | _ => none
  | _ => none

/-- Read what follows a member; every member uses up one unit of fuel. -/
def readMembers : Nat → List Char → Option (List Member)
  | 0, _ => none
  | fuel + 1, c :: cs =>
      if c = ',' then
        (readMember cs).bind fun r => (readMembers fuel r.2).map (r.1 :: ·)
      else if c = '\x7d' ∧ cs = [] then some []
      else none
  | _ + 1, [] => none

def readObject (cs : List Char) : Option (List Member) :=
  match cs with
  | '\x7b' :: cs =>
      if cs = ['\x7d'] then some []
      else (readMember cs).bind fun r =>
        (readMembers (cs.length + 1) r.2).map (r.1 :: ·)
  | _ => none

theorem readMember_writeMember
    (m : Member) (cs : List Char) :
    readMember (writeMember m ++ cs) = some (m, cs) := by
  simp [readMember, writeMember, List.append_assoc, readString_writeString]

theorem readMembers_writeMembers
    (ms : List Member) (fuel : Nat)
    (h : ms.length < fuel) :
    readMembers fuel (writeMembers ms) = some ms := by
  induction ms generalizing fuel with
  | nil =>
      obtain ⟨k, rfl⟩ : ∃ k, fuel = k + 1 := ⟨fuel - 1, by simp at h; omega⟩
      simp [readMembers, writeMembers]
  | cons m ms ih =>
      obtain ⟨k, rfl⟩ : ∃ k, fuel = k + 1 := ⟨fuel - 1, by simp at h; omega⟩
      have hk := ih k (by simpa using h)
      simp [readMembers, writeMembers, readMember_writeMember, hk]

theorem length_le_writeMembers
    (ms : List Member) :
    ms.length ≤ (writeMembers ms).length := by
  induction ms with
  | nil =>
      simp [writeMembers]
  | cons m ms ih =>
      simp only [writeMembers, List.length_cons, List.length_append]
      omega

/-- What is written is read back. -/
theorem readObject_writeObject
    (ms : List Member) :
    readObject (writeObject ms) = some ms := by
  cases ms with
  | nil =>
      rfl
  | cons m ms =>
      have hfuel := readMembers_writeMembers ms
        ((writeMember m ++ writeMembers ms).length + 1) (by
          have := length_le_writeMembers ms
          simp only [List.length_append]
          omega)
      have hne : writeMember m ++ writeMembers ms ≠ ['\x7d'] := by
        simp [writeMember]
      simp [readObject, writeObject, hne, readMember_writeMember, -List.length_append,
        hfuel]

end Objects

end JsonText
end Library
end LogReplicator
