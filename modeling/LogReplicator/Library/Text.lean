import Mathlib.Tactic

/-!
# Text as bytes

The string functions of a language whose strings are byte sequences: trimming white
space, cutting at a separator, and reading and writing decimal numbers of 64 bits.
White space is what Unicode calls so, in its UTF-8 encoding; bytes that are not valid
UTF-8 are not white space.
-/

namespace LogReplicator
namespace Library
namespace Text

/-- The bytes of an ASCII literal. -/
def ascii (s : String) : List UInt8 :=
  s.toList.map fun c => UInt8.ofNat c.toNat

section Trim

/-- The encodings of the white space characters: U+0009 to U+000D, U+0020, U+0085,
U+00A0, U+1680, U+2000 to U+200A, U+2028, U+2029, U+202F, U+205F and U+3000. -/
def spaces : List (List UInt8) :=
  [[0x09], [0x0A], [0x0B], [0x0C], [0x0D], [0x20], [0xC2, 0x85], [0xC2, 0xA0],
    [0xE1, 0x9A, 0x80], [0xE2, 0x80, 0x80], [0xE2, 0x80, 0x81], [0xE2, 0x80, 0x82],
    [0xE2, 0x80, 0x83], [0xE2, 0x80, 0x84], [0xE2, 0x80, 0x85], [0xE2, 0x80, 0x86],
    [0xE2, 0x80, 0x87], [0xE2, 0x80, 0x88], [0xE2, 0x80, 0x89], [0xE2, 0x80, 0x8A],
    [0xE2, 0x80, 0xA8], [0xE2, 0x80, 0xA9], [0xE2, 0x80, 0xAF], [0xE2, 0x81, 0x9F],
    [0xE3, 0x80, 0x80]]

/-- Strip words from the front, at most `fuel` of them. -/
def stripWords (words : List (List UInt8)) : Nat → List UInt8 → List UInt8
  | 0, s => s
  | fuel + 1, s =>
      match words.find? fun w => w.isPrefixOf s with
      | none => s
      | some w => stripWords words fuel (s.drop w.length)

def trimLeft (s : List UInt8) : List UInt8 :=
  stripWords spaces s.length s

def trimRight (s : List UInt8) : List UInt8 :=
  (stripWords (spaces.map List.reverse) s.length s.reverse).reverse

/-- `strings.TrimSpace`. -/
def trimSpace (s : List UInt8) : List UInt8 :=
  trimRight (trimLeft s)

variable {words : List (List UInt8)} {b : UInt8} {s : List UInt8}

/-- A byte that is in none of the words is not stripped. -/
theorem mem_stripWords
    (hwords : ∀ w ∈ words, b ∉ w)
    (fuel : Nat) (hb : b ∈ s) :
    b ∈ stripWords words fuel s := by
  induction fuel generalizing s with
  | zero =>
      exact hb
  | succ fuel ih =>
      unfold stripWords
      split
      · exact hb
      · next w hfind =>
          have hword := List.mem_of_find?_eq_some hfind
          have hfront : w.isPrefixOf s = true :=
            List.find?_some (p := fun w : List UInt8 => w.isPrefixOf s) hfind
          obtain ⟨rest, rfl⟩ := List.isPrefixOf_iff_prefix.mp hfront
          rw [List.drop_left]
          exact ih ((List.mem_append.mp hb).resolve_left (hwords w hword))

theorem mem_trimSpace
    (hspace : ∀ w ∈ spaces, b ∉ w)
    (hb : b ∈ s) :
    b ∈ trimSpace s := by
  have hspace' : ∀ w ∈ spaces.map List.reverse, b ∉ w := by
    intro w hw hmem
    obtain ⟨w', hw', rfl⟩ := List.mem_map.mp hw
    exact hspace w' hw' (List.mem_reverse.mp hmem)
  have hleft : b ∈ trimLeft s := mem_stripWords hspace _ hb
  exact List.mem_reverse.mpr (mem_stripWords hspace' _ (List.mem_reverse.mpr hleft))

end Trim

section Pieces

/-- `strings.Split` at a single byte. -/
def split (sep : UInt8) (s : List UInt8) : List (List UInt8) :=
  s.splitOn sep

/-- `strings.Cut` at a single byte: what is before its first occurrence, what is after
it, and whether there is one. -/
def cut (sep : UInt8) (s : List UInt8) : List UInt8 × List UInt8 × Bool :=
  if sep ∈ s then
    (s.takeWhile fun b => b ≠ sep, (s.dropWhile fun b => b ≠ sep).tail, true)
  else
    (s, [], false)

theorem split_of_notMem
    {sep : UInt8} {s : List UInt8} (h : sep ∉ s) :
    split sep s = [s] := by
  unfold split List.splitOn
  induction s with
  | nil =>
      rfl
  | cons b s ih =>
      rw [List.mem_cons, not_or] at h
      rw [List.splitOnP_cons_eq_if_modifyHead, if_neg (by simpa using Ne.symm h.1), ih h.2]
      rfl

/-- Two fields with a separator between them can be told apart when the separator is
not in the first one. -/
theorem append_cons_inj
    {sep : UInt8} {s s' t t' : List UInt8}
    (hs : sep ∉ s) (hs' : sep ∉ s')
    (h : s ++ sep :: t = s' ++ sep :: t') :
    s = s' ∧ t = t' := by
  have hfield : ∀ (u v : List UInt8), sep ∉ u →
      (u ++ sep :: v).takeWhile (fun b => b ≠ sep) = u := by
    intro u v hu
    have hall : ∀ b ∈ u, decide (b ≠ sep) = true := fun b hb =>
      decide_eq_true fun heq => hu (heq ▸ hb)
    rw [List.takeWhile_append_of_pos hall, List.takeWhile_cons]
    simp
  have heq : s = s' := by
    rw [← hfield s t hs, h, hfield s' t' hs']
  subst heq
  exact ⟨rfl, (List.cons.inj (List.append_cancel_left h)).2⟩

end Pieces

section Numbers

/-- The value of a decimal digit. -/
def digit (b : UInt8) : Option Nat :=
  if 48 ≤ b.toNat ∧ b.toNat ≤ 57 then some (b.toNat - 48) else none

/-- One more digit of a number. -/
def addDigit (acc : Nat) (b : UInt8) : Option Nat :=
  (digit b).map (10 * acc + ·)

/-- A non-empty sequence of decimal digits. -/
def parseDigits (s : List UInt8) : Option Nat :=
  if s = [] then none else s.foldlM addDigit 0

/-- `strconv.ParseUint` with base 10 and 64 bits. -/
def parseUint (s : List UInt8) : Option Nat :=
  (parseDigits s).filter fun n => decide (n < 2 ^ 64)

/-- `strconv.Atoi`, where an `int` has 64 bits. -/
def atoi (s : List UInt8) : Option Int :=
  match s with
  | 43 :: rest => ((parseDigits rest).filter fun n => decide (n < 2 ^ 63)).map Int.ofNat
  | 45 :: rest =>
      ((parseDigits rest).filter fun n => decide (n ≤ 2 ^ 63)).map fun n => - (n : Int)
  | s => ((parseDigits s).filter fun n => decide (n < 2 ^ 63)).map Int.ofNat

/-- `strconv.FormatUint` with base 10. -/
def formatUint (n : Nat) : List UInt8 :=
  (Nat.toDigits 10 n).map fun c => UInt8.ofNat c.toNat

theorem formatUint_of_lt
    {d : Nat} (hd : d < 10) :
    formatUint d = [UInt8.ofNat (48 + d)] := by
  interval_cases d <;> rfl

theorem formatUint_of_le
    {n : Nat} (hn : 10 ≤ n) :
    formatUint n = formatUint (n / 10) ++ formatUint (n % 10) := by
  have hmod : n % 10 < 10 := Nat.mod_lt _ (by omega)
  rw [formatUint, Nat.toDigits_of_base_le (by omega) hn, List.map_append, formatUint,
    formatUint, Nat.toDigits_of_lt_base hmod]

theorem formatUint_ne_nil
    (n : Nat) :
    formatUint n ≠ [] := by
  simp [formatUint, Nat.toDigits_ne_nil]

theorem foldlM_formatUint
    (n : Nat) :
    (formatUint n).foldlM addDigit 0 = some n := by
  induction n using Nat.strong_induction_on with
  | _ n ih =>
      rcases lt_or_ge n 10 with hlt | hge
      · interval_cases n <;> rfl
      · have hmod : n % 10 < 10 := Nat.mod_lt _ (by omega)
        have hdigit : addDigit (n / 10) (UInt8.ofNat (48 + n % 10)) = some n := by
          have hnat : (UInt8.ofNat (48 + n % 10)).toNat = 48 + n % 10 := by
            rw [UInt8.toNat_ofNat']
            omega
          rw [addDigit, digit, hnat, if_pos (by omega), Option.map_some]
          congr 1
          omega
        rw [formatUint_of_le hge, List.foldlM_append, ih (n / 10) (by omega),
          formatUint_of_lt hmod, Option.bind_eq_bind, Option.bind_some, List.foldlM_cons,
          hdigit]
        rfl

/-- A number that is written is read back. -/
theorem parseDigits_formatUint
    (n : Nat) :
    parseDigits (formatUint n) = some n := by
  rw [parseDigits, if_neg (formatUint_ne_nil n), foldlM_formatUint]

theorem formatUint_injective :
    Function.Injective formatUint := by
  intro n n' h
  have := parseDigits_formatUint n
  rw [h, parseDigits_formatUint] at this
  exact (Option.some.inj this).symm

/-- Only digits are written. -/
theorem digit_of_mem_formatUint
    {n : Nat} {b : UInt8} (hb : b ∈ formatUint n) :
    48 ≤ b.toNat ∧ b.toNat ≤ 57 := by
  induction n using Nat.strong_induction_on with
  | _ n ih =>
      rcases lt_or_ge n 10 with hlt | hge
      · rw [formatUint_of_lt hlt, List.mem_singleton] at hb
        rw [hb, UInt8.toNat_ofNat']
        omega
      · rw [formatUint_of_le hge, List.mem_append] at hb
        have hmod : n % 10 < 10 := Nat.mod_lt _ (by omega)
        exact hb.elim (ih (n / 10) (by omega)) (ih (n % 10) (by omega))

end Numbers

end Text
end Library
end LogReplicator
