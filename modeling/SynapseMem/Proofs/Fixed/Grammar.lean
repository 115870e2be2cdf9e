import Mathlib.Data.Nat.Digits.Defs
import SynapseMem.Proofs.Fixed.Tokens
import SynapseMem.Proofs.Lists

/-!
# The grammar of tokens

`Text.Spells token n` says what a token is without regard to how it is read: blanks, the mark `0x`
or `0X` or none, a plus sign or none, at least one digit, and blanks. The number `n` is that of the
digits in base 16, with no bound. `Text.SpellsNothing` has blanks and at most the mark.

`QFormat.decode` follows this grammar. A token that spells a number is read, or refused for the size
of the number (`QFormat.decode_of_spells`). One that spells nothing is empty
(`QFormat.decode_of_spellsNothing`), and every other one is no hexadecimal number
(`QFormat.decode_of_not_spells`).
-/

namespace SynapseMem

namespace Text

/-! ### Digits and numerals -/

/-- `c` is the hexadecimal digit of value `d`, in lower or upper case. -/
def DigitOf (c : Char) (d : ℕ) : Prop :=
  "0123456789abcdef".toList[d]? = some c ∨ "0123456789ABCDEF".toList[d]? = some c

/-- The digits, most significant first, write `n` in base 16. -/
def Numeral (digits : List Char) (n : ℕ) : Prop :=
  ∃ values, List.Forall₂ DigitOf digits.reverse values ∧ n = Nat.ofDigits 16 values

/-- The digits of the two alphabets are the characters with a value. -/
theorem digitOf_iff {c : Char} {d : ℕ} : DigitOf c d ↔ hexValue? c = some d := by
  constructor
  · intro h
    have hd : d < 16 := by
      by_contra hge
      simp [DigitOf, not_lt.1 hge] at h
    rcases h with h | h <;> interval_cases d <;> cases h <;> rfl
  · intro h
    have hc : c = Char.ofNat c.toNat := (Char.ofNat_toNat c).symm
    simp only [hexValue?] at h
    generalize c.toNat = n at h hc
    subst hc
    -- a range of codes for each run of digits
    split_ifs at h with hdigit hupper hlower
    · obtain ⟨hlow, hhigh⟩ := hdigit
      cases h
      interval_cases n <;> exact .inl rfl
    · obtain ⟨hlow, hhigh⟩ := hupper
      cases h
      interval_cases n <;> exact .inr rfl
    · obtain ⟨hlow, hhigh⟩ := hlower
      cases h
      interval_cases n <;> exact .inl rfl

/-- The fold over the digits finds the number that they write. -/
theorem numeral_iff {cs : List Char} {n : ℕ} : Numeral cs n ↔ hexNumber? cs = some n := by
  induction cs using List.reverseRecOn generalizing n with
  | nil => simp [Numeral, hexNumber?, eq_comm]
  | append_singleton cs c ih =>
    rw [hexNumber?_concat, Option.bind_eq_some_iff]
    simp only [Option.map_eq_some_iff, ← ih, ← digitOf_iff, Numeral, List.reverse_append,
      List.reverse_singleton, List.singleton_append, List.forall₂_cons_left_iff]
    constructor
    · rintro ⟨_, ⟨d, values, hd, hvalues, rfl⟩, rfl⟩
      exact ⟨_, ⟨values, hvalues, rfl⟩, d, hd, by rw [Nat.ofDigits_cons, add_comm]⟩
    · rintro ⟨_, ⟨values, hvalues, rfl⟩, d, hd, rfl⟩
      exact ⟨_, ⟨d, values, hd, hvalues, rfl⟩, by rw [Nat.ofDigits_cons, add_comm]⟩

theorem Numeral.isHexDigit {digits : List Char} {n : ℕ} (h : Numeral digits n) :
    ∀ c ∈ digits, IsHexDigit c := by
  obtain ⟨values, hvalues, -⟩ := h
  intro c hc
  exact forall_right_of_forall₂ hvalues.flip (fun d c hd => ⟨d, digitOf_iff.1 hd⟩) c
    (List.mem_reverse.2 hc)

/-! ### Tokens -/

/-- The mark of a token, or none. -/
def IsMark (mark : List Char) : Prop := mark = [] ∨ mark = ['0', 'x'] ∨ mark = ['0', 'X']

/-- A plus sign, or none. -/
def IsSign (sign : List Char) : Prop := sign = [] ∨ sign = ['+']

/-- Tokens and the numbers that they spell. -/
inductive Spells : List Char → ℕ → Prop
  | parts {before mark sign digits after : List Char} {n : ℕ}
      (hbefore : ∀ c ∈ before, isBlank c = true) (hmark : IsMark mark) (hsign : IsSign sign)
      (hne : digits ≠ []) (hdigits : Numeral digits n) (hafter : ∀ c ∈ after, isBlank c = true) :
      Spells (before ++ (mark ++ (sign ++ digits)) ++ after) n

/-- Texts of blanks and at most a mark. -/
inductive SpellsNothing : List Char → Prop
  | parts {before mark after : List Char} (hbefore : ∀ c ∈ before, isBlank c = true)
      (hmark : IsMark mark)
      (hafter : ∀ c ∈ after, isBlank c = true) : SpellsNothing (before ++ mark ++ after)

theorem IsMark.isBlank {mark : List Char} (h : IsMark mark) : ∀ c ∈ mark, isBlank c = false := by
  rcases h with rfl | rfl | rfl <;> simp [Text.isBlank]

theorem IsSign.isBlank {sign : List Char} (h : IsSign sign) : ∀ c ∈ sign, isBlank c = false := by
  rcases h with rfl | rfl <;> simp [Text.isBlank]

/-- Trimming takes blanks from both ends. -/
theorem exists_blanks_trimChars (cs : List Char) :
    ∃ before after, (∀ c ∈ before, isBlank c = true) ∧ (∀ c ∈ after, isBlank c = true) ∧
      cs = before ++ trimChars cs ++ after := by
  refine ⟨cs.takeWhile isBlank, ((cs.dropWhile isBlank).reverse.takeWhile isBlank).reverse,
    fun c hc => List.mem_takeWhile_imp hc,
    fun c hc => List.mem_takeWhile_imp (List.mem_reverse.1 hc), ?_⟩
  rw [trimChars, List.append_assoc, ← List.reverse_append, List.takeWhile_append_dropWhile,
    List.reverse_reverse, List.takeWhile_append_dropWhile]

end Text

open Text

/-! ### Taking a token apart -/

/-- A mark is taken away once. -/
theorem exists_mark_dropHexMark (cs : List Char) :
    ∃ mark, IsMark mark ∧ cs = mark ++ dropHexMark cs := by
  unfold dropHexMark
  split
  · exact ⟨['0', 'x'], .inr (.inl rfl), rfl⟩
  · exact ⟨['0', 'X'], .inr (.inr rfl), rfl⟩
  · exact ⟨[], .inl rfl, rfl⟩

theorem dropHexMark_mark_append {mark rest : List Char} (hmark : IsMark mark)
    (hrest : dropHexMark rest = rest) : dropHexMark (mark ++ rest) = rest := by
  rcases hmark with rfl | rfl | rfl
  · exact hrest
  · rfl
  · rfl

/-- After a plus sign, or digits alone, no mark is found. -/
theorem dropHexMark_sign_digits {sign digits : List Char} {n : ℕ} (hsign : IsSign sign)
    (hdigits : Numeral digits n) : dropHexMark (sign ++ digits) = sign ++ digits := by
  rcases hsign with rfl | rfl
  · exact dropHexMark_of_digits hdigits.isHexDigit
  · rfl

/-- A 64-bit word in hexadecimal digits, without a sign. -/
def digitsWord? (digits : List Char) : Option UInt64 :=
  if digits.isEmpty then none
  else ((hexNumber? digits).filter (· < 18446744073709551616)).map UInt64.ofNat

/-- A plus sign is taken away once, and the rest is read as digits. -/
theorem exists_sign_hexWord? (cs : List Char) :
    ∃ sign digits, IsSign sign ∧ cs = sign ++ digits ∧ hexWord? cs = digitsWord? digits := by
  unfold hexWord?
  split
  · rename_i digits
    exact ⟨['+'], digits, .inr rfl, rfl, rfl⟩
  · exact ⟨[], cs, .inl rfl, rfl, rfl⟩

theorem hexWord?_sign_append {sign digits : List Char} {n : ℕ} (hsign : IsSign sign)
    (hdigits : Numeral digits n) : hexWord? (sign ++ digits) = digitsWord? digits := by
  rcases hsign with rfl | rfl
  · unfold hexWord?
    rw [List.nil_append]
    split
    · exact absurd (hdigits.isHexDigit '+' (by simp)) not_isHexDigit_plus
    · rfl
  · rfl

/-- Digits are read as far as 64 bits go. -/
theorem digitsWord?_of_numeral {digits : List Char} {n : ℕ} (hne : digits ≠ [])
    (hdigits : Numeral digits n) :
    digitsWord? digits = if n < 2 ^ 64 then some (UInt64.ofNat n) else none := by
  rw [digitsWord?, if_neg (by simpa using hne), numeral_iff.1 hdigits, Option.filter_some]
  by_cases hlt : n < 2 ^ 64
  · rw [if_pos (by simpa using hlt), if_pos hlt, Option.map_some]
  · rw [if_neg (by simpa using hlt), if_neg hlt, Option.map_none]

/-- Only digits are read. -/
theorem exists_numeral_of_digitsWord? {digits : List Char} {raw : UInt64}
    (h : digitsWord? digits = some raw) : digits ≠ [] ∧ ∃ n, Numeral digits n := by
  unfold digitsWord? at h
  split_ifs at h with hempty
  obtain ⟨n, hn, -⟩ := Option.map_eq_some_iff.1 h
  exact ⟨by simpa using hempty, n, numeral_iff.2 (Option.filter_eq_some_iff.1 hn).1⟩

/-- Every text has the parts of a token, save that what stands in the place of the digits may be
anything. -/
theorem exists_parts (cs : List Char) :
    ∃ before mark sign digits after, (∀ c ∈ before, isBlank c = true) ∧ IsMark mark ∧ IsSign sign ∧
      (∀ c ∈ after, isBlank c = true) ∧ cs = before ++ (mark ++ (sign ++ digits)) ++ after ∧
      dropHexMark (trimChars cs) = sign ++ digits ∧
        hexWord? (sign ++ digits) = digitsWord? digits := by
  obtain ⟨before, after, hbefore, hafter, hcs⟩ := exists_blanks_trimChars cs
  obtain ⟨mark, hmark, htrimmed⟩ := exists_mark_dropHexMark (trimChars cs)
  obtain ⟨sign, digits, hsign, hrest, hread⟩ := exists_sign_hexWord? (dropHexMark (trimChars cs))
  rw [hrest] at htrimmed hread
  rw [htrimmed] at hcs
  exact ⟨before, mark, sign, digits, after, hbefore, hmark, hsign, hafter, hcs, hrest, hread⟩

/-! ### Reading a token -/

namespace QFormat

variable {q : QFormat} {token : String}

/-- A text of blanks and at most a mark is the empty token. -/
theorem decode_of_spellsNothing (h : SpellsNothing token.toList) :
    q.decode token = .error .empty := by
  generalize htoken : token.toList = cs at h
  obtain ⟨hbefore, hmark, hafter⟩ := h
  have hdrop := dropHexMark_mark_append hmark (show dropHexMark [] = [] from rfl)
  rw [List.append_nil] at hdrop
  simp only [decode, htoken, trimChars_blanks hbefore hmark.isBlank hafter, hdrop]
  rfl

/-- A token that spells a number is read when the number is one of the format. Up to 64 bits it is
too wide, and beyond them it is no number at all. -/
theorem decode_of_spells {n : ℕ} (h : Spells token.toList n) :
    q.decode token =
      if n < 2 ^ q.totalBits then .ok ⟨UInt64.ofNat n, q⟩
      else if n < 2 ^ 64 then .error (.tooWide (trim token) q)
      else .error (.invalidHex (trim token)) := by
  generalize htoken : token.toList = cs at h
  obtain @⟨before, mark, sign, digits, after, n, hbefore, hmark, hsign, hne, hdigits, hafter⟩ := h
  have hsolid : ∀ c ∈ mark ++ (sign ++ digits), isBlank c = false := by
    simp only [List.forall_mem_append]
    exact ⟨hmark.isBlank, hsign.isBlank,
      fun c hc => IsTokenChar.isBlank (.inl (hdigits.isHexDigit c hc))⟩
  have htrim := trimChars_blanks hbefore hsolid hafter
  have hdrop := dropHexMark_mark_append hmark (dropHexMark_sign_digits hsign hdigits)
  have hread := (hexWord?_sign_append hsign hdigits).trans (digitsWord?_of_numeral hne hdigits)
  simp only [decode, trim, htoken, htrim, hdrop, hread]
  rw [if_neg (by simp [hne])]
  by_cases hlt : n < 2 ^ 64
  · have hraw : (UInt64.ofNat n).toNat = n := UInt64.toNat_ofNat_of_lt' hlt
    simp only [if_pos hlt]
    split_ifs with hfits
    · rw [Word.ofRaw_eq_ok_iff.2 ⟨hraw.symm ▸ hfits, rfl⟩]
    · rw [Word.ofRaw_of_le (by rw [hraw]; exact not_lt.1 hfits)]
  · simp only [if_neg hlt,
      if_neg fun hfits : n < 2 ^ q.totalBits => hlt (hfits.trans_le q.two_pow_totalBits_le)]

/-- What spells neither a number nor nothing is no number. -/
theorem decode_of_not_spells (hnothing : ¬ SpellsNothing token.toList)
    (h : ∀ n, ¬ Spells token.toList n) : q.decode token = .error (.invalidHex (trim token)) := by
  obtain ⟨before, mark, sign, digits, after, hbefore, hmark, hsign, hafter, htoken, hdrop, hread⟩ :=
    exists_parts token.toList
  have hne : sign ++ digits ≠ [] := by
    intro hnil
    rw [htoken, hnil, List.append_nil] at hnothing
    exact hnothing (.parts hbefore hmark hafter)
  have hnone : digitsWord? digits = none := by
    cases hword : digitsWord? digits with
    | none => rfl
    | some raw =>
      obtain ⟨hdigits, n, hn⟩ := exists_numeral_of_digitsWord? hword
      exact absurd (htoken ▸ Spells.parts hbefore hmark hsign hdigits hn hafter) (h n)
  simp only [decode, hdrop, hread, hnone]
  rw [if_neg (by simpa using hne)]
  rfl

/-- How a token is read, by what it spells. -/
inductive Reading (q : QFormat) (token : String) : Except TokenError Word → Prop
  | word {n : ℕ} (h : Spells token.toList n) (hfits : n < 2 ^ q.totalBits) :
      Reading q token (.ok ⟨UInt64.ofNat n, q⟩)
  | empty (h : SpellsNothing token.toList) : Reading q token (.error .empty)
  | tooWide {n : ℕ} (h : Spells token.toList n) (hwide : 2 ^ q.totalBits ≤ n) (hlt : n < 2 ^ 64) :
      Reading q token (.error (.tooWide (trim token) q))
  | invalidHex (hnothing : ¬ SpellsNothing token.toList)
      (hlarge : ∀ n, Spells token.toList n → 2 ^ 64 ≤ n) :
      Reading q token (.error (.invalidHex (trim token)))

/-- Every token is read by what it spells. -/
theorem reading_decode (q : QFormat) (token : String) : Reading q token (q.decode token) := by
  by_cases hnothing : SpellsNothing token.toList
  · rw [decode_of_spellsNothing hnothing]
    exact .empty hnothing
  · by_cases hspells : ∃ n, Spells token.toList n
    · obtain ⟨n, hn⟩ := hspells
      have hdecode := decode_of_spells (q := q) hn
      split_ifs at hdecode with hfits hlt <;> rw [hdecode]
      · exact .word hn hfits
      · exact .tooWide hn (not_lt.1 hfits) hlt
      · -- a second number would be read in another way
        refine .invalidHex hnothing fun m hm => not_lt.1 fun hlt' => ?_
        rw [decode_of_spells hm] at hdecode
        split_ifs at hdecode
        simp at hdecode
    · have hnone := not_exists.1 hspells
      rw [decode_of_not_spells hnothing hnone]
      exact .invalidHex hnothing fun n hn => absurd hn (hnone n)

/-- A token is read exactly when it spells a number of the format, and stands for that number. It is
empty exactly when it spells nothing, too wide exactly when its number has more bits than the format
but not more than 64, and no number in all other cases, a number of more than 64 bits among them. -/
theorem decode_follows_grammar (q : QFormat) (token : String) :
    (∀ w, q.decode token = .ok w ↔
      ∃ n, Spells token.toList n ∧ n ≤ 2 ^ q.totalBits - 1 ∧ w.raw.toNat = n ∧ w.format = q) ∧
    (q.decode token = .error .empty ↔ SpellsNothing token.toList) ∧
    (∀ text format, q.decode token = .error (.tooWide text format) ↔
      (∃ n, Spells token.toList n ∧ 2 ^ q.totalBits ≤ n ∧ n ≤ 2 ^ 64 - 1) ∧ text = trim token ∧
      format = q) ∧
    (q.totalBits = 64 → ∀ text format, q.decode token ≠ .error (.tooWide text format)) ∧
    (∀ text, q.decode token = .error (.invalidHex text) ↔
      (¬ SpellsNothing token.toList ∧ ∀ n, Spells token.toList n → 2 ^ 64 ≤ n) ∧
      text = trim token) ∧
    (∀ text, q.decode token ≠ .error (.unknownStyle text)) := by
  have hread := reading_decode q token
  refine ⟨fun w => ⟨fun h => ?_, ?_⟩, ⟨fun h => ?_, decode_of_spellsNothing⟩,
    fun text format => ⟨fun h => ?_, ?_⟩, fun hfull text format h => ?_,
    fun text => ⟨fun h => ?_, ?_⟩, fun text h => ?_⟩
  · rw [h] at hread
    cases hread with
    | @word n hn hfits =>
      exact ⟨n, hn, Nat.le_sub_one_of_lt hfits,
        UInt64.toNat_ofNat_of_lt' (hfits.trans_le q.two_pow_totalBits_le), rfl⟩
  · rintro ⟨_, hn, hfits, rfl, rfl⟩
    rw [decode_of_spells hn, if_pos (Nat.lt_of_le_sub_one (by positivity) hfits),
      UInt64.ofNat_toNat]
  · rw [h] at hread
    cases hread with
    | empty hnothing => exact hnothing
  · rw [h] at hread
    cases hread with
    | @tooWide n hn hwide hlt => exact ⟨⟨n, hn, hwide, Nat.le_sub_one_of_lt hlt⟩, rfl, rfl⟩
  · rintro ⟨⟨n, hn, hwide, hle⟩, rfl, rfl⟩
    rw [decode_of_spells hn, if_neg (not_lt.2 hwide),
      if_pos (Nat.lt_of_le_sub_one (by norm_num) hle)]
  · rw [h] at hread
    cases hread with
    | tooWide hn hwide hlt =>
      rw [hfull] at hwide
      exact absurd hlt (not_lt.2 hwide)
  · rw [h] at hread
    cases hread with
    | invalidHex hnothing hlarge => exact ⟨⟨hnothing, hlarge⟩, rfl⟩
  · rintro ⟨⟨hnothing, hlarge⟩, rfl⟩
    generalize q.decode token = result at hread ⊢
    cases hread with
    | word hn hfits => exact absurd (hfits.trans_le q.two_pow_totalBits_le) (not_lt.2 (hlarge _ hn))
    | empty h => exact absurd h hnothing
    | tooWide hn hwide hlt => exact absurd hlt (not_lt.2 (hlarge _ hn))
    | invalidHex => rfl
  · rw [h] at hread
    cases hread

/-- A token with all its parts between blanks is read in `Q2.14`. In a format of 64 bits no token is
too wide. -/
theorem decode_follows_grammar_all_parts :
    Spells "\u3000 0X+00fF\n".toList 255 ∧ q2_14.decode "\u3000 0X+00fF\n" = .ok ⟨255, q2_14⟩ ∧
    (QFormat.mk 1 63 (by decide) (by decide)).totalBits = 64 ∧
    ∀ text format, (QFormat.mk 1 63 (by decide) (by decide)).decode "10000000000000000" ≠
      .error (.tooWide text format) := by
  have hspells : Spells "\u3000 0X+00fF\n".toList 255 := by
    refine @Spells.parts ['\u3000', ' '] ['0', 'X'] ['+'] ['0', '0', 'f', 'F'] ['\n'] 255 ?_
      (.inr (.inr rfl)) (.inr rfl) (by simp) ?_ ?_
    · exact List.all_eq_true.1 (by decide)
    · exact numeral_iff.2 rfl
    · exact List.all_eq_true.1 (by decide)
  refine ⟨hspells, ?_, rfl, (decode_follows_grammar _ _).2.2.2.1 rfl⟩
  exact ((decode_follows_grammar q2_14 _).1 _).2 ⟨255, hspells, by decide, rfl, rfl⟩

end QFormat

end SynapseMem
