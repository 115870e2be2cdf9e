import Mathlib.Algebra.Order.Floor.Div
import Mathlib.Data.Nat.Digits.Lemmas
import Mathlib.Data.String.Basic
import SynapseMem.Proofs.Fixed.TwosComplement

/-!
# Padded tokens

A padded token has the digits of its word with zeros before them (`HexStyle.paddedDigits`). It is as
long as the padding asks for, unless the word has more digits (`HexStyle.length_paddedText`). Words
of `W` bits have up to one digit for every four bits, so padding to fewer digits leaves tokens of
different lengths and padding to at least as many does not (`HexStyle.uniform_length_iff`).

Among tokens of one length the first digit that differs decides, as it does among numbers
(`Text.map_upperHexDigit_lt_iff`), and the characters of the digits are in the order of their
values.
-/

namespace SynapseMem

namespace Text

/-! ### Hexadecimal digits -/

/-- The digits of a number other than zero, which are listed here from the most significant one
on. -/
theorem hexDigits_eq_reverse {n : ℕ} (hn : n ≠ 0) : hexDigits n = (Nat.digits 16 n).reverse := by
  fun_induction hexDigits n with
  | case1 n hlt => rw [Nat.digits_of_lt 16 n hn hlt, List.reverse_singleton]
  | case2 n hge ih =>
    rw [ih (by omega), Nat.digits_eq_cons_digits_div (b := 16) (by norm_num) hn, List.reverse_cons]

/-- Zero is written with a digit all the same. -/
theorem length_hexDigits (n : ℕ) : (hexDigits n).length = max (Nat.digits 16 n).length 1 := by
  by_cases hn : n = 0
  · simp [hn, hexDigits]
  · have hpos : 0 < (Nat.digits 16 n).length :=
      List.length_pos_iff.2 (Nat.digits_ne_nil_iff_ne_zero.2 hn)
    rw [hexDigits_eq_reverse hn, List.length_reverse]
    omega

theorem ofDigits_hexDigits (n : ℕ) : Nat.ofDigits 16 (hexDigits n).reverse = n := by
  by_cases hn : n = 0
  · simp [hn, hexDigits]
  · rw [hexDigits_eq_reverse hn, List.reverse_reverse, Nat.ofDigits_digits]

theorem upperHexDigit_mem {d : ℕ} (hd : d < 16) : upperHexDigit d ∈ "0123456789ABCDEF".toList := by
  interval_cases d <;> decide

theorem toNat_upperHexDigit {d : ℕ} (hd : d < 16) :
    (upperHexDigit d).toNat = if d < 10 then 48 + d else 55 + d := by
  interval_cases d <;> rfl

/-- The characters of the digits are in the order of their values, the letters after the figures. -/
theorem upperHexDigit_lt_iff {d e : ℕ} (hd : d < 16) (he : e < 16) :
    upperHexDigit d < upperHexDigit e ↔ d < e := by
  show (upperHexDigit d).toNat < (upperHexDigit e).toNat ↔ d < e
  rw [toNat_upperHexDigit hd, toNat_upperHexDigit he]
  split_ifs <;> omega

theorem upperHexDigit_inj {d e : ℕ} (hd : d < 16) (he : e < 16)
    (h : upperHexDigit d = upperHexDigit e) : d = e := by
  have hvalue := hexValue?_upperHexDigit hd
  rw [h, hexValue?_upperHexDigit he] at hvalue
  exact (Option.some.inj hvalue).symm

theorem ofDigits_reverse_lt {ds : List ℕ} (hds : ∀ d ∈ ds, d < 16) :
    Nat.ofDigits 16 ds.reverse < 16 ^ ds.length := by
  rw [← List.length_reverse]
  exact Nat.ofDigits_lt_base_pow_length (by norm_num) (by simpa using hds)

/-- Rows of as many digits are in lexicographic order as the numbers that they write. -/
theorem map_upperHexDigit_lt_iff {ds es : List ℕ} (hlength : ds.length = es.length)
    (hds : ∀ d ∈ ds, d < 16) (hes : ∀ e ∈ es, e < 16) :
    ds.map upperHexDigit < es.map upperHexDigit ↔
      Nat.ofDigits 16 ds.reverse < Nat.ofDigits 16 es.reverse := by
  induction ds generalizing es with
  | nil =>
    obtain rfl := List.length_eq_zero_iff.1 hlength.symm
    simp
  | cons d ds ih =>
    obtain ⟨e, es, rfl⟩ := List.exists_cons_of_length_eq_add_one hlength.symm
    rw [List.length_cons, List.length_cons, Nat.add_right_cancel_iff] at hlength
    rw [List.forall_mem_cons] at hds hes
    have hlow := ofDigits_reverse_lt hds.2
    have hlow' := ofDigits_reverse_lt hes.2
    have heq : upperHexDigit d = upperHexDigit e ↔ d = e :=
      ⟨upperHexDigit_inj hds.1 hes.1, congrArg _⟩
    rw [List.map_cons, List.map_cons, List.cons_lt_cons_iff, upperHexDigit_lt_iff hds.1 hes.1, heq,
      ih hlength hds.2 hes.2, Nat.ofDigits_reverse_cons, Nat.ofDigits_reverse_cons, ← hlength]
    rw [← hlength] at hlow'
    -- the rest of a row counts for less than one of its first digit
    rcases lt_trichotomy d e with hlt | rfl | hgt
    · have hstep : 16 ^ ds.length * (d + 1) ≤ 16 ^ ds.length * e := Nat.mul_le_mul_left _ hlt
      rw [Nat.mul_succ] at hstep
      exact iff_of_true (.inl hlt) (by omega)
    · simp
    · have hstep : 16 ^ ds.length * (e + 1) ≤ 16 ^ ds.length * d := Nat.mul_le_mul_left _ hgt
      rw [Nat.mul_succ] at hstep
      exact iff_of_false (by omega) (by omega)

end Text

namespace HexStyle

/-! ### The digits of a padded token -/

/-- The values of the digits of a padded token. -/
def paddedDigits (digits n : ℕ) : List ℕ :=
  List.replicate (digits - (Text.hexDigits n).length) 0 ++ Text.hexDigits n

variable {digits n : ℕ} {q : QFormat}

theorem toList_paddedText (digits : ℕ) (raw : UInt64) :
    (paddedText digits raw).toList = (paddedDigits digits raw.toNat).map Text.upperHexDigit := by
  rw [paddedText, String.toList_ofList, paddedDigits, List.map_append, List.map_replicate,
    List.length_map]
  rfl

theorem lt_of_mem_paddedDigits {d : ℕ} (h : d ∈ paddedDigits digits n) : d < 16 := by
  rcases List.mem_append.1 h with hzero | hdigit
  · rw [List.eq_of_mem_replicate hzero]
    norm_num
  · exact Text.lt_of_mem_hexDigits hdigit

/-- Zeros in front do not change the number. -/
theorem ofDigits_paddedDigits (digits n : ℕ) :
    Nat.ofDigits 16 (paddedDigits digits n).reverse = n := by
  rw [paddedDigits, List.reverse_append, List.reverse_replicate, Nat.ofDigits_append_replicate_zero,
    Text.ofDigits_hexDigits]

theorem length_paddedDigits (digits n : ℕ) :
    (paddedDigits digits n).length = max (max digits (Nat.digits 16 n).length) 1 := by
  rw [paddedDigits, List.length_append, List.length_replicate, Text.length_hexDigits]
  omega

/-- A token is as long as the padding asks for, but not shorter than its word. -/
theorem length_paddedText (digits : ℕ) (raw : UInt64) :
    (paddedText digits raw).length = max (max digits (Nat.digits 16 raw.toNat).length) 1 := by
  rw [← String.length_toList, toList_paddedText, List.length_map, length_paddedDigits]

/-- Tokens of one length are in the order of their words. -/
theorem paddedText_lt_iff {raw raw' : UInt64}
    (h : (paddedText digits raw).length = (paddedText digits raw').length) :
    paddedText digits raw < paddedText digits raw' ↔ raw < raw' := by
  have hlength : (paddedDigits digits raw.toNat).length =
      (paddedDigits digits raw'.toNat).length := by
    rw [length_paddedDigits, length_paddedDigits, ← length_paddedText, ← length_paddedText, h]
  rw [String.lt_iff_toList_lt, toList_paddedText, toList_paddedText,
    Text.map_upperHexDigit_lt_iff hlength (fun d => lt_of_mem_paddedDigits)
      (fun d => lt_of_mem_paddedDigits),
    ofDigits_paddedDigits, ofDigits_paddedDigits, UInt64.lt_iff_toNat_lt]

/-! ### Padding enough for a format -/

/-- The longest word of a format has a digit for every four bits, the last of them perhaps not
full. -/
theorem length_digits_mask_le_iff (q : QFormat) (k : ℕ) :
    (Nat.digits 16 q.mask.toNat).length ≤ k ↔ q.totalBits ⌈/⌉ 4 ≤ k := by
  have hpos : 0 < 2 ^ q.totalBits := Nat.two_pow_pos _
  calc (Nat.digits 16 q.mask.toNat).length ≤ k
      ↔ 2 ^ q.totalBits - 1 < 16 ^ k := by rw [q.toNat_mask, Nat.digits_length_le_iff (by norm_num)]
    _ ↔ 2 ^ q.totalBits ≤ 2 ^ (4 * k) := by
      rw [pow_mul, show 2 ^ 4 = 16 from rfl]
      omega
    _ ↔ q.totalBits ≤ 4 * k := Nat.pow_le_pow_iff_right (by norm_num)
    _ ↔ q.totalBits ⌈/⌉ 4 ≤ k := (ceilDiv_le_iff_le_smul (show 0 < 4 by norm_num)).symm

theorem length_digits_le_mask {raw : UInt64} (hraw : raw ≤ q.mask) :
    (Nat.digits 16 raw.toNat).length ≤ (Nat.digits 16 q.mask.toNat).length :=
  Nat.le_length_digits_le 16 _ _ (UInt64.le_iff_toNat_le.1 hraw)

/-- With enough padding every token of the format has the length of the padding. -/
theorem length_paddedText_of_le {raw : UInt64} (hdigits : q.totalBits ⌈/⌉ 4 ≤ max digits 1)
    (hraw : raw ≤ q.mask) : (paddedText digits raw).length = max digits 1 := by
  have hle := (length_digits_le_mask hraw).trans ((length_digits_mask_le_iff q _).2 hdigits)
  rw [length_paddedText]
  omega

/-- The tokens of a format have one length exactly when zero is padded to that of the longest. -/
theorem uniform_length_iff (q : QFormat) (digits : ℕ) :
    (∃ length, ∀ raw ≤ q.mask, (paddedText digits raw).length = length) ↔
      q.totalBits ⌈/⌉ 4 ≤ max digits 1 := by
  constructor
  · rintro ⟨length, hlength⟩
    have hzero := hlength 0 (UInt64.le_iff_toNat_le.2 (Nat.zero_le _))
    have hmask := hlength q.mask (UInt64.le_refl _)
    rw [length_paddedText] at hzero hmask
    rw [← length_digits_mask_le_iff]
    simp only [UInt64.toNat_zero, Nat.digits_zero, List.length_nil] at hzero
    omega
  · intro hdigits
    exact ⟨max digits 1, fun raw => length_paddedText_of_le hdigits⟩

theorem render?_padded (hdigits : digits ≤ 65535) (w : Word) :
    w.render? (.padded digits) = some (paddedText digits w.raw) := by
  unfold Word.render? render?
  exact if_pos hdigits

/-- Padded tokens: how long they are and of which characters, when the words of a format have tokens
of one length, and the order of these tokens. -/
theorem padded_tokens (q : QFormat) {digits : ℕ} (hdigits : digits ≤ 65535) :
    (∀ w, q.IsWord w → ∃ token, w.render? (.padded digits) = some token ∧
      token.length = max (max digits (Nat.digits 16 w.raw.toNat).length) 1 ∧
      ∀ c ∈ token.toList, c ∈ "0123456789ABCDEF".toList) ∧
    ((∃ length, ∀ w token, q.IsWord w → w.render? (.padded digits) = some token →
      token.length = length) ↔
      q.totalBits ⌈/⌉ 4 ≤ max digits 1) ∧
    paddedFor q = .padded (q.totalBits ⌈/⌉ 4) ∧
    (q.totalBits ⌈/⌉ 4 ≤ max digits 1 → ∀ v w token token', q.IsWord v → q.IsWord w →
      v.render? (.padded digits) = some token → w.render? (.padded digits) = some token' →
      (token < token' ↔ v.raw < w.raw)) := by
  refine ⟨fun w _ => ⟨_, render?_padded hdigits w, length_paddedText _ _, fun c hc => ?_⟩,
    ?_, rfl, ?_⟩
  · rw [toList_paddedText] at hc
    obtain ⟨d, hd, rfl⟩ := List.mem_map.1 hc
    exact Text.upperHexDigit_mem (lt_of_mem_paddedDigits hd)
  · rw [← uniform_length_iff]
    constructor
    · rintro ⟨length, hlength⟩
      exact ⟨length, fun raw hraw => hlength ⟨raw, q⟩ _ ⟨rfl, hraw⟩ (render?_padded hdigits _)⟩
    · rintro ⟨length, hlength⟩
      refine ⟨length, fun w token hw htoken => ?_⟩
      obtain rfl := Option.some.inj ((render?_padded hdigits w).symm.trans htoken)
      exact hlength w.raw hw.2
  · intro hle v w token token' hv hw hvtoken hwtoken
    obtain rfl := Option.some.inj ((render?_padded hdigits v).symm.trans hvtoken)
    obtain rfl := Option.some.inj ((render?_padded hdigits w).symm.trans hwtoken)
    exact paddedText_lt_iff
      (by rw [length_paddedText_of_le hle hv.2, length_paddedText_of_le hle hw.2])

/-- A format of 17 bits, of which the first has a digit of its own. -/
def seventeenBits : QFormat := ⟨3, 14, by decide, by decide⟩

/-- Four digits are too few for 17 bits. With five, `0FFFF` and `10000` are in the order of their
words. -/
theorem padded_tokens_seventeen :
    (4 ≤ 65535 ∧ ¬ ∃ length, ∀ w token, seventeenBits.IsWord w →
      w.render? (.padded 4) = some token → token.length = length) ∧
    (5 ≤ 65535 ∧ seventeenBits.IsWord ⟨0xFFFF, seventeenBits⟩ ∧
      seventeenBits.IsWord ⟨0x10000, seventeenBits⟩ ∧
      ("0FFFF" < "10000" ↔ (0xFFFF : UInt64) < 0x10000)) := by
  have hfour : 4 ≤ 65535 := by decide
  have hfive : 5 ≤ 65535 := by decide
  have hv : seventeenBits.IsWord ⟨0xFFFF, seventeenBits⟩ := by decide
  have hw : seventeenBits.IsWord ⟨0x10000, seventeenBits⟩ := by decide
  have hvtoken : (Word.mk 0xFFFF seventeenBits).render? (.padded 5) = some "0FFFF" := by
    have hvalues : Text.hexDigits 0xFFFF = [15, 15, 15, 15] := by simp [Text.hexDigits]
    simp only [render?_padded hfive, paddedText, UInt64.reduceToNat, hvalues]
    decide
  have hwtoken : (Word.mk 0x10000 seventeenBits).render? (.padded 5) = some "10000" := by
    have hvalues : Text.hexDigits 0x10000 = [1, 0, 0, 0, 0] := by simp [Text.hexDigits]
    simp only [render?_padded hfive, paddedText, UInt64.reduceToNat, hvalues]
    decide
  obtain ⟨-, huniform, -, -⟩ := padded_tokens seventeenBits hfour
  obtain ⟨-, -, -, horder⟩ := padded_tokens seventeenBits hfive
  refine ⟨⟨hfour, fun h => ?_⟩, hfive, hv, hw, horder (by decide) _ _ _ _ hv hw hvtoken hwtoken⟩
  exact absurd (huniform.1 h) (by decide)

end HexStyle

end SynapseMem
