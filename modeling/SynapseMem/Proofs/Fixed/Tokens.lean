import Mathlib.Data.List.TakeWhile
import SynapseMem.Proofs.Fixed.Words

/-!
# Tokens read back

A word is written by its hexadecimal digits, most significant first, and read by a fold over them.
The two are inverse for every word, any amount of padding and both styles, with blanks on either
side (`QFormat.decode_blanks_text`). A token holds digits and at most the letter of its mark, so
trimming never takes a part of it away and padding is never taken for a mark.
-/

namespace SynapseMem

namespace Text

/-! ### Hexadecimal numerals -/

/-- A hexadecimal digit of either case. -/
def IsHexDigit (c : Char) : Prop := ∃ d, hexValue? c = some d

/-- The three ranges of the digits. -/
theorem IsHexDigit.ranges {c : Char} (h : IsHexDigit c) :
    48 ≤ c.toNat ∧ c.toNat ≤ 57 ∨ 65 ≤ c.toNat ∧ c.toNat ≤ 70 ∨ 97 ≤ c.toNat ∧ c.toNat ≤ 102 := by
  obtain ⟨d, hd⟩ := h
  simp only [hexValue?] at hd
  split_ifs at hd with h₁ h₂ h₃
  · exact .inl h₁
  · exact .inr (.inl h₂)
  · exact .inr (.inr h₃)

theorem not_isHexDigit_plus : ¬ IsHexDigit '+' := by
  rintro ⟨d, hd⟩
  cases hd

theorem hexValue?_lowerHexDigit {d : ℕ} (hd : d < 16) : hexValue? (lowerHexDigit d) = some d := by
  interval_cases d <;> rfl

theorem hexValue?_upperHexDigit {d : ℕ} (hd : d < 16) : hexValue? (upperHexDigit d) = some d := by
  interval_cases d <;> rfl

theorem hexNumber?_concat (cs : List Char) (c : Char) :
    hexNumber? (cs ++ [c]) =
      (hexNumber? cs).bind fun n => (hexValue? c).map fun d => 16 * n + d := by
  simp [hexNumber?]

/-- Zeros in front do not count. -/
theorem hexNumber?_zeros (k : ℕ) (cs : List Char) :
    hexNumber? (List.replicate k '0' ++ cs) = hexNumber? cs := by
  induction k with
  | zero => rfl
  | succ k ih =>
    rw [← ih, List.replicate_succ, List.cons_append]
    rfl

theorem hexDigits_ne_nil (n : ℕ) : hexDigits n ≠ [] := by
  rw [hexDigits]
  split_ifs <;> simp

theorem lt_of_mem_hexDigits {n d : ℕ} (h : d ∈ hexDigits n) : d < 16 := by
  fun_induction hexDigits n with
  | case1 n hn =>
    rw [List.mem_singleton] at h
    omega
  | case2 n hn ih =>
    rcases List.mem_append.1 h with h | h
    · exact ih h
    · rw [List.mem_singleton] at h
      omega

/-- Digits written by either alphabet are read back. -/
theorem hexNumber?_hexDigits {digit : ℕ → Char} (hdigit : ∀ d < 16, hexValue? (digit d) = some d)
    (n : ℕ) : hexNumber? ((hexDigits n).map digit) = some n := by
  fun_induction hexDigits n with
  | case1 n hn => simp [hexNumber?, hdigit n hn]
  | case2 n hn ih =>
    rw [List.map_append, List.map_singleton, hexNumber?_concat, ih,
      hdigit (n % 16) (Nat.mod_lt n (by norm_num)), Option.bind_some, Option.map_some,
      Nat.div_add_mod]

theorem isHexDigit_hexDigits {digit : ℕ → Char} (hdigit : ∀ d < 16, hexValue? (digit d) = some d)
    (n : ℕ) : ∀ c ∈ (hexDigits n).map digit, IsHexDigit c := by
  intro c hc
  obtain ⟨d, hd, rfl⟩ := List.mem_map.1 hc
  exact ⟨d, hdigit d (lt_of_mem_hexDigits hd)⟩

/-! ### Trimming -/

theorem dropWhile_isBlank_of_solid {cs : List Char} (h : ∀ c ∈ cs, isBlank c = false)
    (hne : cs ≠ []) (bs : List Char) : (cs ++ bs).dropWhile isBlank = cs ++ bs := by
  obtain ⟨c, cs, rfl⟩ := List.exists_cons_of_ne_nil hne
  simp [h c List.mem_cons_self]

/-- Trimming takes away the blanks around a text without blanks, and no more. -/
theorem trimChars_blanks {as cs bs : List Char} (ha : ∀ c ∈ as, isBlank c = true)
    (hc : ∀ c ∈ cs, isBlank c = false) (hb : ∀ c ∈ bs, isBlank c = true) :
    trimChars (as ++ cs ++ bs) = cs := by
  have hbr : ∀ c ∈ bs.reverse, isBlank c = true := fun c h => hb c (List.mem_reverse.1 h)
  have hcr : ∀ c ∈ cs.reverse, isBlank c = false := fun c h => hc c (List.mem_reverse.1 h)
  rw [trimChars, List.append_assoc, List.dropWhile_append_of_pos ha]
  by_cases hnil : cs = []
  · rw [hnil, List.nil_append, List.dropWhile_eq_nil_iff.2 hb]
    rfl
  · have hsolid := dropWhile_isBlank_of_solid hcr (by simpa using hnil) []
    rw [List.append_nil] at hsolid
    rw [dropWhile_isBlank_of_solid hc hnil, List.reverse_append, List.dropWhile_append_of_pos hbr,
      hsolid, List.reverse_reverse]

theorem trimChars_of_solid {cs : List Char} (h : ∀ c ∈ cs, isBlank c = false) :
    trimChars cs = cs := by
  simpa using @trimChars_blanks [] cs [] (by simp) h (by simp)

theorem trimChars_append_left {as : List Char} (h : ∀ c ∈ as, isBlank c = true) (cs : List Char) :
    trimChars (as ++ cs) = trimChars cs := by
  rw [trimChars, List.dropWhile_append_of_pos h, ← trimChars]

theorem trimChars_append_right {bs : List Char} (h : ∀ c ∈ bs, isBlank c = true) (cs : List Char) :
    trimChars (cs ++ bs) = trimChars cs := by
  have hreverse : ∀ c ∈ bs.reverse, isBlank c = true := fun c hc => h c (List.mem_reverse.1 hc)
  rw [trimChars, trimChars, List.dropWhile_append]
  split_ifs with hempty
  · rw [List.isEmpty_iff.1 hempty, List.dropWhile_eq_nil_iff.2 h]
  · rw [List.reverse_append, List.dropWhile_append_of_pos hreverse]

theorem trimChars_of_blank {cs : List Char} (h : ∀ c ∈ cs, isBlank c = true) :
    trimChars cs = [] := by
  rw [← List.append_nil cs, trimChars_append_left h]
  rfl

/-- What is left of a text that starts with no blank is a part of it, and only blanks follow that
part. -/
theorem exists_eq_trimChars_append {c : Char} (h : isBlank c = false) (cs : List Char) :
    ∃ bs, (∀ b ∈ bs, isBlank b = true) ∧ c :: cs = trimChars (c :: cs) ++ bs := by
  refine ⟨((c :: cs).reverse.takeWhile isBlank).reverse, fun b hb => ?_, ?_⟩
  · exact List.mem_takeWhile_imp (List.mem_reverse.1 hb)
  · rw [trimChars, List.dropWhile_cons_of_neg (by simp [h]), ← List.reverse_append,
      List.takeWhile_append_dropWhile, List.reverse_reverse]

/-- What is left of a text starts with no blank. -/
theorem isBlank_of_trimChars_eq_cons {cs rest : List Char} {c : Char}
    (h : trimChars cs = c :: rest) : isBlank c = false := by
  have hprefix : trimChars cs <+: cs.dropWhile isBlank := by
    rw [trimChars, ← List.reverse_suffix, List.reverse_reverse]
    exact List.dropWhile_suffix _
  rw [h] at hprefix
  obtain ⟨rest', hrest⟩ := hprefix
  have hhead := List.head?_dropWhile_not isBlank cs
  rw [← hrest] at hhead
  simpa using hhead

end Text

/-! ### The characters of a token -/

/-- A digit, or the letter of the mark `0x`. -/
def IsTokenChar (c : Char) : Prop := Text.IsHexDigit c ∨ c = 'x'

theorem IsTokenChar.isBlank {c : Char} (h : IsTokenChar c) : Text.isBlank c = false := by
  rcases h with h | rfl
  · have := h.ranges
    simp only [Text.isBlank, Bool.or_eq_false_iff, Bool.and_eq_false_iff, decide_eq_false_iff_not,
      beq_eq_false_iff_ne]
    omega
  · rfl

namespace HexStyle

/-- The padding of the style is one that can be written. -/
def Writable : HexStyle → Prop
  | .prefixed => True
  | .padded digits => digits ≤ maxPadding

instance : DecidablePred Writable
  | .prefixed => .isTrue trivial
  | .padded digits => inferInstanceAs (Decidable (digits ≤ maxPadding))

/-- The text that the style calls for, whether it can be written or not. -/
def text : HexStyle → UInt64 → String
  | .prefixed, raw => prefixedText raw
  | .padded digits, raw => paddedText digits raw

theorem render?_eq (style : HexStyle) (raw : UInt64) :
    style.render? raw = if style.Writable then some (style.text raw) else none := by
  cases style with
  | prefixed => rfl
  | padded digits => rfl

theorem isHexDigit_paddedText (digits : ℕ) (raw : UInt64) :
    ∀ c ∈ (paddedText digits raw).toList, Text.IsHexDigit c := by
  intro c hc
  simp only [paddedText, String.toList_ofList, List.mem_append] at hc
  rcases hc with hc | hc
  · exact ⟨0, by rw [List.eq_of_mem_replicate hc]; rfl⟩
  · exact Text.isHexDigit_hexDigits (fun _ => Text.hexValue?_upperHexDigit) _ c hc

theorem isTokenChar_text (style : HexStyle) (raw : UInt64) :
    ∀ c ∈ (style.text raw).toList, IsTokenChar c := by
  intro c hc
  cases style with
  | prefixed =>
    simp only [text, prefixedText, String.toList_ofList, List.mem_cons] at hc
    rcases hc with rfl | rfl | hc
    · exact .inl ⟨0, rfl⟩
    · exact .inr rfl
    · exact .inl (Text.isHexDigit_hexDigits (fun _ => Text.hexValue?_lowerHexDigit) _ c hc)
  | padded digits => exact .inl (isHexDigit_paddedText digits raw c hc)

theorem toList_text_ne_nil (style : HexStyle) (raw : UInt64) : (style.text raw).toList ≠ [] := by
  cases style with
  | prefixed => simp [text, prefixedText]
  | padded digits => simp [text, paddedText, Text.hexDigits_ne_nil]

end HexStyle

/-! ### Reading digits -/

/-- Digits alone are not taken for a mark. -/
theorem dropHexMark_of_digits {cs : List Char} (h : ∀ c ∈ cs, Text.IsHexDigit c) :
    dropHexMark cs = cs := by
  have hx : ¬ Text.IsHexDigit 'x' := by rintro ⟨d, hd⟩; cases hd
  have hX : ¬ Text.IsHexDigit 'X' := by rintro ⟨d, hd⟩; cases hd
  unfold dropHexMark
  split
  · exact absurd (h 'x' (by simp)) hx
  · exact absurd (h 'X' (by simp)) hX
  · rfl

/-- A 64-bit number is read from its digits. -/
theorem hexWord?_of_digits {cs : List Char} {n : ℕ} (h : ∀ c ∈ cs, Text.IsHexDigit c)
    (hne : cs ≠ []) (hn : Text.hexNumber? cs = some n) (hlt : n < 2 ^ 64) :
    hexWord? cs = some (UInt64.ofNat n) := by
  have hlt' : n < 18446744073709551616 := by simpa using hlt
  unfold hexWord?
  split
  · exact absurd (h '+' (by simp)) Text.not_isHexDigit_plus
  · simp [hne, hn, hlt']

namespace QFormat

/-- A token is read with any blanks around it: digits of a word of the format, after a mark or
without. -/
theorem decode_digits {q : QFormat} {as cs bs : List Char} {raw : UInt64} (mark : List Char)
    (ha : ∀ c ∈ as, Text.isBlank c = true) (hb : ∀ c ∈ bs, Text.isBlank c = true)
    (hmark : mark = [] ∨ mark = ['0', 'x']) (h : ∀ c ∈ cs, Text.IsHexDigit c) (hne : cs ≠ [])
    (hn : Text.hexNumber? cs = some raw.toNat) (hraw : raw.toNat < 2 ^ q.totalBits) :
    q.decode (String.ofList (as ++ (mark ++ cs) ++ bs)) = .ok ⟨raw, q⟩ := by
  have hsolid : ∀ c ∈ mark ++ cs, Text.isBlank c = false := by
    intro c hc
    rcases List.mem_append.1 hc with hc | hc
    · rcases hmark with rfl | rfl
      · cases hc
      · rcases List.mem_pair.1 hc with rfl | rfl <;> rfl
    · exact IsTokenChar.isBlank (.inl (h c hc))
  have hdrop : dropHexMark (mark ++ cs) = cs := by
    rcases hmark with rfl | rfl
    · exact dropHexMark_of_digits h
    · rfl
  have hword := hexWord?_of_digits h hne hn raw.toNat_lt
  have hofRaw : Word.ofRaw (UInt64.ofNat raw.toNat) q = .ok ⟨raw, q⟩ := by
    rw [UInt64.ofNat_toNat]
    exact Word.ofRaw_eq_ok_iff.2 ⟨hraw, rfl⟩
  simp only [decode, String.toList_ofList, Text.trimChars_blanks ha hsolid hb, hdrop, hword, hofRaw]
  rw [if_neg (by simpa using hne)]

/-- A written word is read back, in either style, with any padding and any blanks around it. -/
theorem decode_blanks_text {q : QFormat} {raw : UInt64} (style : HexStyle) (as bs : List Char)
    (hraw : raw.toNat < 2 ^ q.totalBits) (ha : ∀ c ∈ as, Text.isBlank c = true)
    (hb : ∀ c ∈ bs, Text.isBlank c = true) :
    q.decode (String.ofList (as ++ (style.text raw).toList ++ bs)) = .ok ⟨raw, q⟩ := by
  cases style with
  | prefixed =>
    rw [HexStyle.text, HexStyle.prefixedText, String.toList_ofList]
    exact decode_digits ['0', 'x'] ha hb (.inr rfl)
      (Text.isHexDigit_hexDigits (fun _ => Text.hexValue?_lowerHexDigit) _)
      (by simp [Text.hexDigits_ne_nil])
      (Text.hexNumber?_hexDigits (fun _ => Text.hexValue?_lowerHexDigit) _) hraw
  | padded digits =>
    have hnumber : Text.hexNumber? (HexStyle.paddedText digits raw).toList = some raw.toNat := by
      rw [HexStyle.paddedText, String.toList_ofList, Text.hexNumber?_zeros,
        Text.hexNumber?_hexDigits fun _ => Text.hexValue?_upperHexDigit]
    exact decode_digits [] ha hb (.inl rfl) (HexStyle.isHexDigit_paddedText digits raw)
      (HexStyle.toList_text_ne_nil (.padded digits) raw) hnumber hraw

theorem decode_text {q : QFormat} {raw : UInt64} (style : HexStyle)
    (hraw : raw.toNat < 2 ^ q.totalBits) : q.decode (style.text raw) = .ok ⟨raw, q⟩ := by
  have h := decode_blanks_text style [] [] hraw (by simp) (by simp)
  rwa [List.nil_append, List.append_nil, String.ofList_toList] at h

end QFormat

/-! ### Words and their tokens -/

/-- In every style two words have different texts. -/
theorem HexStyle.text_injective (style : HexStyle) : Function.Injective style.text := by
  -- read both texts back in a format of full width, which has every word
  let full : QFormat := ⟨1, 63, by decide, by decide⟩
  intro first second h
  have hfirst := QFormat.decode_text (q := full) style first.toNat_lt
  have hsecond := QFormat.decode_text (q := full) style second.toNat_lt
  rw [h, hsecond] at hfirst
  cases hfirst
  rfl

namespace Word

theorem render?_eq_some_iff {word : Word} {style : HexStyle} {token : String} :
    word.render? style = some token ↔ style.Writable ∧ style.text word.raw = token := by
  rw [render?, HexStyle.render?_eq]
  split_ifs with hstyle
  · simp [hstyle]
  · simp [hstyle]

/-- A word of a format has a token in every style that can be written. The token is read as the word
with any blanks around it, is the token of no other word of the format, and is read as the word's
token in any other style is. -/
theorem decode_render {word : Word} {style : HexStyle} (hraw : word.raw ≤ word.format.mask)
    (hstyle : style.Writable) :
    ∃ token, word.render? style = some token ∧
      (∀ before after : String, (∀ c ∈ before.toList, Text.isBlank c = true) →
        (∀ c ∈ after.toList, Text.isBlank c = true) →
        word.format.decode (before ++ token ++ after) = .ok word) ∧
      (∀ other : Word, other.format = word.format → other.render? style = some token →
        other = word) ∧
      ∀ (style' : HexStyle) (token' : String), word.render? style' = some token' →
        word.format.decode token' = word.format.decode token := by
  have hlt := QFormat.le_mask_iff.1 hraw
  refine ⟨style.text word.raw, render?_eq_some_iff.2 ⟨hstyle, rfl⟩, ?_, ?_, ?_⟩
  · intro before after hbefore hafter
    have hread := QFormat.decode_blanks_text style before.toList after.toList hlt hbefore hafter
    rwa [← String.toList_append, ← String.toList_append, String.ofList_toList] at hread
  · rintro ⟨raw, format⟩ hformat hrender
    obtain ⟨-, htext⟩ := render?_eq_some_iff.1 hrender
    rw [Word.mk.injEq]
    exact ⟨style.text_injective htext, hformat⟩
  · intro style' token' hrender
    obtain ⟨-, rfl⟩ := render?_eq_some_iff.1 hrender
    rw [QFormat.decode_text style' hlt, QFormat.decode_text style hlt]

/-- The least value of a format of full width. -/
def leastOfAll : Word := ⟨0x8000000000000000, ⟨1, 63, by decide, by decide⟩⟩

/-- A word of full width, padded as far as can be, after an ideographic space and before a line
end. -/
theorem decode_render_widest :
    leastOfAll.raw ≤ leastOfAll.format.mask ∧ (HexStyle.padded 65535).Writable ∧
      ∃ token, leastOfAll.render? (.padded 65535) = some token ∧
        leastOfAll.format.decode ("\u3000\t" ++ token ++ "\r\n") = .ok leastOfAll := by
  have hraw : leastOfAll.raw ≤ leastOfAll.format.mask := by decide
  have hstyle : (HexStyle.padded 65535).Writable := by decide
  obtain ⟨token, hrender, hdecode, -⟩ := decode_render hraw hstyle
  refine ⟨hraw, hstyle, token, hrender, hdecode "\u3000\t" "\r\n" ?_ ?_⟩
  · exact List.all_eq_true.1 (by decide)
  · exact List.all_eq_true.1 (by decide)

end Word

end SynapseMem
