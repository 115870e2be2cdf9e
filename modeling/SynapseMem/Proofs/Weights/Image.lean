import Mathlib.Tactic
import SynapseMem.Proofs.Fixed.Tokens
import SynapseMem.Proofs.Steps
import SynapseMem.Weights.Image

/-!
# Reading back what was written line by line

The bytes of a text are those of its characters one after the other, and a byte below 128 stands for
a character of its own. So texts without line ends, written a line each, are split where they were
joined (`lines_bytes_unlines`), and lines that are tokens of words of a format are read as those
words (`read_bytes_unlines`).
-/

namespace SynapseMem

/-! ### Bytes of texts -/

namespace Text

/-- The bytes of a text. -/
def bytes (s : String) : List UInt8 := s.toUTF8.toList

theorem loop_eq_append_drop (bs : ByteArray) (i : ℕ) (r : List UInt8) :
    ByteArray.toList.loop bs i r = r.reverse ++ bs.data.toList.drop i := by
  fun_induction ByteArray.toList.loop bs i r with
  | case1 i r hlt ih =>
    have hi : i < bs.data.toList.length := by simpa using hlt
    have hget : bs.get! i = bs.data.toList[i] := by
      rw [Array.getElem_toList]
      exact getElem!_pos bs.data i (by simpa using hlt)
    rw [ih, List.drop_eq_getElem_cons hi, hget, List.reverse_cons, List.append_assoc,
      List.singleton_append]
  | case2 i r hge =>
    have hnil : bs.data.toList.drop i = [] := List.drop_eq_nil_of_le (by simpa using hge)
    rw [hnil, List.append_nil]

theorem bytes_eq (s : String) : bytes s = s.toByteArray.data.toList := by
  rw [bytes, ByteArray.toList, loop_eq_append_drop, String.toUTF8_eq_toByteArray]
  simp

@[simp] theorem bytes_append (s t : String) : bytes (s ++ t) = bytes s ++ bytes t := by
  rw [bytes_eq, bytes_eq, bytes_eq, String.toByteArray_append, ByteArray.toList_data_append]

theorem bytes_ofList (cs : List Char) :
    bytes (String.ofList cs) = cs.flatMap String.utf8EncodeChar := by
  rw [bytes_eq, String.toByteArray_ofList]
  induction cs with
  | nil => rfl
  | cons c cs ih =>
    rw [List.utf8Encode_cons, ByteArray.toList_data_append, ih, List.utf8Encode_singleton,
      List.toList_data_toByteArray, List.flatMap_cons]

@[simp] theorem bytes_empty : bytes "" = [] := bytes_ofList []

@[simp] theorem bytes_feed : bytes "\n" = [10] := bytes_ofList ['\n']

/-- The bytes of a text make up the text. -/
theorem fromUTF8?_bytes (s : String) : String.fromUTF8? ⟨(bytes s).toArray⟩ = some s := by
  rw [bytes_eq, Array.toArray_toList]
  unfold String.fromUTF8?
  rw [dif_pos s.isValidUTF8]
  rfl

/-- A byte below 128 is the whole of a character. -/
theorem toNat_eq_of_mem_utf8EncodeChar {c : Char} {b : UInt8} (h : b ∈ String.utf8EncodeChar c)
    (hb : b.toNat < 128) : c.toNat = b.toNat := by
  have htoNat : c.toNat = c.val.toNat := rfl
  unfold String.utf8EncodeChar at h
  simp only at h
  split_ifs at h with h₁ h₂ h₃
  · rw [List.mem_singleton] at h
    rw [h, UInt8.toNat_ofNat', htoNat]
    omega
  -- every byte of a longer encoding is 128 or more
  all_goals
    simp only [List.mem_cons, List.not_mem_nil, or_false] at h
    rcases h with rfl | rfl | rfl | rfl <;> simp only [UInt8.toNat_ofNat'] at hb <;> omega

/-- A text without a character has no byte of its own for it. -/
theorem notMem_bytes {s : String} {b : UInt8} (hb : b.toNat < 128)
    (h : ∀ c ∈ s.toList, c.toNat ≠ b.toNat) : b ∉ bytes s := by
  rw [← String.ofList_toList (s := s), bytes_ofList, List.mem_flatMap]
  rintro ⟨c, hc, hmem⟩
  exact h c hc (toNat_eq_of_mem_utf8EncodeChar hmem hb)

end Text

namespace Image

/-! ### Lines -/

theorem linesFrom_cons_of_ne {b : UInt8} (h : b ≠ 10) (current bs : List UInt8) :
    linesFrom current (b :: bs) = linesFrom (b :: current) bs := by
  rw [linesFrom.eq_def]
  exact if_neg h

/-- Bytes without a line feed go to the current line. -/
theorem linesFrom_append {as : List UInt8} (h : 10 ∉ as) (current bs : List UInt8) :
    linesFrom current (as ++ bs) = linesFrom (as.reverse ++ current) bs := by
  induction as generalizing current with
  | nil => rfl
  | cons a as ih =>
    rw [List.mem_cons, not_or] at h
    rw [List.cons_append, linesFrom_cons_of_ne (Ne.symm h.1), ih h.2, List.reverse_cons,
      List.append_assoc, List.singleton_append]

/-- A line ends at its line feed; one without a carriage return is kept whole. -/
theorem lines_append_feed {as : List UInt8} (hfeed : 10 ∉ as) (hreturn : 13 ∉ as)
    (bs : List UInt8) : lines (as ++ 10 :: bs) = as :: lines bs := by
  rw [lines, linesFrom_append hfeed, List.append_nil, linesFrom.eq_def]
  simp only [if_true]
  -- the line is kept from its last byte on, where a carriage return would be dropped
  split
  · rename_i before hbefore
    have hmem : 13 ∈ as.reverse := hbefore ▸ List.mem_cons_self
    exact absurd (List.mem_reverse.1 hmem) hreturn
  · rw [List.reverse_reverse]
    rfl

/-- Texts without line ends, written a line each, are the lines. -/
theorem lines_bytes_unlines {texts : List String}
    (h : ∀ text ∈ texts, 10 ∉ Text.bytes text ∧ 13 ∉ Text.bytes text) :
    lines (Text.bytes (Text.unlines texts)) = texts.map Text.bytes := by
  induction texts with
  | nil =>
    rw [Text.unlines_nil, Text.bytes_empty]
    rfl
  | cons text texts ih =>
    rw [List.forall_mem_cons] at h
    rw [Text.unlines_cons, Text.bytes_append, Text.bytes_append, Text.bytes_feed, List.append_assoc,
      List.singleton_append, lines_append_feed h.1.1 h.1.2, ih h.2, List.map_cons]

/-! ### Lines that are tokens -/

theorem dropComment_of_notMem {cs : List Char} (h : '/' ∉ cs) : dropComment cs = cs := by
  fun_induction dropComment cs with
  | case1 => rfl
  | case2 => simp at h
  | case3 c cs _ ih => rw [ih (List.not_mem_of_not_mem_cons h)]

/-- A line of token characters holds them all. -/
theorem content_of_token {token : String} (h : ∀ c ∈ token.toList, IsTokenChar c) :
    content token = token.toList := by
  have hslash : '/' ∉ token.toList := by
    intro hmem
    rcases h _ hmem with ⟨d, hd⟩ | hx
    · cases hd
    · cases hx
  rw [content, dropComment_of_notMem hslash]
  exact Text.trimChars_of_solid fun c hc => (h c hc).isBlank

/-- Token characters are not those of line ends. -/
theorem token_notMem_bytes {token : String} (h : ∀ c ∈ token.toList, IsTokenChar c) :
    10 ∉ Text.bytes token ∧ 13 ∉ Text.bytes token := by
  have hge : ∀ c ∈ token.toList, 48 ≤ c.toNat := by
    intro c hc
    rcases h c hc with hdigit | rfl
    · have := hdigit.ranges
      omega
    · decide
  refine ⟨Text.notMem_bytes (by decide) ?_, Text.notMem_bytes (by decide) ?_⟩ <;>
    intro c hc heq <;> have := hge c hc <;> rw [heq] at this <;> revert this <;> decide

/-- Lines that are tokens of words of the format are read as those words. -/
theorem readLines_tokens {q : QFormat} {words : List Word}
    (h : ∀ word ∈ words, word.format = q ∧ word.raw.toNat < 2 ^ q.totalBits) (style : HexStyle)
    (number : ℕ) :
    readLines q number (words.map fun word => Text.bytes (style.text word.raw)) = .ok words := by
  induction words generalizing number with
  | nil => rfl
  | cons word words ih =>
    rw [List.forall_mem_cons] at h
    obtain ⟨⟨rfl, hraw⟩, hrest⟩ := h
    rw [List.map_cons, readLines, Text.fromUTF8?_bytes]
    simp only [content_of_token (style.isTokenChar_text word.raw), String.ofList_toList]
    rw [if_neg (by simpa using style.toList_text_ne_nil word.raw), QFormat.decode_text style hraw,
      ih hrest]

/-- A text of tokens, a line each, is read as the words they were written for. -/
theorem read_bytes_unlines {q : QFormat} {words : List Word}
    (h : ∀ word ∈ words, word.format = q ∧ word.raw.toNat < 2 ^ q.totalBits) (style : HexStyle) :
    read q (Text.bytes (Text.unlines (words.map fun word => style.text word.raw))) = .ok words := by
  have hlines : ∀ text ∈ words.map fun word => style.text word.raw,
      10 ∉ Text.bytes text ∧ 13 ∉ Text.bytes text := by
    intro text htext
    obtain ⟨word, -, rfl⟩ := List.mem_map.1 htext
    exact token_notMem_bytes (style.isTokenChar_text word.raw)
  rw [read, lines_bytes_unlines hlines, List.map_map]
  exact readLines_tokens h style 1

end Image

end SynapseMem
