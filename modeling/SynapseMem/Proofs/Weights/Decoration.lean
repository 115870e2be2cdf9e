import Mathlib.Logic.Relation
import SynapseMem.Proofs.Weights.Image

/-!
# Memory images as texts of lines

The words of a text depend on its lines one by one: reading is decoding the tokens of the lines that
hold one, each with its line number (`Image.readText_eq`). So two texts joined by a line feed are
read one after the other (`Image.tokens_append`), and a line counts only by its content. Blanks
around the content, a comment behind it and a carriage return at the end of the line do not change
that (`Image.content_of_decorates`).
-/

namespace SynapseMem

/-! ### Comments -/

namespace Text

/-- A text of blanks only. -/
def IsGap (s : String) : Prop := ∀ c ∈ s.toList, isBlank c = true

end Text

namespace Image

theorem dropComment_cons {c : Char} {cs : List Char} (h : c = '/' → cs.head? ≠ some '/') :
    dropComment (c :: cs) = c :: dropComment cs := by
  refine dropComment.eq_3 c cs fun tail hc htail => h hc ?_
  rw [htail, List.head?_cons]

theorem ne_slash_of_isBlank {c : Char} (h : Text.isBlank c = true) : c ≠ '/' := by
  rintro rfl
  cases h

/-- No comment starts in blanks. -/
theorem dropComment_blanks {gap : List Char} (h : ∀ c ∈ gap, Text.isBlank c = true)
    (cs : List Char) : dropComment (gap ++ cs) = gap ++ dropComment cs := by
  induction gap with
  | nil => rfl
  | cons c gap ih =>
    rw [List.forall_mem_cons] at h
    rw [List.cons_append, dropComment_cons fun hc => absurd hc (ne_slash_of_isBlank h.1), ih h.2]
    rfl

/-- A slash before a gap starts no comment with what follows the gap. -/
theorem head?_append_gap {gap : List Char} (h : ∀ c ∈ gap, Text.isBlank c = true) (hne : gap ≠ [])
    {cs : List Char} (hcs : cs.head? ≠ some '/') (rest : List Char) :
    (cs ++ (gap ++ rest)).head? ≠ some '/' := by
  obtain ⟨b, gap, rfl⟩ := List.exists_cons_of_ne_nil hne
  cases cs with
  | nil => simpa using ne_slash_of_isBlank (h b List.mem_cons_self)
  | cons c cs => simpa using hcs

/-- Behind a gap a comment starts where it would start on its own, unless it has started before. -/
theorem dropComment_append_gap {gap : List Char} (h : ∀ c ∈ gap, Text.isBlank c = true)
    (hne : gap ≠ []) (cs rest : List Char) :
    dropComment (cs ++ (gap ++ rest)) =
      if dropComment cs = cs then cs ++ (gap ++ dropComment rest) else dropComment cs := by
  fun_induction dropComment cs with
  | case1 => simp [dropComment_blanks h]
  | case2 cs => simp [dropComment]
  | case3 c cs hslash ih =>
    have hhead : c = '/' → cs.head? ≠ some '/' := by
      intro hc hcs
      obtain ⟨tail, rfl⟩ := List.head?_eq_some_iff.1 hcs
      exact hslash tail hc rfl
    rw [List.cons_append, dropComment_cons fun hc => head?_append_gap h hne (hhead hc) rest, ih]
    simp only [List.cons.injEq, true_and, List.cons_append]
    split_ifs <;> rfl

/-- Blanks put behind the code of a line, before its comment, become a part of the code. -/
theorem dropComment_insert {code trail tail gap : List Char} (h : ∀ c ∈ gap, Text.isBlank c = true)
    (hcode : dropComment (code ++ tail) = code ++ trail) :
    dropComment (code ++ (gap ++ tail)) = code ++ (gap ++ trail) := by
  by_cases hne : gap = []
  · simpa [hne] using hcode
  -- along the code, in which no comment starts
  induction code with
  | nil =>
    rw [List.nil_append, dropComment_blanks h, ← List.nil_append tail, hcode, List.nil_append]
    rfl
  | cons c code ih =>
    have hhead : c = '/' → (code ++ tail).head? ≠ some '/' := by
      rintro rfl hslash
      obtain ⟨rest, hrest⟩ := List.head?_eq_some_iff.1 hslash
      rw [List.cons_append, hrest] at hcode
      cases hcode
    rw [List.cons_append, dropComment_cons hhead, List.cons_append, List.cons.injEq] at hcode
    have hhead' : c = '/' → (code ++ (gap ++ tail)).head? ≠ some '/' := by
      intro hc
      refine head?_append_gap h hne (fun hslash => hhead hc ?_) tail
      obtain ⟨rest, hrest⟩ := List.head?_eq_some_iff.1 hslash
      rw [hrest, List.cons_append, List.head?_cons]
    rw [List.cons_append, dropComment_cons hhead', ih hcode.2, List.cons_append]

/-! ### Decorated lines -/

/-- Ways to decorate a line: blanks around its content, a comment behind it with a gap between them,
and a carriage return at its end. -/
inductive Decorates : String → String → Prop
  | spaced {lead code tail before after : String} (hlead : Text.IsGap lead)
      (hcode : content (lead ++ code ++ tail) = code.toList) (hbefore : Text.IsGap before)
      (hafter : Text.IsGap after) :
      Decorates (lead ++ code ++ tail) (lead ++ before ++ code ++ after ++ tail)
  | commented {gap : String} (line remark : String) (hgap : Text.IsGap gap) (hne : gap ≠ "") :
      Decorates line (line ++ gap ++ "//" ++ remark)
  | returned (line : String) : Decorates line (line ++ "\r")

/-- A line of blanks, or of blanks and a comment. -/
def IsRemark (line : String) : Prop :=
  Text.IsGap line ∨ ∃ gap remark, Text.IsGap gap ∧ line = gap ++ "//" ++ remark

theorem content_of_isRemark {line : String} (h : IsRemark line) : content line = [] := by
  rcases h with hgap | ⟨gap, remark, hgap, rfl⟩
  · rw [content, ← List.append_nil line.toList, dropComment_blanks hgap, dropComment,
      List.append_nil]
    exact Text.trimChars_of_blank hgap
  · have hremark : dropComment ("//".toList ++ remark.toList) = [] := by simp [dropComment]
    rw [content, String.toList_append, String.toList_append, List.append_assoc,
      dropComment_blanks hgap, hremark, List.append_nil]
    exact Text.trimChars_of_blank hgap

/-- What follows a gap leaves the content alone if it is empty or a comment. -/
theorem content_append_gap {line gap rest : String} (hgap : Text.IsGap gap) (hne : gap ≠ "")
    (hrest : dropComment rest.toList = []) : content (line ++ gap ++ rest) = content line := by
  have hne' : gap.toList ≠ [] := by simpa using hne
  rw [content, content, String.toList_append, String.toList_append, List.append_assoc,
    dropComment_append_gap hgap hne']
  split_ifs with hline
  · rw [hrest, List.append_nil, Text.trimChars_append_right hgap, hline]
  · rfl

/-- Blanks in front leave the content alone. -/
theorem content_gap_append {gap : String} (hgap : Text.IsGap gap) (line : String) :
    content (gap ++ line) = content line := by
  rw [content, content, String.toList_append, dropComment_blanks hgap,
    Text.trimChars_append_left hgap]

/-- Blanks behind the content leave it alone. -/
theorem content_insert {code tail gap : String} (h : content (code ++ tail) = code.toList)
    (hgap : Text.IsGap gap) : content (code ++ (gap ++ tail)) = code.toList := by
  rw [content, String.toList_append] at h
  rw [content, String.toList_append, String.toList_append]
  cases hcode : code.toList with
  | nil =>
    rw [hcode, List.nil_append] at h
    rw [List.nil_append, dropComment_blanks hgap, Text.trimChars_append_left hgap, h]
  | cons c cs =>
    rw [hcode, List.cons_append] at h
    -- the code starts with no blank, so the part without a comment is the code and the blanks
    -- behind it
    have hsolid := Text.isBlank_of_trimChars_eq_cons h
    have hcons : dropComment (c :: (cs ++ tail.toList)) = c :: dropComment (cs ++ tail.toList) := by
      refine dropComment_cons fun hc hslash => ?_
      obtain ⟨rest, hrest⟩ := List.head?_eq_some_iff.1 hslash
      rw [hc, hrest] at h
      cases h
    obtain ⟨trail, htrail, heq⟩ :=
      Text.exists_eq_trimChars_append hsolid (dropComment (cs ++ tail.toList))
    rw [← hcons, h] at heq
    have hboth : ∀ b ∈ gap.toList ++ trail, Text.isBlank b = true := by
      intro b hb
      exact (List.mem_append.1 hb).elim (hgap b) (htrail b)
    rw [dropComment_insert hgap heq, Text.trimChars_append_right hboth,
      ← Text.trimChars_append_right htrail, ← heq, h]

/-- Decoration leaves the content alone. -/
theorem content_of_decorates {line line' : String} (h : Decorates line line') :
    content line' = content line := by
  cases h with
  | @spaced lead code tail before after hlead hcode hbefore hafter =>
    simp only [String.append_assoc] at hcode ⊢
    rw [content_gap_append hlead] at hcode
    rw [content_gap_append hlead, content_gap_append hbefore, content_gap_append hlead,
      content_insert hcode hafter, hcode]
  | commented _ remark hgap hne =>
    rw [String.append_assoc]
    exact content_append_gap hgap hne (by simp [dropComment])
  | returned =>
    rw [← String.append_empty (s := line ++ "\r")]
    exact content_append_gap (by simp [Text.IsGap]; rfl) (by simp) rfl

theorem content_of_eqvGen {line line' : String} (h : Relation.EqvGen Decorates line line') :
    content line' = content line := by
  induction h with
  | rel _ _ h => exact content_of_decorates h
  | refl => rfl
  | symm _ _ _ ih => exact ih.symm
  | trans _ _ _ _ _ ih₁ ih₂ => exact ih₂.trans ih₁

/-! ### The lines of a text -/

/-- The lines of a text, all that stands between its line feeds. -/
def textLines (text : String) : List String := (text.toList.splitOn '\n').map String.ofList

theorem textLines_append (a b : String) :
    textLines (a ++ "\n" ++ b) = textLines a ++ textLines b := by
  have htext : (a ++ "\n" ++ b).toList = a.toList ++ '\n' :: b.toList := by simp
  rw [textLines, htext, List.splitOn, List.splitOnP_append_cons _ _ (by simp), List.map_append]
  rfl

theorem textLines_of_notMem {line : String} (h : '\n' ∉ line.toList) : textLines line = [line] := by
  have hsplit : line.toList.splitOn '\n' = [line.toList] := by
    refine List.splitOnP_eq_singleton fun c hc => ?_
    simpa using ne_of_mem_of_not_mem hc h
  rw [textLines, hsplit, List.map_singleton, String.ofList_toList]

theorem length_textLines (text : String) :
    (textLines text).length = text.toList.count '\n' + 1 := by
  rw [textLines, List.length_map]
  induction text.toList with
  | nil => rfl
  | cons c cs ih =>
    rw [List.splitOn] at ih ⊢
    rw [List.splitOnP_cons_eq_if_modifyHead]
    split_ifs with hc
    · rw [List.length_cons, ih, eq_of_beq hc, List.count_cons_self]
    · rw [List.length_modifyHead, ih, List.count_cons_of_ne (by simpa using hc)]

/-- Texts without line feeds, written a line each, are the lines, with nothing behind the last line
feed. -/
theorem textLines_unlines {lines : List String} (h : ∀ line ∈ lines, '\n' ∉ line.toList) :
    textLines (Text.unlines lines) = lines ++ [""] := by
  induction lines with
  | nil => rfl
  | cons line lines ih =>
    rw [List.forall_mem_cons] at h
    rw [Text.unlines_cons, textLines_append, textLines_of_notMem h.1, ih h.2, List.singleton_append,
      List.cons_append]

/-- Every text is a line, or a line with a line feed and a text behind it. -/
theorem text_induction {P : String → Prop} (line : ∀ line : String, '\n' ∉ line.toList → P line)
    (feed : ∀ line rest : String, '\n' ∉ line.toList → P rest → P (line ++ "\n" ++ rest))
    (text : String) : P text := by
  induction hcount : text.toList.count '\n' generalizing text with
  | zero => exact line text (List.count_eq_zero.1 hcount)
  | succ n ih =>
    have hmem : '\n' ∈ text.toList := List.count_pos_iff.1 (by omega)
    obtain ⟨cs, ds, htext, hcs⟩ := List.eq_append_cons_of_mem hmem
    have hsplit : text = String.ofList cs ++ "\n" ++ String.ofList ds := by
      rw [← String.ofList_toList (s := text), htext]
      simp [String.ofList_append, ← String.toList_inj]
    rw [hsplit]
    refine feed _ _ (by simpa using hcs) (ih _ ?_)
    rw [htext, List.count_append, List.count_eq_zero.2 hcs, List.count_cons_self] at hcount
    simpa using hcount

theorem notMem_bytes_feed {line : String} (h : '\n' ∉ line.toList) : 10 ∉ Text.bytes line := by
  refine Text.notMem_bytes (by decide) fun c hc heq => h ?_
  have hfeed : c = '\n' := Char.toNat_inj.1 heq
  exact hfeed ▸ hc

/-- A last line without a line feed is kept whole, unless nothing is there. -/
theorem lines_bytes_of_notMem {line : String} (h : '\n' ∉ line.toList) (hne : line ≠ "") :
    lines (Text.bytes line) = [Text.bytes line] := by
  have hbytes : Text.bytes line ≠ [] := by
    intro hnil
    refine hne (Option.some.inj ?_)
    rw [← Text.fromUTF8?_bytes line, ← Text.fromUTF8?_bytes "", hnil, Text.bytes_empty]
  rw [lines, ← List.append_nil (Text.bytes line), linesFrom_append (notMem_bytes_feed h), linesFrom]
  simp [hbytes]

/-- A carriage return that is the last byte of a text is its last character. -/
theorem exists_of_bytes_concat_return {text : String} {bs : List UInt8}
    (h : Text.bytes text = bs ++ [13]) : ∃ text', text = text' ++ "\r" ∧ Text.bytes text' = bs := by
  rcases List.eq_nil_or_concat text.toList with hnil | ⟨cs, c, hconcat⟩
  · rw [← String.ofList_toList (s := text), hnil, Text.bytes_ofList] at h
    simp at h
  · have htext : text = String.ofList cs ++ String.ofList [c] := by
      rw [← String.ofList_append, ← List.concat_eq_append, ← hconcat, String.ofList_toList]
    rw [htext, Text.bytes_append, Text.bytes_ofList [c], List.flatMap_singleton] at h
    have hlast : (String.utf8EncodeChar c).getLast? = some 13 := by
      have hne : String.utf8EncodeChar c ≠ [] := String.utf8EncodeChar_ne_nil
      have := congrArg List.getLast? h
      rw [List.getLast?_append, List.getLast?_concat, List.getLast?_eq_some_getLast hne,
        Option.some_or] at this
      rw [List.getLast?_eq_some_getLast hne, this]
    have hreturn : c = '\r' :=
      Char.toNat_inj.1
        (Text.toNat_eq_of_mem_utf8EncodeChar (List.mem_of_getLast? hlast) (by decide))
    subst hreturn
    refine ⟨String.ofList cs, htext, ?_⟩
    exact List.append_cancel_right h

/-- A line ends at its line feed; a carriage return before it takes nothing of the content along. -/
theorem exists_lines_bytes_feed {line : String} (h : '\n' ∉ line.toList) (bs : List UInt8) :
    ∃ line', lines (Text.bytes line ++ 10 :: bs) = Text.bytes line' :: lines bs ∧
      content line' = content line := by
  rw [lines, linesFrom_append (notMem_bytes_feed h), List.append_nil, linesFrom.eq_def]
  simp only [if_true]
  split
  · rename_i before hbefore
    rw [List.reverse_eq_cons_iff] at hbefore
    obtain ⟨line', rfl, hline'⟩ := exists_of_bytes_concat_return hbefore
    exact ⟨line', by rw [hline']; rfl, (content_of_decorates (.returned line')).symm⟩
  · exact ⟨line, by rw [List.reverse_reverse]; rfl, rfl⟩

/-! ### Tokens with the lines before them -/

/-- The contents of the lines that hold one, each with the number of lines before it. -/
def tokens : List String → List (ℕ × List Char)
  | [] => []
  | line :: lines =>
    let rest := (tokens lines).map (Prod.map (· + 1) id)
    if content line = [] then rest else (0, content line) :: rest

/-- The word of a token, where `number` is the number of the first line. -/
def wordAt (format : QFormat) (number : ℕ) (token : ℕ × List Char) : Except Error Word :=
  (format.decode (String.ofList token.2)).mapError (.parse (token.1 + number))

theorem tokens_cons_of_content_eq {line line' : String} (h : content line = content line')
    (lines : List String) : tokens (line :: lines) = tokens (line' :: lines) := by
  simp only [tokens, h]

/-- Behind other lines all tokens have those before them too. -/
theorem tokens_append (as bs : List String) :
    tokens (as ++ bs) = tokens as ++ (tokens bs).map (Prod.map (· + as.length) id) := by
  induction as with
  | nil => exact (List.map_id (tokens bs)).symm
  | cons line as ih =>
    have hshift : Prod.map (· + 1) id ∘ Prod.map (· + as.length) id =
        (Prod.map (· + (as.length + 1)) id : ℕ × List Char → ℕ × List Char) := rfl
    simp only [List.cons_append, tokens, ih, List.map_append, List.map_map, hshift,
      List.length_cons]
    split_ifs <;> rfl

theorem wordAt_comp_shift (format : QFormat) (number k : ℕ) :
    wordAt format number ∘ Prod.map (· + k) id = wordAt format (number + k) := by
  funext token
  simp only [Function.comp_apply, wordAt, Prod.map_fst, Prod.map_snd, id_eq]
  congr 2
  omega

/-- Lines are read by decoding their tokens. -/
theorem readLines_cons (format : QFormat) (number : ℕ) (line : String) (rest : List (List UInt8))
    (lines : List String)
    (h : readLines format (number + 1) rest = (tokens lines).mapM (wordAt format (number + 1))) :
    readLines format number (Text.bytes line :: rest) =
      (tokens (line :: lines)).mapM (wordAt format number) := by
  rw [readLines, Text.fromUTF8?_bytes]
  simp only [h, tokens, List.isEmpty_iff]
  split_ifs with hempty
  · rw [List.mapM_map, wordAt_comp_shift]
  · rw [List.mapM_cons, List.mapM_map, wordAt_comp_shift]
    simp only [wordAt, Nat.zero_add]
    cases format.decode (String.ofList (content line)) with
    | error e => rfl
    | ok word =>
      cases (tokens lines).mapM (wordAt format (number + 1)) <;> rfl

/-- Reading a text is decoding the tokens of its lines. -/
theorem readLines_bytes (format : QFormat) (text : String) (number : ℕ) :
    readLines format number (lines (Text.bytes text)) =
      (tokens (textLines text)).mapM (wordAt format number) := by
  induction text using text_induction generalizing number with
  | line line hline =>
    rw [textLines_of_notMem hline]
    by_cases hempty : line = ""
    · rw [hempty, Text.bytes_empty]
      rfl
    · rw [lines_bytes_of_notMem hline hempty]
      exact readLines_cons format number line [] [] rfl
  | feed line rest hline ih =>
    obtain ⟨line', hlines, hcontent⟩ := exists_lines_bytes_feed hline (Text.bytes rest)
    rw [Text.bytes_append, Text.bytes_append, Text.bytes_feed, List.append_assoc,
      List.singleton_append, hlines, textLines_append, textLines_of_notMem hline,
      List.singleton_append, ← tokens_cons_of_content_eq hcontent]
    exact readLines_cons format number line' _ _ (ih (number + 1))

/-- The words of a memory image that is a text. -/
def readText (format : QFormat) (text : String) : Except Error (List Word) :=
  read format (Text.bytes text)

theorem readText_eq (format : QFormat) (text : String) :
    readText format text = (tokens (textLines text)).mapM (wordAt format 1) :=
  readLines_bytes format text 1

/-! ### Edited texts -/

/-- A line that an edited text takes over, perhaps in another form, or a line that is new in it. -/
inductive LineEdit where
  | keep (old new : String)
  | insert (new : String)

namespace LineEdit

/-- The line before the edit, if it was there. -/
def old? : LineEdit → Option String
  | keep old _ => some old
  | insert _ => none

/-- The line after the edit. -/
def new : LineEdit → String
  | keep _ new => new
  | insert new => new

/-- A line that is kept differs in its decoration only, and a new line holds nothing. -/
def Harmless : LineEdit → Prop
  | keep old new => Relation.EqvGen Decorates old new
  | insert new => IsRemark new

end LineEdit

/-- The number of new lines before the line that had `k` lines before it. -/
def insertedBefore : List LineEdit → ℕ → ℕ
  | [], _ => 0
  | .insert _ :: edits, k => insertedBefore edits k + 1
  | .keep _ _ :: _, 0 => 0
  | .keep _ _ :: edits, k + 1 => insertedBefore edits k

/-- Harmless edits keep the tokens and move them behind the new lines before them. -/
theorem tokens_edited {edits : List LineEdit} (h : ∀ edit ∈ edits, edit.Harmless) :
    tokens (edits.map LineEdit.new) =
      (tokens (edits.filterMap LineEdit.old?)).map
        (Prod.map (fun k => k + insertedBefore edits k) id) := by
  induction edits with
  | nil => rfl
  | cons edit edits ih =>
    rw [List.forall_mem_cons] at h
    have ih := ih h.2
    cases edit with
    | insert new =>
      simp only [List.map_cons, List.filterMap_cons, LineEdit.new, LineEdit.old?, tokens, ih,
        List.map_map, content_of_isRemark h.1, if_true]
      rfl
    | keep old new =>
      simp only [List.map_cons, List.filterMap_cons, LineEdit.new, LineEdit.old?, tokens, ih,
        List.map_map, content_of_eqvGen h.1]
      have hmove : Prod.map (· + 1) id ∘ Prod.map (fun k => k + insertedBefore edits k) id =
          (Prod.map (fun k => k + insertedBefore (.keep old new :: edits) k) id ∘
            Prod.map (· + 1) id : ℕ × List Char → ℕ × List Char) := by
        funext token
        simp only [Function.comp_apply, Prod.map_apply', insertedBefore, Prod.mk.injEq, and_true]
        omega
      rw [hmove]
      split_ifs
      · rw [List.map_map]
      · rw [List.map_cons, List.map_map]
        rfl

/-- A carriage return at the end of a text changes no token. -/
theorem tokens_textLines_return (text : String) :
    tokens (textLines (text ++ "\r")) = tokens (textLines text) := by
  induction text using text_induction with
  | line line hline =>
    have hreturn : '\n' ∉ (line ++ "\r").toList := by simpa using hline
    rw [textLines_of_notMem hreturn, textLines_of_notMem hline]
    exact tokens_cons_of_content_eq (content_of_decorates (.returned line)) []
  | feed line rest hline ih =>
    rw [String.append_assoc, textLines_append, textLines_append, tokens_append, tokens_append, ih]

/-- Line ends may have a carriage return before the line feed. -/
theorem tokens_textLines_joined_return (lines : List String) :
    tokens (textLines (Text.joined "\r\n" lines)) =
      tokens (textLines (Text.joined "\n" lines)) := by
  induction lines with
  | nil => rfl
  | cons line lines ih =>
    cases lines with
    | nil => rfl
    | cons next lines =>
      have hends : line ++ "\r\n" = line ++ "\r" ++ "\n" := by
        rw [String.append_assoc]
        rfl
      have hlength : (textLines (line ++ "\r")).length = (textLines line).length := by
        simp [length_textLines]
      rw [Text.joined] at ih
      rw [Text.joined, Text.joined, String.intercalate_cons_cons,
        String.intercalate_cons_cons, hends, textLines_append, textLines_append, tokens_append,
        tokens_append, tokens_textLines_return, hlength, ih]
      rfl

/-- The first token that is none of a word is reported with its line, however the lines are
numbered. -/
theorem mapM_wordAt_cases (format : QFormat) (ts : List (ℕ × List Char)) :
    (∃ words, ∀ f : ℕ → ℕ, (ts.map (Prod.map f id)).mapM (wordAt format 1) = .ok words) ∨
      ∃ k source, ∀ f : ℕ → ℕ, (ts.map (Prod.map f id)).mapM (wordAt format 1) =
        .error (.parse (f k + 1) source) := by
  induction ts with
  | nil => exact .inl ⟨[], fun _ => rfl⟩
  | cons token ts ih =>
    simp only [List.map_cons, List.mapM_cons, wordAt, Prod.map_fst, Prod.map_snd, id_eq]
    cases format.decode (String.ofList token.2) with
    | error source => exact .inr ⟨token.1, source, fun _ => rfl⟩
    | ok word =>
      rcases ih with ⟨words, hwords⟩ | ⟨k, source, hsource⟩
      · refine .inl ⟨word :: words, fun f => ?_⟩
        rw [hwords f]
        rfl
      · refine .inr ⟨k, source, fun f => ?_⟩
        rw [hsource f]
        rfl

/-- A text is read as words, or the first line that holds none is reported. The same words or the
same failure come of its tokens on other lines. -/
theorem readText_cases (format : QFormat) (text : String) :
    (∃ words, readText format text = .ok words ∧ ∀ f : ℕ → ℕ,
      ((tokens (textLines text)).map (Prod.map f id)).mapM (wordAt format 1) = .ok words) ∨
    ∃ k source, readText format text = .error (.parse (k + 1) source) ∧ ∀ f : ℕ → ℕ,
      ((tokens (textLines text)).map (Prod.map f id)).mapM (wordAt format 1) =
        .error (.parse (f k + 1) source) := by
  have htext : readText format text =
      ((tokens (textLines text)).map (Prod.map id id)).mapM (wordAt format 1) := by
    rw [readText_eq, Prod.map_id, List.map_id]
  rw [htext]
  rcases mapM_wordAt_cases format (tokens (textLines text)) with ⟨words, h⟩ | ⟨k, source, h⟩
  · exact .inl ⟨words, h id, h⟩
  · exact .inr ⟨k, source, h id, h⟩

/-- Texts joined by a line feed are read one after the other. -/
theorem readText_append (format : QFormat) (a b : String) :
    (∀ e, readText format a = .error e → readText format (a ++ "\n" ++ b) = .error e) ∧
      ∀ xs, readText format a = .ok xs →
        (∀ ys, readText format b = .ok ys → readText format (a ++ "\n" ++ b) = .ok (xs ++ ys)) ∧
        ∀ k source, readText format b = .error (.parse k source) →
          readText format (a ++ "\n" ++ b) =
            .error (.parse (k + 1 + a.toList.count '\n') source) := by
  have hparts : readText format (a ++ "\n" ++ b) =
      readText format a >>= fun xs =>
        ((tokens (textLines b)).map (Prod.map (· + (a.toList.count '\n' + 1)) id)).mapM
          (wordAt format 1) >>= fun ys => pure (xs ++ ys) := by
    rw [readText_eq, textLines_append, tokens_append, List.mapM_append, ← readText_eq,
      length_textLines]
  refine ⟨fun e ha => by rw [hparts, ha, error_bind], fun xs ha => ?_⟩
  rw [hparts, ha, ok_bind]
  rcases readText_cases format b with ⟨words, hb, hall⟩ | ⟨k, source, hb, hall⟩
  · rw [hb, hall, ok_bind]
    refine ⟨fun ys hys => ?_, fun k source h => nomatch h⟩
    cases hys
    rfl
  · rw [hb, hall, error_bind]
    refine ⟨fun ys h => (nomatch h), fun k' source' h => ?_⟩
    cases h
    congr 2
    omega

/-- Harmless edits of the lines keep the words, and move a failure behind the new lines before
it. -/
theorem readText_edited {old new : String} {edits : List LineEdit}
    (hold : textLines old = edits.filterMap LineEdit.old?)
    (hnew : textLines new = edits.map LineEdit.new) (h : ∀ edit ∈ edits, edit.Harmless)
    (format : QFormat) :
    (∀ words, readText format old = .ok words → readText format new = .ok words) ∧
      ∀ k source, readText format old = .error (.parse (k + 1) source) →
        readText format new = .error (.parse (k + 1 + insertedBefore edits k) source) := by
  rw [readText_eq format new, hnew, tokens_edited h, ← hold]
  rcases readText_cases format old with ⟨words, hread, hall⟩ | ⟨k, source, hread, hall⟩
  · rw [hread, hall]
    exact ⟨fun _ h => h, fun _ _ h => nomatch h⟩
  · rw [hread, hall]
    refine ⟨fun _ h => (nomatch h), fun k' source' h => ?_⟩
    cases h
    congr 2
    omega

/-- Every text is read as words, or fails at a line. Two texts joined by a line feed are read one
after the other, and a failure of the second counts the lines of the first. Edits that insert lines
without content or change the decoration of lines keep the words, and move a failure behind the
inserted lines before it. Line ends may have a carriage return, and the last of them may be left
out. -/
theorem readText_by_lines (format : QFormat) :
    (∀ text, (∃ words, readText format text = .ok words) ∨
      ∃ k source, readText format text = .error (.parse (k + 1) source)) ∧
    (∀ a b : String,
      (∀ line source, readText format a = .error (.parse line source) →
        readText format (a ++ "\n" ++ b) = .error (.parse line source)) ∧
      ∀ xs, readText format a = .ok xs →
        (∀ ys, readText format b = .ok ys → readText format (a ++ "\n" ++ b) = .ok (xs ++ ys)) ∧
        ∀ k source, readText format b = .error (.parse k source) →
          readText format (a ++ "\n" ++ b) = .error (.parse (k + 1 + a.toList.count '\n') source)) ∧
    (∀ (old new : String) (edits : List LineEdit), textLines old = edits.filterMap LineEdit.old? →
      textLines new = edits.map LineEdit.new → (∀ edit ∈ edits, edit.Harmless) →
      (∀ words, readText format old = .ok words → readText format new = .ok words) ∧
      ∀ k source, readText format old = .error (.parse (k + 1) source) →
        readText format new = .error (.parse (k + 1 + insertedBefore edits k) source)) ∧
    (∀ lines, readText format (Text.joined "\r\n" lines) =
      readText format (Text.joined "\n" lines)) ∧
    ∀ text, readText format (text ++ "\n") = readText format text := by
  refine ⟨fun text => ?_, fun a b => ?_, fun old new edits hold hnew h => ?_, fun lines => ?_,
    fun text => ?_⟩
  · rcases readText_cases format text with ⟨words, hread, -⟩ | ⟨k, source, hread, -⟩
    · exact .inl ⟨words, hread⟩
    · exact .inr ⟨k, source, hread⟩
  · obtain ⟨herror, hok⟩ := readText_append format a b
    exact ⟨fun line source => herror (.parse line source), hok⟩
  · exact readText_edited hold hnew h format
  · rw [readText_eq, readText_eq, tokens_textLines_joined_return]
  · have hlast : tokens (textLines "") = [] := rfl
    rw [readText_eq, readText_eq, ← String.append_empty (s := text ++ "\n"), textLines_append,
      tokens_append, hlast, List.map_nil, List.append_nil]

/-- The three decorations of a line put together. -/
theorem eqvGen_decorated : Relation.EqvGen Decorates "4000" "\t4000 // one\r" := by
  have hspaced : Decorates "4000" "\t4000" := by
    refine @Decorates.spaced "" "4000" "" "\t" "" ?_ (by decide) ?_ ?_ <;>
      exact List.all_eq_true.1 (by decide)
  have hcommented : Decorates "\t4000" "\t4000 // one" :=
    @Decorates.commented " " "\t4000" " one" (List.all_eq_true.1 (by decide)) (by decide)
  exact .trans _ _ _ (.rel _ _ hspaced)
    (.trans _ _ _ (.rel _ _ hcommented) (.rel _ _ (.returned "\t4000 // one")))

/-- A comment in front moves the failure of the second line to the third, and so does a text of one
line. -/
theorem readText_by_lines_commented :
    readText QFormat.q2_14 "4000\nzz" = .error (.parse 2 (.invalidHex "zz")) ∧
      readText QFormat.q2_14 "// weights\n\t4000 // one\r\nzz" =
        .error (.parse 3 (.invalidHex "zz")) ∧
      readText QFormat.q2_14 "4000\n4000\nzz" = .error (.parse 3 (.invalidHex "zz")) := by
  have hone : readText QFormat.q2_14 "4000" = .ok [⟨0x4000, QFormat.q2_14⟩] := by
    rw [readText_eq]
    decide +kernel
  have hold : readText QFormat.q2_14 "4000\nzz" = .error (.parse 2 (.invalidHex "zz")) := by
    rw [readText_eq]
    decide +kernel
  have hedits :
      ∀ edit ∈ [LineEdit.insert "// weights", .keep "4000" "\t4000 // one\r", .keep "zz" "zz"],
      edit.Harmless := by
    simp only [List.forall_mem_cons, List.not_mem_nil, false_implies, implies_true, and_true]
    exact ⟨.inr ⟨"", " weights", List.all_eq_true.1 (by decide), rfl⟩, eqvGen_decorated, .refl _⟩
  obtain ⟨-, hjoin, hedit, -, -⟩ := readText_by_lines QFormat.q2_14
  refine ⟨hold, (hedit "4000\nzz" "// weights\n\t4000 // one\r\nzz" _ rfl rfl hedits).2 1 _ hold,
    ?_⟩
  exact ((hjoin "4000" "4000\nzz").2 _ hone).2 2 _ hold

end Image

end SynapseMem
