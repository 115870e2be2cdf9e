import SynapseMem.Proofs.Weights.RoundTrip

/-!
# The two range policies compared

The policies part only at the first weight that the format refuses. Up to there both see accepted
weights and nothing else. At that weight `abort` stops and puts its place in the error, and `skip`
goes on with the same place first in its list (`QFormat.FirstRefused.skippedFrom_eq`), when the
tokens of all weights before it have been put out (`QFormat.FirstRefused.lines_eq`).
-/

namespace SynapseMem

namespace QFormat

/-- A matrix with the answers of a format for all its weights. -/
def answered (q : QFormat) (rows cols : ℕ) (weights : List Binary64) : QuantizedLayer :=
  ⟨rows, cols, weights, weights.map q.quantize⟩

/-- The token of a weight in a format and a style. -/
def IsToken (q : QFormat) (style : HexStyle) (x : Binary64) (token : String) : Prop :=
  ∃ word, q.quantize x = .ok word ∧ word.render? style = some token

/-! ### Accepted weights -/

section Accepted

variable {q : QFormat} {weights : List Binary64} (h : ∀ x ∈ weights, q.Accepts x)

include h

/-- Accepted weights are not skipped. -/
theorem skippedFrom_of_accepts (cols index : ℕ) (results : List (Except RangeError Word)) :
    skippedFrom cols index (weights.map q.quantize ++ results) =
      skippedFrom cols (index + weights.length) results := by
  induction weights generalizing index with
  | nil => rfl
  | cons x weights ih =>
    rw [List.forall_mem_cons] at h
    obtain ⟨⟨word, hword⟩, hrest⟩ := h
    rw [List.map_cons, List.cons_append, hword, skippedFrom, ih hrest, List.length_cons]
    congr 1
    omega

/-- Accepted weights are put out one after the other. -/
theorem forall₂_isToken_of_accepts {style : HexStyle} (hstyle : style.Writable) (rows cols : ℕ) :
    List.Forall₂ (q.IsToken style) weights ((q.answered rows cols weights).lines style) := by
  induction weights with
  | nil => exact .nil
  | cons x weights ih =>
    rw [List.forall_mem_cons] at h
    obtain ⟨⟨word, hword⟩, hrest⟩ := h
    have hlines : (q.answered rows cols (x :: weights)).lines style =
        style.text word.raw :: (q.answered rows cols weights).lines style := by
      simp [QuantizedLayer.lines, QuantizedLayer.words, answered, hword, Except.toOption]
    rw [hlines]
    exact .cons ⟨word, hword, Word.render?_eq_some_iff.2 ⟨hstyle, rfl⟩⟩ (ih hrest)

end Accepted

/-! ### The first refused weight -/

namespace FirstRefused

variable {q : QFormat} {weights : List Binary64} {index : ℕ} {x : Binary64}

/-- The answers around the first refused weight. -/
theorem map_quantize (h : q.FirstRefused weights index x) :
    weights.map q.quantize =
      (weights.take index).map q.quantize ++
        .error ⟨x, q⟩ :: (weights.drop (index + 1)).map q.quantize := by
  obtain ⟨hlt, hx⟩ := List.getElem?_eq_some_iff.1 h.here
  have hsplit : weights = weights.take index ++ x :: weights.drop (index + 1) := by
    rw [← hx, ← List.drop_eq_getElem_cons hlt, List.take_append_drop]
  conv_lhs => rw [hsplit]
  rw [List.map_append, List.map_cons, not_accepts_iff.1 h.refused]

/-- The first refused weight is the first that is skipped. -/
theorem skippedFrom_eq (h : q.FirstRefused weights index x) (cols : ℕ) :
    skippedFrom cols 0 (weights.map q.quantize) =
      ⟨index / cols, index % cols, x⟩ ::
        skippedFrom cols (index + 1) ((weights.drop (index + 1)).map q.quantize) := by
  have hlength : (weights.take index).length = index := List.length_take_of_le h.lt.le
  rw [h.map_quantize, skippedFrom_of_accepts h.before, hlength, Nat.zero_add, skippedFrom]

/-- The first refused weight leaves no line between those before it and those after it. -/
theorem lines_eq (h : q.FirstRefused weights index x) (style : HexStyle) (rows cols : ℕ) :
    (q.answered rows cols weights).lines style =
      (q.answered rows cols (weights.take index)).lines style ++
        (q.answered rows cols (weights.drop (index + 1))).lines style := by
  simp only [QuantizedLayer.lines, QuantizedLayer.words, answered]
  rw [h.map_quantize, List.filterMap_append, List.map_append]
  rfl

end FirstRefused

end QFormat

/-! ### Both policies -/

section Policies

variable {model : Model} {layer : String} {tensor : Tensor} {rows cols : ℕ}

/-- A matrix whose weights the policy admits is written and reported on. -/
theorem run_exportWeights_of_fits (options : ExportOptions) (h : model.layer layer = .ok tensor)
    (hdims : tensor.shape = [rows, cols])
    (hfits : options.policy = .abort → ∀ x ∈ tensor.data, options.format.Accepts x)
    (hstyle : options.style.Writable) (text : String) :
    (exportWeights model layer options).run.run text =
      (.ok ((options.format.answered rows cols tensor.data).report layer options),
        text ++
          Text.unlines ((options.format.answered rows cols tensor.data).lines options.style)) := by
  have hquantized := quantizeLayer_of_fits h hdims hfits
  obtain ⟨tensor', -, hof⟩ := quantizeLayer_eq_ok_iff.1 hquantized
  rw [run_exportWeights_of_ok hquantized, hof.run_writeLayer fun _ _ => hstyle]
  rfl

/-- The weight at a row-major place of a layer stands in the row and the column of that place. -/
theorem element?_of_layer (h : model.layer layer = .ok tensor) (hdims : tensor.shape = [rows, cols])
    {index : ℕ} {x : Binary64} (hx : tensor.data[index]? = some x) :
    ∃ v, model.stateDict.find? layer = some v ∧
      Tensor.element? v [index / cols, index % cols] = some x := by
  obtain ⟨v, hfind, hv⟩ := layer_eq_ok_iff.1 h
  have hnested := Tensor.nested_of_ofJson hv
  rw [hdims] at hnested
  exact ⟨v, hfind, (element?_of_matrix hnested hx).2.2⟩

end Policies

/-- An error before quantizing is the same under both policies. A layer whose weights all fit is
written alike, and nothing is skipped. Otherwise `abort` puts out nothing and reports the first
weight that does not fit, and `skip` succeeds, skips that weight first, and puts out the tokens of
all weights before it first. -/
theorem exportWeights_policies {style : HexStyle} (hstyle : style.Writable) (model : Model)
    (layer : String) (format : QFormat) (text : String) :
    (∀ fault, model.layer layer = .error fault → ∀ policy,
      (exportWeights model layer ⟨format, style, policy⟩).run.run text = (.error fault, text)) ∧
    ∀ tensor, model.layer layer = .ok tensor →
      (tensor.matrixDims = none → ∀ policy,
        (exportWeights model layer ⟨format, style, policy⟩).run.run text =
          (fail (.shape layer (.notMatrix tensor.shape)), text)) ∧
      ∀ rows cols, tensor.shape = [rows, cols] →
        ((∀ x ∈ tensor.data, format.Accepts x) → ∃ report image, report.skipped = [] ∧ ∀ policy,
          (exportWeights model layer ⟨format, style, policy⟩).run.run text =
            (.ok report, text ++ image)) ∧
        ((¬ ∀ x ∈ tensor.data, format.Accepts x) →
          ∃ v row col x report tokens rest,
            col < cols ∧ format.FirstRefused tensor.data (row * cols + col) x ∧
            model.stateDict.find? layer = some v ∧ Tensor.element? v [row, col] = some x ∧
            (exportWeights model layer ⟨format, style, .abort⟩).run.run text =
              (fail (.range row col ⟨x, format⟩), text) ∧
            (exportWeights model layer ⟨format, style, .skip⟩).run.run text =
              (.ok report, text ++ Text.unlines (tokens ++ rest)) ∧
            report.skipped.head? = some ⟨row, col, x⟩ ∧
            List.Forall₂ (format.IsToken style) (tensor.data.take (row * cols + col)) tokens) := by
  refine ⟨fun fault hlayer policy => ?_, fun tensor hlayer => ⟨fun hdims policy => ?_, ?_⟩⟩
  · exact run_exportWeights_of_error (quantizeLayer_of_layer_error hlayer _) text
  · exact run_exportWeights_of_error (quantizeLayer_of_not_matrix hlayer hdims _) text
  intro rows cols hdims
  constructor
  · intro hfits
    have hnone := QFormat.skippedFrom_of_accepts hfits cols 0 []
    rw [List.append_nil, skippedFrom] at hnone
    refine ⟨(format.answered rows cols tensor.data).report layer ⟨format, style, .skip⟩,
      Text.unlines ((format.answered rows cols tensor.data).lines style), hnone, fun policy => ?_⟩
    exact run_exportWeights_of_fits ⟨format, style, policy⟩ hlayer hdims (fun _ => hfits)
      hstyle text
  · intro hfits
    have hpolicy : (⟨format, style, .abort⟩ : ExportOptions).policy = .abort := rfl
    obtain ⟨index, x, hfirst, hrefused⟩ := quantizeLayer_of_refused hlayer hdims hpolicy hfits
    obtain ⟨v, hfind, helement⟩ := element?_of_layer hlayer hdims hfirst.here
    have hskip :=
      run_exportWeights_of_fits ⟨format, style, .skip⟩ hlayer hdims (by simp) hstyle text
    rw [hfirst.lines_eq] at hskip
    refine ⟨v, index / cols, index % cols, x, _, _, _, ?_, ?_, hfind, helement, ?_, hskip, ?_, ?_⟩
    · exact Nat.mod_lt _ (cols_pos_of_lt hlayer hdims hfirst.lt)
    · rwa [Nat.div_add_mod']
    · exact run_exportWeights_of_error hrefused text
    · exact congrArg List.head? (hfirst.skippedFrom_eq cols)
    · rw [Nat.div_add_mod']
      exact QFormat.forall₂_isToken_of_accepts hfirst.before hstyle rows cols

/-- Two rows, of which the second starts with a number that does not fit Q2.14. -/
def brokenRow : Model :=
  ⟨[("w", .array [.array [.bool true, .bool false], .array [.number (.int 3), .bool true]])],
    [], []⟩

/-- The weight in row 1 and column 0 ends one export and is the first that the other skips. -/
theorem exportWeights_policies_brokenRow :
    (HexStyle.padded 4).Writable ∧
    (exportWeights brokenRow "w" ⟨QFormat.q2_14, .padded 4, .abort⟩).run.run "" =
      (fail (.range 1 0 ⟨⟨0x4008000000000000⟩, QFormat.q2_14⟩), "") ∧
    ∃ report tokens rest,
      (exportWeights brokenRow "w" ⟨QFormat.q2_14, .padded 4, .skip⟩).run.run "" =
        (.ok report, "" ++ Text.unlines (tokens ++ rest)) ∧
      report.skipped.head? = some ⟨1, 0, ⟨0x4008000000000000⟩⟩ ∧
      List.Forall₂ (QFormat.q2_14.IsToken (.padded 4)) [Binary64.one, Binary64.zero] tokens := by
  have hstyle : (HexStyle.padded 4).Writable := by decide
  have hlayer : brokenRow.layer "w" =
      .ok ⟨[2, 2], [Binary64.one, Binary64.zero, ⟨0x4008000000000000⟩, Binary64.one]⟩ := by
    decide +kernel
  have habort : (exportWeights brokenRow "w" ⟨QFormat.q2_14, .padded 4, .abort⟩).run.run "" =
      (fail (.range 1 0 ⟨⟨0x4008000000000000⟩, QFormat.q2_14⟩), "") := by
    change @Eq (Except (Fault Error) Report × String) _ _
    decide +kernel
  have hrefused : ¬ ∀ x ∈ [Binary64.one, Binary64.zero, ⟨0x4008000000000000⟩, Binary64.one],
      QFormat.q2_14.Accepts x := by
    intro h
    exact QFormat.not_accepts_iff.2 (by decide +kernel) (h ⟨0x4008000000000000⟩ (by simp))
  obtain ⟨v, row, col, x, report, tokens, rest, -, -, -, -, hrun, hskip, hhead, htokens⟩ :=
    (((exportWeights_policies hstyle brokenRow "w" QFormat.q2_14 "").2 _ hlayer).2 2 2 rfl).2
      hrefused
  cases habort.symm.trans hrun
  exact ⟨hstyle, habort, report, tokens, rest, hskip, hhead, htokens⟩

end SynapseMem
