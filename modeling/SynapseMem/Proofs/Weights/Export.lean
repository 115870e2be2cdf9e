import Mathlib.Tactic
import SynapseMem.Proofs.Files
import SynapseMem.Proofs.Fixed.Tokens
import SynapseMem.Proofs.Steps
import SynapseMem.Proofs.Tensor.Nested
import SynapseMem.Weights.Export

/-!
# What an export writes and reports

An export is described without its monad. `quantizeLayer` succeeds on the matrices whose weights the
policy admits and gives one answer per weight (`quantizeLayer_eq_ok_iff`); it ends the process only
where reading the tensor does (`quantizeLayer_eq_crash_iff`). Writing such a layer puts out the
tokens of the accepted weights, a line each, and gives the report `QuantizedLayer.report`
(`QuantizedLayer.Of.run_writeLayer`), unless the style has no token for one of them, when nothing is
put out (`QuantizedLayer.Of.run_writeLayer_of_not_writable`). No error comes up once the layer is
quantized, so an export that reports one has touched no file (`transaction_exportWeightsToFile`).
-/

namespace SynapseMem

/-! ### Quantizing a layer -/

/-- The format has a word for the value. -/
def QFormat.Accepts (q : QFormat) (x : Binary64) : Prop := ∃ word, q.quantize x = .ok word

/-- Quantizing all values succeeds when each of them is accepted, with their words. -/
theorem QFormat.tryQuantizeFrom_eq_ok_iff {q : QFormat} (index : ℕ) {xs : List Binary64}
    {words : List Word} :
    q.tryQuantizeFrom index xs = .ok words ↔
      List.Forall₂ (fun x word => q.quantize x = .ok word) xs words := by
  refine forall₂_of_reader q.tryQuantizeFrom (fun _ => rfl) (fun i x xs words => ?_) index
  rw [tryQuantizeFrom]
  cases q.quantize x with
  | error e => simp
  | ok word =>
    cases q.tryQuantizeFrom (i + 1) xs with
    | error e => simp
    | ok rest => simp [eq_comm]

theorem exists_tryQuantizeAll_iff {q : QFormat} {xs : List Binary64} :
    (∃ words, tryQuantizeAll xs q = .ok words) ↔ ∀ x ∈ xs, q.Accepts x := by
  simp only [tryQuantizeAll, QFormat.tryQuantizeFrom_eq_ok_iff]
  exact exists_forall₂_iff

theorem map_quantize_of_tryQuantizeAll {q : QFormat} {xs : List Binary64} {words : List Word}
    (h : tryQuantizeAll xs q = .ok words) : xs.map q.quantize = words.map .ok :=
  map_eq_map_iff_forall₂.2 ((QFormat.tryQuantizeFrom_eq_ok_iff 0).1 h)

namespace QFormat

variable {q : QFormat} {weights : List Binary64} {index : ℕ} {x : Binary64}

/-- A refusal names the value and the format. -/
theorem quantize_eq_error {e : RangeError} (h : q.quantize x = .error e) : e = ⟨x, q⟩ := by
  simp only [quantize] at h
  split_ifs at h <;> cases h <;> rfl

theorem not_accepts_iff : ¬ q.Accepts x ↔ q.quantize x = .error ⟨x, q⟩ := by
  constructor
  · intro h
    cases hquantize : q.quantize x with
    | ok word => exact absurd ⟨word, hquantize⟩ h
    | error e => rw [quantize_eq_error hquantize]
  · rintro h ⟨word, hword⟩
    cases h.symm.trans hword

/-- The weight at a place is refused, and none before it is. -/
structure FirstRefused (q : QFormat) (weights : List Binary64) (index : ℕ) (x : Binary64) :
    Prop where
  here : weights[index]? = some x
  refused : ¬ q.Accepts x
  before : ∀ y ∈ weights.take index, q.Accepts y

theorem FirstRefused.lt (h : q.FirstRefused weights index x) : index < weights.length :=
  (List.getElem?_eq_some_iff.1 h.here).1

/-- Quantizing all values stops at the first that is refused. -/
theorem firstRefused_of_tryQuantizeFrom {start : ℕ} {e : BatchError}
    (h : q.tryQuantizeFrom start weights = .error e) :
    ∃ index x, e = ⟨start + index, ⟨x, q⟩⟩ ∧ q.FirstRefused weights index x := by
  have hcons : ∀ i y weights e, q.tryQuantizeFrom i (y :: weights) = .error e →
      ¬ q.Accepts y ∧ e = ⟨i, ⟨y, q⟩⟩ ∨
        q.Accepts y ∧ q.tryQuantizeFrom (i + 1) weights = .error e := by
    intro i y weights e h
    rw [tryQuantizeFrom] at h
    cases hy : q.quantize y with
    | error fault =>
      have hfault := quantize_eq_error hy
      rw [hy] at h
      cases h
      exact .inl ⟨not_accepts_iff.2 (hfault ▸ hy), by rw [hfault]⟩
    | ok word =>
      cases hrest : q.tryQuantizeFrom (i + 1) weights with
      | ok words =>
        simp only [hy, hrest] at h
        cases h
      | error e' =>
        simp only [hy, hrest] at h
        cases h
        exact .inr ⟨⟨word, hy⟩, rfl⟩
  obtain ⟨index, x, hx, hrefused, hbefore, he⟩ :=
    exists_first_of_reader q.Accepts (fun index x => ⟨index, ⟨x, q⟩⟩) q.tryQuantizeFrom
      (fun _ => rfl) hcons h
  exact ⟨index, x, he, hx, hrefused, hbefore⟩

/-- Where some weight is refused there is a first one, and quantizing all weights reports it. -/
theorem exists_firstRefused (h : ¬ ∀ x ∈ weights, q.Accepts x) :
    ∃ index x, q.FirstRefused weights index x ∧
      tryQuantizeAll weights q = .error ⟨index, ⟨x, q⟩⟩ := by
  rw [← exists_tryQuantizeAll_iff, not_exists] at h
  cases hall : tryQuantizeAll weights q with
  | ok words => exact absurd hall (h words)
  | error e =>
    obtain ⟨index, x, rfl, hfirst⟩ := firstRefused_of_tryQuantizeFrom hall
    exact ⟨index, x, hfirst, by rw [Nat.zero_add]⟩

end QFormat

/-- A layer quantized from a matrix: its weights, an answer for each, and under `abort` no
refusal. -/
structure QuantizedLayer.Of (options : ExportOptions) (tensor : Tensor)
    (quantized : QuantizedLayer) : Prop where
  shape : tensor.shape = [quantized.rows, quantized.cols]
  values : quantized.values = tensor.data
  results : quantized.results = tensor.data.map options.format.quantize
  fits : options.policy = .abort → ∀ x ∈ tensor.data, options.format.Accepts x
  length : quantized.values.length = quantized.rows * quantized.cols

section Quantizing

variable {model : Model} {layer : String} {tensor : Tensor} {rows cols : ℕ}
  {options : ExportOptions}

theorem matrixDims_eq_some_iff :
    tensor.matrixDims = some (rows, cols) ↔ tensor.shape = [rows, cols] := by
  unfold Tensor.matrixDims
  split <;> simp_all

theorem position_of_pos (h : 0 < cols) (index : ℕ) :
    position cols index = .ok (index / cols, index % cols) :=
  if_neg h.ne'

theorem layer_eq_ok_iff :
    model.layer layer = .ok tensor ↔
      ∃ v, model.stateDict.find? layer = some v ∧ Tensor.ofJson layer v = .ok tensor := by
  unfold Model.layer
  cases model.stateDict.find? layer with
  | none => simp [fail]
  | some v => simp

/-- A tensor of the dump has as many elements as its dimensions say. -/
theorem length_of_layer (h : model.layer layer = .ok tensor) :
    tensor.data.length = tensor.shape.prod := by
  obtain ⟨v, -, hv⟩ := layer_eq_ok_iff.1 h
  exact (Tensor.nested_of_ofJson hv).length

theorem quantizeLayer_of_layer_error {fault : Fault Error} (h : model.layer layer = .error fault)
    (options : ExportOptions) :
    quantizeLayer model layer options = .error fault := by
  rw [quantizeLayer, h, error_bind]

theorem quantizeLayer_of_not_matrix (h : model.layer layer = .ok tensor)
    (hdims : tensor.matrixDims = none) (options : ExportOptions) :
    quantizeLayer model layer options = fail (.shape layer (.notMatrix tensor.shape)) := by
  rw [quantizeLayer, h, ok_bind, hdims]

/-- A matrix whose weights the policy admits is quantized weight by weight. -/
theorem quantizeLayer_of_fits (h : model.layer layer = .ok tensor)
    (hdims : tensor.shape = [rows, cols])
    (hfits : options.policy = .abort → ∀ x ∈ tensor.data, options.format.Accepts x) :
    quantizeLayer model layer options =
      .ok ⟨rows, cols, tensor.data, tensor.data.map options.format.quantize⟩ := by
  rw [quantizeLayer, h, ok_bind, matrixDims_eq_some_iff.2 hdims]
  cases hpolicy : options.policy with
  | skip => rfl
  | abort =>
    obtain ⟨words, hwords⟩ := exists_tryQuantizeAll_iff.2 (hfits hpolicy)
    rw [map_quantize_of_tryQuantizeAll hwords]
    simp only [hwords]
    rfl

/-- Rows that hold a weight are not empty. -/
theorem cols_pos_of_lt (h : model.layer layer = .ok tensor) (hdims : tensor.shape = [rows, cols])
    {index : ℕ} (hindex : index < tensor.data.length) : 0 < cols := by
  rw [length_of_layer h, hdims] at hindex
  rcases Nat.eq_zero_or_pos cols with rfl | hpos
  · simp at hindex
  · exact hpos

/-- Under `abort` the first weight that does not fit is reported with its place. -/
theorem quantizeLayer_of_refused (h : model.layer layer = .ok tensor)
    (hdims : tensor.shape = [rows, cols]) (hpolicy : options.policy = .abort)
    (hfits : ¬ ∀ x ∈ tensor.data, options.format.Accepts x) :
    ∃ index x, options.format.FirstRefused tensor.data index x ∧
      quantizeLayer model layer options =
        fail (.range (index / cols) (index % cols) ⟨x, options.format⟩) := by
  obtain ⟨index, x, hfirst, hall⟩ := QFormat.exists_firstRefused hfits
  refine ⟨index, x, hfirst, ?_⟩
  rw [quantizeLayer, h, ok_bind, matrixDims_eq_some_iff.2 hdims]
  simp only [hpolicy, hall, position_of_pos (cols_pos_of_lt h hdims hfirst.lt)]
  rfl

/-- All that can come of quantizing a layer. -/
theorem quantizeLayer_cases (model : Model) (layer : String) (options : ExportOptions) :
    (∃ fault, model.layer layer = .error fault ∧ quantizeLayer model layer options = .error fault) ∨
    ∃ tensor, model.layer layer = .ok tensor ∧
      ((∃ e, quantizeLayer model layer options = fail e) ∨
        ∃ quantized : QuantizedLayer, quantized.Of options tensor ∧
          quantizeLayer model layer options = .ok quantized) := by
  cases hlayer : model.layer layer with
  | error fault => exact .inl ⟨fault, rfl, quantizeLayer_of_layer_error hlayer options⟩
  | ok tensor =>
    refine .inr ⟨tensor, rfl, ?_⟩
    cases hdims : tensor.matrixDims with
    | none => exact .inl ⟨_, quantizeLayer_of_not_matrix hlayer hdims options⟩
    | some dims =>
      rw [matrixDims_eq_some_iff] at hdims
      by_cases hfits : options.policy = .abort → ∀ x ∈ tensor.data, options.format.Accepts x
      · have hlength : tensor.data.length = dims.1 * dims.2 := by
          rw [length_of_layer hlayer, hdims]
          simp
        exact .inr ⟨_, ⟨hdims, rfl, rfl, hfits, hlength⟩, quantizeLayer_of_fits hlayer hdims hfits⟩
      · -- some weight is refused, so there is a first one to report
        rw [Classical.not_imp] at hfits
        obtain ⟨index, x, -, herror⟩ := quantizeLayer_of_refused hlayer hdims hfits.1 hfits.2
        exact .inl ⟨_, herror⟩

/-- A layer is quantized when it is a matrix whose weights the policy admits. -/
theorem quantizeLayer_eq_ok_iff {quantized : QuantizedLayer} :
    quantizeLayer model layer options = .ok quantized ↔
      ∃ tensor, model.layer layer = .ok tensor ∧ quantized.Of options tensor := by
  constructor
  · intro h
    rcases quantizeLayer_cases model layer options with
      ⟨fault, -, hfault⟩ | ⟨tensor, hlayer, ⟨e, he⟩ | ⟨quantized', hof, hok⟩⟩
    · cases h.symm.trans hfault
    · cases h.symm.trans he
    · cases h.symm.trans hok
      exact ⟨tensor, hlayer, hof⟩
  · rintro ⟨tensor, hlayer, hof⟩
    rw [quantizeLayer_of_fits hlayer hof.shape hof.fits, ← hof.results, ← hof.values]

/-- Quantizing ends the process only where reading the tensor does. -/
theorem quantizeLayer_eq_crash_iff :
    quantizeLayer model layer options = .error .crash ↔ model.layer layer = .error .crash := by
  rcases quantizeLayer_cases model layer options with
    ⟨fault, hlayer, hfault⟩ | ⟨tensor, hlayer, ⟨e, he⟩ | ⟨quantized, -, hok⟩⟩
  · rw [hlayer, hfault]
    simp
  · rw [hlayer, he]
    simp [fail]
  · rw [hlayer, hok]
    simp

end Quantizing

/-! ### Writing the tokens -/

namespace QuantizedLayer

/-- The words of the accepted weights. -/
def words (quantized : QuantizedLayer) : List Word := quantized.results.filterMap Except.toOption

/-- The lines of the image: the tokens of the accepted weights. -/
def lines (style : HexStyle) (quantized : QuantizedLayer) : List String :=
  quantized.words.map fun word => style.text word.raw

/-- A token for each accepted weight, and nothing for a refused one. -/
def tokens (style : HexStyle) (quantized : QuantizedLayer) : List (Option String) :=
  quantized.results.map fun result => result.toOption.map fun word => style.text word.raw

end QuantizedLayer

/-- The refused weights with their places, where the first answer is that of the weight at
`index`. -/
def skippedFrom (cols : ℕ) : ℕ → List (Except RangeError Word) → List SkippedWeight
  | _, [] => []
  | index, .ok _ :: results => skippedFrom cols (index + 1) results
  | index, .error e :: results =>
    ⟨index / cols, index % cols, e.value⟩ :: skippedFrom cols (index + 1) results

/-- Every answer is a word or a refusal. -/
theorem length_skippedFrom_add (cols index : ℕ) (results : List (Except RangeError Word)) :
    (results.filterMap Except.toOption).length + (skippedFrom cols index results).length =
      results.length := by
  fun_induction skippedFrom cols index results with
  | case1 => rfl
  | case2 index word results ih =>
    simp only [List.filterMap_cons, Except.toOption, List.length_cons]
    omega
  | case3 index e results ih =>
    simp only [List.filterMap_cons, Except.toOption, List.length_cons]
    omega

theorem run_putLine (line text : String) :
    (putLine line).run.run text = (.ok (), text ++ line ++ "\n") := rfl

section WriteWeights

variable {style : HexStyle} {cols : ℕ} {results : List (Except RangeError Word)}

/-- The tokens of the accepted weights are put out in order. -/
theorem run_writeWeights (hcols : 0 < cols) (hstyle : ∀ word, .ok word ∈ results → style.Writable)
    (index : ℕ) (text : String) :
    (writeWeights style cols index results).run.run text =
      (.ok (results.map fun result => result.toOption.map fun word => style.text word.raw,
          skippedFrom cols index results),
        text ++ Text.unlines
          ((results.filterMap Except.toOption).map fun word => style.text word.raw)) := by
  -- along the answers; an accepted weight adds its line to the text, a refused one its place to the
  -- list
  induction results generalizing index text with
  | nil =>
    rw [writeWeights, run_pure]
    simp [skippedFrom]
  | cons result results ih =>
    have hrest : ∀ word, .ok word ∈ results → style.Writable :=
      fun word hword => hstyle word (List.mem_cons_of_mem _ hword)
    cases result with
    | ok word =>
      have htoken : word.render? style = some (style.text word.raw) := by
        rw [Word.render?, HexStyle.render?_eq, if_pos (hstyle word List.mem_cons_self)]
      rw [writeWeights, htoken]
      simp only
      rw [run_bind_ok (run_putLine _ _), run_bind_ok (ih hrest (index + 1) _), run_pure]
      simp [skippedFrom, Except.toOption, String.append_assoc]
    | error e =>
      rw [writeWeights, position_of_pos hcols, run_bind_ok (run_liftM _ _),
        run_bind_ok (ih hrest (index + 1) _), run_pure]
      rfl

/-- Where the style cannot be written, the first accepted weight ends the process and nothing is put
out. -/
theorem run_writeWeights_of_not_writable (hcols : 0 < cols) (hstyle : ¬ style.Writable)
    {word : Word} (hword : .ok word ∈ results) (index : ℕ) (text : String) :
    (writeWeights style cols index results).run.run text = (.error .crash, text) := by
  induction results generalizing index with
  | nil => cases hword
  | cons result results ih =>
    cases result with
    | ok first =>
      have htoken : first.render? style = none := by
        rw [Word.render?, HexStyle.render?_eq, if_neg hstyle]
      rw [writeWeights, htoken]
      rfl
    | error e =>
      -- a refused weight only moves on
      have hrest : .ok word ∈ results := by simpa using hword
      rw [writeWeights, position_of_pos hcols, run_bind_ok (run_liftM _ _),
        run_bind_error (ih hrest (index + 1))]

end WriteWeights

/-! ### The report -/

/-- What a report can show: every weight with its index and its token. -/
def previews (values : List Binary64) (tokens : List (Option String)) : List PreviewEntry :=
  List.zipWith (fun entry token => ⟨entry.2, entry.1, token⟩) values.zipIdx tokens

theorem length_previews {values : List Binary64} {tokens : List (Option String)}
    (h : tokens.length = values.length) : (previews values tokens).length = values.length := by
  simp [previews, h]

theorem preview_eq {values : List Binary64} {tokens : List (Option String)} {index : ℕ}
    (h : index < (previews values tokens).length) :
    preview values tokens index = .ok (previews values tokens)[index] := by
  have hlt : index < values.length ∧ index < tokens.length := by simpa [previews] using h
  simp [preview, previews, hlt.1, hlt.2]

/-- The entries shown are those of the weights asked for. -/
theorem previewsFrom_eq {values : List Binary64} {tokens : List (Option String)} {index count : ℕ}
    (h : index + count ≤ (previews values tokens).length) :
    previewsFrom values tokens index count =
      .ok (((previews values tokens).drop index).take count) := by
  induction count generalizing index with
  | zero => simp [previewsFrom]
  | succ count ih =>
    have hlt : index < (previews values tokens).length := by omega
    rw [previewsFrom, preview_eq hlt, ih (by omega), List.drop_eq_getElem_cons hlt,
      List.take_succ_cons]
    rfl

theorem previewsFrom_head {values : List Binary64} {tokens : List (Option String)}
    (h : tokens.length = values.length) :
    previewsFrom values tokens 0 (Nat.min values.length previewLength) =
      .ok ((previews values tokens).take previewLength) := by
  have hlength := length_previews h
  have hshown : Nat.min values.length previewLength =
      min previewLength (previews values tokens).length := by
    rw [hlength]
    exact Nat.min_comm _ _
  rw [hshown, previewsFrom_eq (by omega), List.drop_zero, ← List.take_eq_take_min]

theorem previewsFrom_tail {values : List Binary64} {tokens : List (Option String)}
    (h : tokens.length = values.length) :
    previewsFrom values tokens (values.length - Nat.min values.length previewLength)
        (Nat.min values.length previewLength) =
      .ok ((previews values tokens).drop (values.length - previewLength)) := by
  -- the last weights shown start as far from the end as there are of them
  have hlength := length_previews h
  have hshown : Nat.min values.length previewLength ≤ values.length := Nat.min_le_left _ _
  have hstart : values.length - Nat.min values.length previewLength =
      values.length - previewLength := by
    change values.length - min values.length previewLength = _
    omega
  rw [previewsFrom_eq (by omega), List.take_of_length_le (by rw [List.length_drop]; omega), hstart]

namespace QuantizedLayer

/-- The report on a layer: every weight is written or skipped, and the first and the last are
shown. -/
def report (layer : String) (options : ExportOptions) (quantized : QuantizedLayer) : Report :=
  let entries := previews quantized.values (quantized.tokens options.style)
  let skipped := skippedFrom quantized.cols 0 quantized.results
  { layer := layer
    rows := quantized.rows
    cols := quantized.cols
    format := options.format.name
    written := quantized.values.length - skipped.length
    skipped := skipped
    head := entries.take previewLength
    tail := entries.drop (quantized.values.length - previewLength) }

variable {options : ExportOptions} {tensor : Tensor} {quantized : QuantizedLayer}

/-- Rows without weights have no answers. -/
theorem Of.cols_pos (h : quantized.Of options tensor) (hne : quantized.results ≠ []) :
    0 < quantized.cols := by
  rcases Nat.eq_zero_or_pos quantized.cols with hzero | hpos
  · have hnil : tensor.data = [] := by
      rw [← List.length_eq_zero_iff, ← h.values, h.length, hzero, Nat.mul_zero]
    exact absurd (by rw [h.results, hnil, List.map_nil]) hne
  · exact hpos

theorem Of.length_results (h : quantized.Of options tensor) :
    quantized.results.length = quantized.rows * quantized.cols := by
  rw [← h.length, h.results, h.values, List.length_map]

theorem Of.length_tokens (h : quantized.Of options tensor) (style : HexStyle) :
    (quantized.tokens style).length = quantized.values.length := by
  rw [tokens, List.length_map, h.length_results, h.length]

/-- The words are those of the weights that the format accepts. -/
theorem Of.words_eq (h : quantized.Of options tensor) :
    quantized.words = quantized.values.filterMap fun x => (options.format.quantize x).toOption := by
  rw [words, h.results, h.values, List.filterMap_map]
  rfl

theorem mem_words {word : Word} : word ∈ quantized.words ↔ .ok word ∈ quantized.results := by
  rw [words, List.mem_filterMap]
  constructor
  · rintro ⟨result, hresult, hword⟩
    cases result with
    | error e => cases hword
    | ok word' =>
      cases hword
      exact hresult
  · intro h
    exact ⟨_, h, rfl⟩

theorem Of.run_writeWeights (h : quantized.Of options tensor)
    (hstyle : ∀ word ∈ quantized.words, options.style.Writable) (text : String) :
    (writeWeights options.style quantized.cols 0 quantized.results).run.run text =
      (.ok (quantized.tokens options.style, skippedFrom quantized.cols 0 quantized.results),
        text ++ Text.unlines (quantized.lines options.style)) := by
  by_cases hne : quantized.results = []
  · simp only [tokens, lines, words, hne]
    rw [writeWeights, run_pure]
    simp [skippedFrom]
  · exact SynapseMem.run_writeWeights (h.cols_pos hne)
      (fun word hword => hstyle word (mem_words.2 hword)) 0 text

/-- Writing a layer puts out its lines and gives its report: no index is past the weights, and no
more weights are skipped than there are. -/
theorem Of.run_writeLayer (h : quantized.Of options tensor)
    (hstyle : ∀ word ∈ quantized.words, options.style.Writable) (layer text : String) :
    (writeLayer layer quantized options).run.run text =
      (.ok (quantized.report layer options),
        text ++ Text.unlines (quantized.lines options.style)) := by
  have htokens := h.length_tokens options.style
  have hskipped : (skippedFrom quantized.cols 0 quantized.results).length ≤
      quantized.values.length := by
    have hcount := length_skippedFrom_add quantized.cols 0 quantized.results
    rw [h.length_results, ← h.length] at hcount
    omega
  rw [writeLayer, run_bind_ok (h.run_writeWeights hstyle text)]
  simp only [previewsFrom_head htokens, previewsFrom_tail htokens, remaining, if_pos hskipped]
  rfl

theorem Of.run_writeLayer_of_not_writable (h : quantized.Of options tensor)
    (hstyle : ¬ options.style.Writable) {word : Word} (hword : word ∈ quantized.words)
    (layer text : String) :
    (writeLayer layer quantized options).run.run text = (.error .crash, text) := by
  have hmem := mem_words.1 hword
  exact run_bind_error (SynapseMem.run_writeWeights_of_not_writable
    (h.cols_pos (List.ne_nil_of_mem hmem)) hstyle hmem 0 text)

/-- Once a layer is quantized, writing it gives a report or ends the process. -/
theorem Of.neverReports_writeLayer (h : quantized.Of options tensor) (layer : String) :
    NeverReports (writeLayer layer quantized options) := by
  intro text e
  by_cases hstyle : ∀ word ∈ quantized.words, options.style.Writable
  · rw [h.run_writeLayer hstyle]
    simp
  · push Not at hstyle
    obtain ⟨word, hword, hnot⟩ := hstyle
    rw [h.run_writeLayer_of_not_writable hnot hword]
    simp

end QuantizedLayer

/-! ### Whole exports -/

section Exports

variable {model : Model} {layer : String} {options : ExportOptions}

theorem run_exportWeights_of_ok {quantized : QuantizedLayer}
    (h : quantizeLayer model layer options = .ok quantized) (text : String) :
    (exportWeights model layer options).run.run text =
      (writeLayer layer quantized options).run.run text := by
  rw [exportWeights, h]
  exact run_bind_ok (run_liftM _ _)

theorem run_exportWeights_of_error {fault : Fault Error}
    (h : quantizeLayer model layer options = .error fault) (text : String) :
    (exportWeights model layer options).run.run text = (.error fault, text) := by
  rw [exportWeights, h]
  exact run_bind_error (run_liftM _ _)

theorem run_exportWeightsToFile_of_ok {quantized : QuantizedLayer}
    (h : quantizeLayer model layer options = .ok quantized) (path : String) (files : Files) :
    (exportWeightsToFile model layer options path).run.run files =
      (Files.writing path (writeLayer layer quantized options)).run.run files := by
  rw [exportWeightsToFile, h]
  exact run_bind_ok (run_liftM _ _)

theorem run_exportWeightsToFile_of_error {fault : Fault Error}
    (h : quantizeLayer model layer options = .error fault) (path : String) (files : Files) :
    (exportWeightsToFile model layer options path).run.run files = (.error fault, files) := by
  rw [exportWeightsToFile, h]
  exact run_bind_error (run_liftM _ _)

/-- An export that gives a report has quantized a layer and put out its lines. -/
theorem of_run_exportWeights_ok {before after : String} {report : Report}
    (h : (exportWeights model layer options).run.run before = (.ok report, after)) :
    ∃ (tensor : Tensor) (quantized : QuantizedLayer),
      model.layer layer = .ok tensor ∧ quantized.Of options tensor ∧
      (∀ word ∈ quantized.words, options.style.Writable) ∧
      report = quantized.report layer options ∧
      after = before ++ Text.unlines (quantized.lines options.style) := by
  cases hquantized : quantizeLayer model layer options with
  | error fault =>
    rw [run_exportWeights_of_error hquantized] at h
    cases h
  | ok quantized =>
    rw [run_exportWeights_of_ok hquantized] at h
    obtain ⟨tensor, hlayer, hof⟩ := quantizeLayer_eq_ok_iff.1 hquantized
    by_cases hstyle : ∀ word ∈ quantized.words, options.style.Writable
    · rw [hof.run_writeLayer hstyle] at h
      cases h
      exact ⟨tensor, quantized, hlayer, hof, hstyle, rfl, rfl⟩
    · push Not at hstyle
      obtain ⟨word, hword, hnot⟩ := hstyle
      rw [hof.run_writeLayer_of_not_writable hnot hword] at h
      cases h

theorem transaction_exportWeightsToFile (model : Model) (layer : String) (options : ExportOptions)
    (path : String) :
    Transaction (Files.Rewritten (some path)) (exportWeightsToFile model layer options path) := by
  refine (reads_liftM _).transaction_bind (Files.Rewritten.refl _)
    fun files quantized hquantized => ?_
  rw [run_liftM] at hquantized
  obtain ⟨tensor, -, hof⟩ := quantizeLayer_eq_ok_iff.1 hquantized
  exact Files.transaction_writing (hof.neverReports_writeLayer layer)

end Exports

end SynapseMem
