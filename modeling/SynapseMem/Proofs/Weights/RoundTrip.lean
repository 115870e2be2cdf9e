import SynapseMem.Proofs.Fixed.Quantization
import SynapseMem.Proofs.Weights.Export
import SynapseMem.Proofs.Weights.Image

/-!
# Exported weights are read back

What an export writes is a memory image, and reading it in the same format gives the words of the
accepted weights of the layer, row by row. A refused weight leaves no trace in the image and moves
no other weight out of order. Under `RangePolicy.abort` none is refused, so the word at place
`row * cols + col` is that of the weight in that row and column.
-/

namespace SynapseMem

/-- The weight in a row and a column of a matrix stands at their row-major place. -/
theorem exists_element?_matrix {rows cols row col : ℕ} {v : Json.Value} {weights : List Binary64}
    (h : Tensor.Nested [rows, cols] v weights) (hrow : row < rows) (hcol : col < cols) :
    ∃ x, Tensor.element? v [row, col] = some x ∧ weights[row * cols + col]? = some x := by
  have hindex : List.Forall₂ (· < ·) [row, col] [rows, cols] := .cons hrow (.cons hcol .nil)
  have hoffset : Tensor.offset [rows, cols] [row, col] = row * cols + col := by simp [Tensor.offset]
  have hlt : row * cols + col < weights.length := by
    rw [← hoffset, h.length]
    exact Tensor.offset_lt hindex
  rw [h.element?_eq hindex, hoffset, List.getElem?_eq_getElem hlt]
  exact ⟨_, rfl, rfl⟩

/-- The weight at a row-major place stands in the row and the column of that place. -/
theorem element?_of_matrix {rows cols i : ℕ} {v : Json.Value} {weights : List Binary64}
    {x : Binary64} (h : Tensor.Nested [rows, cols] v weights) (hx : weights[i]? = some x) :
    i / cols < rows ∧ i % cols < cols ∧ Tensor.element? v [i / cols, i % cols] = some x := by
  have hlt : i < rows * cols := by
    have hlength := h.length
    rw [List.prod_cons, List.prod_singleton] at hlength
    exact hlength ▸ (List.getElem?_eq_some_iff.1 hx).1
  have hcols : 0 < cols := Nat.pos_of_mul_pos_left (Nat.zero_lt_of_lt hlt)
  have hrow : i / cols < rows := (Nat.div_lt_iff_lt_mul hcols).2 hlt
  have hcol : i % cols < cols := Nat.mod_lt i hcols
  obtain ⟨y, helement, hy⟩ := exists_element?_matrix h hrow hcol
  rw [Nat.div_add_mod', hx] at hy
  cases hy
  exact ⟨hrow, hcol, helement⟩

namespace QuantizedLayer.Of

variable {options : ExportOptions} {tensor : Tensor} {quantized : QuantizedLayer}

/-- The lines of a layer are read as its words. -/
theorem read_lines (h : quantized.Of options tensor) :
    Image.read options.format (Text.bytes (Text.unlines (quantized.lines options.style))) =
      .ok quantized.words := by
  refine Image.read_bytes_unlines (fun word hword => ?_) options.style
  rw [mem_words, h.results, List.mem_map] at hword
  obtain ⟨x, -, hx⟩ := hword
  exact QFormat.word_of_quantize hx

/-- Under `abort` every weight has its word. -/
theorem results_of_abort (h : quantized.Of options tensor) (hpolicy : options.policy = .abort) :
    quantized.results = quantized.words.map .ok := by
  obtain ⟨words', hwords⟩ := exists_tryQuantizeAll_iff.2 (h.fits hpolicy)
  have hresults : quantized.results = words'.map .ok := by
    rw [h.results, map_quantize_of_tryQuantizeAll hwords]
  have hwords' : quantized.words = words' := by
    rw [words, hresults, List.filterMap_map]
    exact List.filterMap_some
  rw [hwords', hresults]

theorem length_words_of_abort (h : quantized.Of options tensor)
    (hpolicy : options.policy = .abort) :
    quantized.words.length = quantized.rows * quantized.cols := by
  have hlength := congrArg List.length (h.results_of_abort hpolicy)
  rw [List.length_map, h.results, List.length_map, ← h.values, h.length] at hlength
  exact hlength.symm

/-- Under `abort` the word of a weight has the weight's own place. -/
theorem getElem?_words_of_abort (h : quantized.Of options tensor)
    (hpolicy : options.policy = .abort) {index : ℕ} {x : Binary64}
    (hx : quantized.values[index]? = some x) :
    ∃ word, options.format.quantize x = .ok word ∧ quantized.words[index]? = some word := by
  have hresult : quantized.results[index]? = some (options.format.quantize x) := by
    rw [h.results, ← h.values, List.getElem?_map, hx, Option.map_some]
  rw [h.results_of_abort hpolicy, List.getElem?_map, Option.map_eq_some_iff] at hresult
  obtain ⟨word, hword, hok⟩ := hresult
  exact ⟨word, hok.symm, hword⟩

end QuantizedLayer.Of

/-- Reading what an export wrote gives the words of the accepted weights of the matrix in row-major
order, and under `abort` one word for each weight. -/
theorem read_exportWeights {model : Model} {layer : String} {options : ExportOptions}
    {before after : String} {report : Report}
    (h : (exportWeights model layer options).run.run before = (.ok report, after)) :
    ∃ v weights image words,
      model.stateDict.find? layer = some v ∧
      Tensor.Nested [report.rows, report.cols] v weights ∧
      (∀ row < report.rows, ∀ col < report.cols, ∃ x,
        Tensor.element? v [row, col] = some x ∧ weights[row * report.cols + col]? = some x) ∧
      after = before ++ image ∧
      Image.read options.format image.toUTF8.toList = .ok words ∧
      words = weights.filterMap (fun x => (options.format.quantize x).toOption) ∧
      (options.policy = .abort →
        words.length = report.rows * report.cols ∧
        ∀ row < report.rows, ∀ col < report.cols, ∃ x word,
          Tensor.element? v [row, col] = some x ∧ options.format.quantize x = .ok word ∧
          words[row * report.cols + col]? = some word) := by
  obtain ⟨tensor, quantized, hlayer, hof, -, rfl, rfl⟩ := of_run_exportWeights_ok h
  obtain ⟨v, hfind, hv⟩ := layer_eq_ok_iff.1 hlayer
  have hnested : Tensor.Nested [quantized.rows, quantized.cols] v quantized.values := by
    rw [← hof.shape, hof.values]
    exact Tensor.nested_of_ofJson hv
  refine ⟨v, quantized.values, _, quantized.words, hfind, hnested,
    fun row hrow col hcol => exists_element?_matrix hnested hrow hcol, rfl, hof.read_lines,
    hof.words_eq, ?_⟩
  intro hpolicy
  refine ⟨hof.length_words_of_abort hpolicy, fun row hrow col hcol => ?_⟩
  obtain ⟨x, helement, hx⟩ := exists_element?_matrix hnested hrow hcol
  obtain ⟨word, hquantize, hword⟩ := hof.getElem?_words_of_abort hpolicy hx
  exact ⟨x, word, helement, hquantize, hword⟩

/-- A row with a number that does not fit Q2.14, and a truth value after it. -/
def mixedRow : Json.Value := .array [.array [.number (.int 3), .bool true]]

/-- The refused number is skipped in Q2.14, and Q4.4 has a word for both weights of the row. -/
theorem read_exportWeights_mixedRow :
    (∃ weights, Tensor.Nested [1, 2] mixedRow weights ∧
      Image.read QFormat.q2_14 "0x4000\n".toUTF8.toList =
        .ok (weights.filterMap fun x => (QFormat.q2_14.quantize x).toOption)) ∧
    ∃ words, Image.read ⟨4, 4, by decide, by decide⟩ "30\n10\n".toUTF8.toList = .ok words ∧
      words.length = 2 := by
  have hskip : (exportWeights ⟨[("w", mixedRow)], [], []⟩ "w"
      ⟨QFormat.q2_14, .prefixed, .skip⟩).run.run "" =
      (.ok ⟨"w", 1, 2, "Q2.14", 1, [⟨0, 0, ⟨0x4008000000000000⟩⟩],
        [⟨0, ⟨0x4008000000000000⟩, none⟩, ⟨1, ⟨0x3ff0000000000000⟩, some "0x4000"⟩],
        [⟨0, ⟨0x4008000000000000⟩, none⟩, ⟨1, ⟨0x3ff0000000000000⟩, some "0x4000"⟩]⟩,
        "0x4000\n") := by
    change @Eq (Except (Fault Error) Report × String) _ _
    decide +kernel
  have habort : (exportWeights ⟨[("w", mixedRow)], [], []⟩ "w"
      ⟨⟨4, 4, by decide, by decide⟩, .padded 0, .abort⟩).run.run "" =
      (.ok ⟨"w", 1, 2, "Q4.4", 2, [],
        [⟨0, ⟨0x4008000000000000⟩, some "30"⟩, ⟨1, ⟨0x3ff0000000000000⟩, some "10"⟩],
        [⟨0, ⟨0x4008000000000000⟩, some "30"⟩, ⟨1, ⟨0x3ff0000000000000⟩, some "10"⟩]⟩,
        "30\n10\n") := by
    change @Eq (Except (Fault Error) Report × String) _ _
    decide +kernel
  constructor
  · obtain ⟨v, weights, image, words, hv, hnested, -, himage, hread, rfl, -⟩ :=
      read_exportWeights hskip
    cases hv
    rw [String.empty_append] at himage
    exact ⟨weights, hnested, himage ▸ hread⟩
  · obtain ⟨v, weights, image, words, -, -, -, himage, hread, -, hall⟩ := read_exportWeights habort
    rw [String.empty_append] at himage
    exact ⟨words, himage ▸ hread, (hall rfl).1⟩

end SynapseMem
