import SynapseMem.Proofs.Weights.Decoration
import SynapseMem.Proofs.Weights.Policies

/-!
# Every weight is accounted for once

An export keeps three records of the weights in one pass: a token or nothing for each, the list of
those that were skipped, and the lines put out. All three come from the same answers, so they fit
together. A weight has a line or is skipped (`length_skippedFrom_add`), the skipped weights stand in
row-major order (`pairwise_skippedFrom`), and the line of a weight is found by counting the skipped
ones before it (`QuantizedLayer.getElem?_lines`).
-/

namespace SynapseMem

/-- The row-major place of a skipped weight, for rows of `cols` weights. -/
def SkippedWeight.place (cols : ℕ) (s : SkippedWeight) : ℕ := s.row * cols + s.col

@[simp] theorem SkippedWeight.place_mk (cols i : ℕ) (x : Binary64) :
    (SkippedWeight.mk (i / cols) (i % cols) x).place cols = i := Nat.div_add_mod' i cols

/-- The row and the column are read off the place. -/
theorem SkippedWeight.eq_mk_place {cols : ℕ} {s : SkippedWeight} (h : s.col < cols) :
    s = ⟨s.place cols / cols, s.place cols % cols, s.value⟩ := by
  have hrow : s.place cols / cols = s.row := by
    rw [place, Nat.add_comm, Nat.add_mul_div_right _ _ (Nat.zero_lt_of_lt h), Nat.div_eq_of_lt h,
      Nat.zero_add]
  have hcol : s.place cols % cols = s.col := by
    rw [place, Nat.add_comm, Nat.add_mul_mod_self_right, Nat.mod_eq_of_lt h]
  rw [hrow, hcol]

/-! ### The skipped weights -/

/-- What is skipped of a weight with its answer and its place. -/
def skippedAt (cols : ℕ) : Except RangeError Word × ℕ → Option SkippedWeight
  | (.ok _, _) => none
  | (.error e, place) => some ⟨place / cols, place % cols, e.value⟩

section Skipped

variable {cols index : ℕ} {results : List (Except RangeError Word)} {s : SkippedWeight}

theorem skippedFrom_eq_filterMap (cols index : ℕ) (results : List (Except RangeError Word)) :
    skippedFrom cols index results = (results.zipIdx index).filterMap (skippedAt cols) := by
  fun_induction skippedFrom cols index results with
  | case1 => rfl
  | case2 index word results ih => rw [ih, List.zipIdx_cons, List.filterMap_cons, skippedAt]
  | case3 index e results ih => rw [ih, List.zipIdx_cons, List.filterMap_cons, skippedAt]

theorem skippedAt_eq_some_iff {result : Except RangeError Word} {place : ℕ} :
    skippedAt cols (result, place) = some s ↔
      ∃ e, result = .error e ∧ s = ⟨place / cols, place % cols, e.value⟩ := by
  cases result with
  | ok word => simp [skippedAt]
  | error e => simp [skippedAt, eq_comm]

theorem place_of_skippedAt {result : Except RangeError Word} {place : ℕ}
    (h : skippedAt cols (result, place) = some s) : s.place cols = place := by
  obtain ⟨e, -, rfl⟩ := skippedAt_eq_some_iff.1 h
  exact SkippedWeight.place_mk cols place e.value

/-- The skipped weights are those with a refusal for an answer. -/
theorem mem_skippedFrom_iff :
    s ∈ skippedFrom cols index results ↔
      ∃ i e, results[i]? = some (.error e) ∧
        s = ⟨(index + i) / cols, (index + i) % cols, e.value⟩ := by
  simp only [skippedFrom_eq_filterMap, List.mem_filterMap, Prod.exists, skippedAt_eq_some_iff]
  constructor
  · rintro ⟨result, place, hmem, e, rfl, rfl⟩
    obtain ⟨hle, hresult⟩ := List.mk_mem_zipIdx_iff_le_and_getElem?_sub.1 hmem
    exact ⟨place - index, e, hresult, by rw [Nat.add_sub_cancel' hle]⟩
  · rintro ⟨i, e, hresult, rfl⟩
    exact ⟨_, index + i, List.mk_add_mem_zipIdx_iff_getElem?.2 hresult, e, rfl, rfl⟩

/-- The skipped weights stand in row-major order. -/
theorem pairwise_skippedFrom (cols index : ℕ) (results : List (Except RangeError Word)) :
    ((skippedFrom cols index results).map (SkippedWeight.place cols)).Pairwise (· < ·) := by
  have hplaces : (results.zipIdx index).Pairwise (fun a b => a.2 < b.2) := by
    rw [← List.pairwise_map, List.zipIdx_map_snd]
    exact List.pairwise_lt_range'
  rw [skippedFrom_eq_filterMap, List.pairwise_map, List.pairwise_filterMap]
  refine hplaces.imp fun hlt s hs t ht => ?_
  rwa [place_of_skippedAt hs, place_of_skippedAt ht]

theorem skippedFrom_append (cols index : ℕ) (as bs : List (Except RangeError Word)) :
    skippedFrom cols index (as ++ bs) =
      skippedFrom cols index as ++ skippedFrom cols (index + as.length) bs := by
  simp only [skippedFrom_eq_filterMap, List.zipIdx_append, List.filterMap_append]

/-- The skipped weights before a place are those skipped among the weights up to there. -/
theorem filter_skippedFrom (cols : ℕ) {i : ℕ} (hi : i ≤ results.length) :
    (skippedFrom cols 0 results).filter (fun s => s.place cols < i) =
      skippedFrom cols 0 (results.take i) := by
  have hlength : (results.take i).length = i := List.length_take_of_le hi
  conv_lhs => rw [← List.take_append_drop i results, skippedFrom_append, List.filter_append]
  rw [List.filter_eq_self.2, List.filter_eq_nil_iff.2, List.append_nil]
  · intro s hs
    obtain ⟨j, e, -, rfl⟩ := mem_skippedFrom_iff.1 hs
    rw [hlength, SkippedWeight.place_mk, decide_eq_true_eq]
    omega
  · intro s hs
    obtain ⟨j, e, hj, rfl⟩ := mem_skippedFrom_iff.1 hs
    have hlt := (List.getElem?_eq_some_iff.1 hj).1
    rw [SkippedWeight.place_mk, decide_eq_true_eq]
    omega

end Skipped

/-! ### The weights shown -/

section Previews

variable {values : List Binary64} {tokens : List (Option String)}

/-- An entry shows the value and the token at its index. -/
theorem of_mem_previews {entry : PreviewEntry} (h : entry ∈ previews values tokens) :
    values[entry.index]? = some entry.value ∧ tokens[entry.index]? = some entry.token := by
  obtain ⟨i, hi⟩ := List.mem_iff_getElem?.1 h
  rw [previews, List.getElem?_zipWith, List.getElem?_zipIdx] at hi
  cases hvalue : values[i]? with
  | none => simp [hvalue] at hi
  | some value =>
    cases htoken : tokens[i]? with
    | none => simp [hvalue, htoken] at hi
    | some token =>
      simp only [hvalue, htoken, Option.map_some, Nat.zero_add, Option.some.injEq] at hi
      subst hi
      exact ⟨hvalue, htoken⟩

theorem map_index_previews (h : tokens.length = values.length) :
    (previews values tokens).map PreviewEntry.index = List.range values.length := by
  refine List.ext_getElem (by simp [length_previews h]) fun i hi _ => ?_
  simp [previews]

end Previews

namespace QuantizedLayer

variable {options : ExportOptions} {tensor : Tensor} {quantized : QuantizedLayer}

/-- The line of an accepted weight stands behind those of the accepted weights before it. -/
theorem getElem?_lines (style : HexStyle) {i : ℕ} {word : Word}
    (h : quantized.results[i]? = some (.ok word)) :
    ∃ k, k + ((skippedFrom quantized.cols 0 quantized.results).filter
        fun s => s.place quantized.cols < i).length = i ∧
      (quantized.lines style)[k]? = some (style.text word.raw) := by
  have hlt := (List.getElem?_eq_some_iff.1 h).1
  refine ⟨((quantized.results.take i).filterMap Except.toOption).length, ?_, ?_⟩
  · rw [filter_skippedFrom _ hlt.le, length_skippedFrom_add, List.length_take_of_le hlt.le]
  · rw [lines, List.getElem?_map, words, getElem?_filterMap_of_take (f := Except.toOption) h rfl,
      Option.map_some]

/-- A weight that is shown was skipped, or shows the line that was put out for it. -/
theorem token_of_mem_previews {style : HexStyle} {entry : PreviewEntry}
    (h : entry ∈ previews quantized.values (quantized.tokens style)) :
    (entry.token = none ↔
      ∃ s ∈ skippedFrom quantized.cols 0 quantized.results, s.place quantized.cols = entry.index) ∧
    ∀ token, entry.token = some token →
      ∃ k, k + ((skippedFrom quantized.cols 0 quantized.results).filter
          fun s => s.place quantized.cols < entry.index).length = entry.index ∧
        (quantized.lines style)[k]? = some token := by
  obtain ⟨-, htoken⟩ := of_mem_previews h
  rw [tokens, List.getElem?_map, Option.map_eq_some_iff] at htoken
  obtain ⟨result, hresult, htoken⟩ := htoken
  rw [← htoken]
  cases result with
  | error e =>
    refine ⟨iff_of_true rfl ⟨_, mem_skippedFrom_iff.2 ⟨entry.index, e, hresult, rfl⟩, ?_⟩,
      fun token h => ?_⟩
    · rw [SkippedWeight.place_mk, Nat.zero_add]
    · cases h
  | ok word =>
    refine ⟨iff_of_false (by simp [Except.toOption]) ?_, fun token h => ?_⟩
    · rintro ⟨s, hs, hplace⟩
      obtain ⟨i, e, hi, rfl⟩ := mem_skippedFrom_iff.1 hs
      rw [SkippedWeight.place_mk, Nat.zero_add] at hplace
      rw [hplace, hresult] at hi
      cases hi
    · cases h
      exact getElem?_lines style hresult

/-- The refusals among the answers are those of the refused weights. -/
theorem Of.results_eq_error_iff (h : quantized.Of options tensor) {i : ℕ} {e : RangeError} :
    quantized.results[i]? = some (.error e) ↔
      ∃ x, quantized.values[i]? = some x ∧ ¬ options.format.Accepts x ∧
        e = ⟨x, options.format⟩ := by
  rw [h.results, ← h.values, List.getElem?_map, Option.map_eq_some_iff]
  constructor
  · rintro ⟨x, hx, hrefused⟩
    cases QFormat.quantize_eq_error hrefused
    exact ⟨x, hx, QFormat.not_accepts_iff.2 hrefused, rfl⟩
  · rintro ⟨x, hx, hrefused, rfl⟩
    exact ⟨x, hx, QFormat.not_accepts_iff.1 hrefused⟩

/-- The skipped weights of a matrix are those that the format refuses, each with its row, column and
value. -/
theorem Of.mem_skippedFrom_iff (h : quantized.Of options tensor) {v : Json.Value}
    (hnested : Tensor.Nested [quantized.rows, quantized.cols] v quantized.values)
    {s : SkippedWeight} :
    s ∈ skippedFrom quantized.cols 0 quantized.results ↔
      s.row < quantized.rows ∧ s.col < quantized.cols ∧
        Tensor.element? v [s.row, s.col] = some s.value ∧ ¬ options.format.Accepts s.value := by
  simp only [SynapseMem.mem_skippedFrom_iff, h.results_eq_error_iff, Nat.zero_add]
  constructor
  · rintro ⟨i, e, ⟨x, hx, hrefused, rfl⟩, rfl⟩
    obtain ⟨hrow, hcol, helement⟩ := element?_of_matrix hnested hx
    exact ⟨hrow, hcol, helement, hrefused⟩
  · rintro ⟨hrow, hcol, helement, hrefused⟩
    obtain ⟨x, helement', hx⟩ := exists_element?_matrix hnested hrow hcol
    cases helement.symm.trans helement'
    exact ⟨s.place quantized.cols, _, ⟨_, hx, hrefused, rfl⟩, SkippedWeight.eq_mk_place hcol⟩

/-- Every weight has a line or is skipped. -/
theorem Of.length_lines_add (h : quantized.Of options tensor) (style : HexStyle) :
    (quantized.lines style).length + (skippedFrom quantized.cols 0 quantized.results).length =
      quantized.rows * quantized.cols := by
  rw [lines, List.length_map, words, length_skippedFrom_add, h.length_results]

theorem Of.written_report (h : quantized.Of options tensor) (layer : String) :
    (quantized.report layer options).written = (quantized.lines options.style).length := by
  have hcount := h.length_lines_add options.style
  simp only [report, h.length]
  omega

theorem notMem_lines {style : HexStyle} : ∀ line ∈ quantized.lines style, '\n' ∉ line.toList := by
  intro line hline hfeed
  obtain ⟨word, -, rfl⟩ := List.mem_map.1 hline
  cases (style.isTokenChar_text word.raw _ hfeed).isBlank

theorem Of.map_index_head (h : quantized.Of options tensor) (layer : String) :
    (quantized.report layer options).head.map PreviewEntry.index =
      List.range (min previewLength (quantized.rows * quantized.cols)) := by
  rw [report, List.map_take, map_index_previews (h.length_tokens _), h.length, List.take_range]

theorem Of.map_index_tail (h : quantized.Of options tensor) (layer : String) :
    (quantized.report layer options).tail.map PreviewEntry.index =
      List.range'
        (quantized.rows * quantized.cols - min previewLength (quantized.rows * quantized.cols))
        (min previewLength (quantized.rows * quantized.cols)) := by
  rw [report, List.map_drop, map_index_previews (h.length_tokens _), h.length, List.range_eq_range',
    List.drop_range']
  congr 1 <;> omega

/-- The weights shown are among those that can be. -/
theorem mem_previews_of_shown {layer : String} {entry : PreviewEntry}
    (h : entry ∈ (quantized.report layer options).head ++ (quantized.report layer options).tail) :
    entry ∈ previews quantized.values (quantized.tokens options.style) := by
  rcases List.mem_append.1 h with hhead | htail
  · exact List.mem_of_mem_take hhead
  · exact List.mem_of_mem_drop htail

end QuantizedLayer

/-- An export reports on every weight of the matrix once. It is put out, a line each, or skipped.
The skipped weights are those that the format refuses, in row-major order. The first and the last
weights are shown with the line put out for them, which is found by leaving out the skipped weights
before, or with nothing when they were skipped. -/
theorem exportWeights_accounts {model : Model} {layer : String} {options : ExportOptions}
    {before after : String} {report : Report}
    (h : (exportWeights model layer options).run.run before = (.ok report, after)) :
    ∃ v weights image lines,
      model.stateDict.find? layer = some v ∧
      Tensor.Nested [report.rows, report.cols] v weights ∧
      weights.length = report.rows * report.cols ∧
      after = before ++ image ∧
      Image.textLines image = lines ++ [""] ∧
      report.written = lines.length ∧
      report.written + report.skipped.length = report.rows * report.cols ∧
      (report.skipped.map (SkippedWeight.place report.cols)).Pairwise (· < ·) ∧
      (∀ s, s ∈ report.skipped ↔
        s.row < report.rows ∧ s.col < report.cols ∧
          Tensor.element? v [s.row, s.col] = some s.value ∧ ¬ options.format.Accepts s.value) ∧
      report.head.map PreviewEntry.index = List.range (min 5 (report.rows * report.cols)) ∧
      report.tail.map PreviewEntry.index =
        List.range' (report.rows * report.cols - min 5 (report.rows * report.cols))
          (min 5 (report.rows * report.cols)) ∧
      ∀ entry ∈ report.head ++ report.tail,
        Tensor.element? v [entry.index / report.cols, entry.index % report.cols] =
          some entry.value ∧
        (entry.token = none ↔ ∃ s ∈ report.skipped, s.place report.cols = entry.index) ∧
        ∀ token, entry.token = some token →
          ∃ k, k + (report.skipped.filter fun s => s.place report.cols < entry.index).length =
            entry.index ∧ lines[k]? = some token := by
  obtain ⟨tensor, quantized, hlayer, hof, -, rfl, rfl⟩ := of_run_exportWeights_ok h
  obtain ⟨v, hfind, hv⟩ := layer_eq_ok_iff.1 hlayer
  have hnested : Tensor.Nested [quantized.rows, quantized.cols] v quantized.values := by
    rw [← hof.shape, hof.values]
    exact Tensor.nested_of_ofJson hv
  have hwritten := hof.written_report layer
  refine ⟨v, quantized.values, _, quantized.lines options.style, hfind, hnested, hof.length, rfl,
    Image.textLines_unlines QuantizedLayer.notMem_lines, hwritten,
    hwritten ▸ hof.length_lines_add options.style, pairwise_skippedFrom _ _ _,
    fun s => hof.mem_skippedFrom_iff hnested, hof.map_index_head layer,
    hof.map_index_tail layer, ?_⟩
  intro entry hentry
  have hshown := QuantizedLayer.mem_previews_of_shown hentry
  exact ⟨(element?_of_matrix hnested (of_mem_previews hshown).1).2.2,
    QuantizedLayer.token_of_mem_previews hshown⟩

/-- Two rows of three weights, of which the first and the fifth do not fit Q2.14. -/
def gappedRows : Model :=
  ⟨[("w", .array [.array [.number (.int 3), .bool true, .bool false],
    .array [.bool true, .number (.int 5), .bool false]])], [], []⟩

/-- The report on these rows. -/
def gappedReport : Report :=
  let shown : List PreviewEntry := [⟨1, Binary64.one, some "4000"⟩, ⟨2, Binary64.zero, some "0000"⟩,
    ⟨3, Binary64.one, some "4000"⟩, ⟨4, Binary64.ofInt 5, none⟩]
  { layer := "w"
    rows := 2
    cols := 3
    format := "Q2.14"
    written := 4
    skipped := [⟨0, 0, Binary64.ofInt 3⟩, ⟨1, 1, Binary64.ofInt 5⟩]
    head := ⟨0, Binary64.ofInt 3, none⟩ :: shown
    tail := shown ++ [⟨5, Binary64.zero, some "0000"⟩] }

/-- Four lines are put out for six weights. Two are skipped before the weight at index 5, so its
line has number 3. -/
theorem exportWeights_accounts_gappedRows :
    (exportWeights gappedRows "w" ⟨QFormat.q2_14, .padded 4, .skip⟩).run.run "" =
      (.ok gappedReport, "4000\n0000\n4000\n0000\n") ∧
    (∀ s ∈ gappedReport.skipped, ¬ QFormat.q2_14.Accepts s.value) ∧
    ∃ lines, Image.textLines "4000\n0000\n4000\n0000\n" = lines ++ [""] ∧ lines.length = 4 ∧
      lines[3]? = some "0000" := by
  have hrun : (exportWeights gappedRows "w" ⟨QFormat.q2_14, .padded 4, .skip⟩).run.run "" =
      (.ok gappedReport, "4000\n0000\n4000\n0000\n") := by
    change @Eq (Except (Fault Error) Report × String) _ _
    decide +kernel
  obtain ⟨v, weights, image, lines, -, -, -, himage, hlines, hwritten, -, -, hskipped, -, -,
    hshown⟩ := exportWeights_accounts hrun
  rw [String.empty_append] at himage
  refine ⟨hrun, fun s hs => ((hskipped s).1 hs).2.2.2, lines, himage ▸ hlines, hwritten.symm, ?_⟩
  obtain ⟨-, -, hline⟩ := hshown ⟨5, Binary64.zero, some "0000"⟩ (by simp [gappedReport])
  have hbefore :
      (gappedReport.skipped.filter fun s => s.place gappedReport.cols < 5).length = 2 := by decide
  obtain ⟨k, hk, hget⟩ := hline "0000" rfl
  simp only [hbefore] at hk
  obtain rfl : k = 3 := by omega
  exact hget

end SynapseMem
