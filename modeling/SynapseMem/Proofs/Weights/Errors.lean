import SynapseMem.Proofs.Tensor.Rectangular
import SynapseMem.Proofs.Weights.Safety

/-!
# Which error an export reports

An export can report that the layer is missing, that it is not a matrix, or, under `abort`, that a
weight does not fit. `Verdict` says for every outcome of quantizing a layer what the layer looks
like, and its cases exclude one another. Everything is decided before the first line is put out and
before the file is created, so an export that reports an error has changed nothing.

A layer can be too large to be looked at (`Oversized`). It ends the process whatever it looks like,
even when it is no matrix and should be refused.
-/

namespace SynapseMem

open Tensor (HasShape Rectangular depthFirst)

/-- Rows of one length, with a number or a truth value in every place. -/
def IsMatrix (v : Json.Value) : Prop := ∃ rows cols, HasShape v [rows, cols]

/-- What a layer looks like, by the outcome of quantizing it. -/
inductive Verdict (model : Model) (layer : String) (options : ExportOptions) :
    Outcome QuantizedLayer → Prop
  | missing (hfind : model.stateDict.find? layer = none) :
      Verdict model layer options (fail (.layerNotFound layer))
  | oversized (hsize : Oversized model layer) : Verdict model layer options (.error .crash)
  | misshapen {v : Json.Value} (hfind : model.stateDict.find? layer = some v)
      (hsize : ¬ Oversized model layer) (hmatrix : ¬ IsMatrix v) (fault : ShapeFault) :
      Verdict model layer options (fail (.shape layer fault))
  | refused {v : Json.Value} (hfind : model.stateDict.find? layer = some v)
      (hsize : ¬ Oversized model layer) (hmatrix : IsMatrix v) (hpolicy : options.policy = .abort)
      (hrefused : ∃ x ∈ depthFirst v, ¬ options.format.Accepts x) (row col : ℕ)
      (source : RangeError) :
      Verdict model layer options (fail (.range row col source))
  | quantized {v : Json.Value} (hfind : model.stateDict.find? layer = some v)
      (hsize : ¬ Oversized model layer) (hmatrix : IsMatrix v)
      (hfits : options.policy = .abort → ∀ x ∈ depthFirst v, options.format.Accepts x)
      (quantized : QuantizedLayer) : Verdict model layer options (.ok quantized)

namespace Verdict

variable {model : Model} {layer : String} {options : ExportOptions}
  {result : Outcome QuantizedLayer}

theorem eq_layerNotFound_iff (h : Verdict model layer options result) :
    result = fail (.layerNotFound layer) ↔ model.stateDict.find? layer = none := by
  cases h with
  | missing hfind => simp [hfind]
  | oversized hsize =>
    obtain ⟨v, hfind, -⟩ := hsize
    simp [fail, hfind]
  | misshapen hfind => simp [fail, hfind]
  | refused hfind => simp [fail, hfind]
  | quantized hfind => simp [fail, hfind]

theorem eq_shape_iff (h : Verdict model layer options result) :
    (∃ fault, result = fail (.shape layer fault)) ↔
      ¬ Oversized model layer ∧ ∃ v, model.stateDict.find? layer = some v ∧ ¬ IsMatrix v := by
  cases h with
  | missing hfind => simp [fail, hfind]
  | oversized hsize => simp [fail, hsize]
  | misshapen hfind hsize hmatrix fault => simp [fail, hfind, hsize, hmatrix]
  | refused hfind _ hmatrix => simp [fail, hfind, hmatrix]
  | quantized hfind _ hmatrix => simp [fail, hfind, hmatrix]

theorem eq_range_iff (h : Verdict model layer options result) :
    (∃ row col source, result = fail (.range row col source)) ↔
      ¬ Oversized model layer ∧ ∃ v, model.stateDict.find? layer = some v ∧ IsMatrix v ∧
        options.policy = .abort ∧ ∃ x ∈ depthFirst v, ¬ options.format.Accepts x := by
  cases h with
  | missing hfind => simp [fail, hfind]
  | oversized hsize => simp [fail, hsize]
  | misshapen hfind _ hmatrix => simp [fail, hfind, hmatrix]
  | refused hfind hsize hmatrix hpolicy hrefused row col source =>
    exact iff_of_true ⟨row, col, source, rfl⟩ ⟨hsize, _, hfind, hmatrix, hpolicy, hrefused⟩
  | quantized hfind _ _ hfits =>
    refine iff_of_false (by simp [fail]) ?_
    rintro ⟨-, v, hfind', -, hpolicy, x, hx, hrefused⟩
    cases hfind.symm.trans hfind'
    exact hrefused (hfits hpolicy x hx)

theorem error_cases (h : Verdict model layer options result) {e : Error} (he : result = fail e) :
    e = .layerNotFound layer ∨ (∃ fault, e = .shape layer fault) ∨
      ∃ row col source, e = .range row col source := by
  cases h <;> cases he
  · exact .inl rfl
  · exact .inr (.inl ⟨_, rfl⟩)
  · exact .inr (.inr ⟨_, _, _, rfl⟩)

end Verdict

section Layers

variable {model : Model} {layer : String} {v : Json.Value} {shape : List ℕ}

/-- A rectangular layer is read with its shape and its leaves. -/
theorem layer_of_hasShape (hfind : model.stateDict.find? layer = some v)
    (hsize : ¬ Oversized model layer) (h : HasShape v shape) :
    model.layer layer = .ok ⟨shape, depthFirst v⟩ := by
  rw [← layer_eq_crash_iff] at hsize
  simp only [Model.layer, hfind, Tensor.ofJson_of_hasShape h] at hsize ⊢
  split_ifs at hsize ⊢
  · rfl
  · exact absurd rfl hsize

/-- A layer that is not rectangular is refused. -/
theorem layer_of_not_rectangular (hfind : model.stateDict.find? layer = some v)
    (hsize : ¬ Oversized model layer) (h : ¬ Rectangular v) :
    ∃ fault, model.layer layer = fail (.shape layer fault) := by
  have hread := Tensor.ofJson_of_not_rectangular h layer
  rw [← layer_eq_crash_iff] at hsize
  simp only [Model.layer, hfind] at hsize ⊢
  split_ifs at hread
  · exact hread
  · exact absurd hread hsize

end Layers

/-- Quantizing a layer comes to a verdict. -/
theorem verdict_quantizeLayer (model : Model) (layer : String) (options : ExportOptions) :
    Verdict model layer options (quantizeLayer model layer options) := by
  cases hfind : model.stateDict.find? layer with
  | none =>
    have hlayer : model.layer layer = fail (.layerNotFound layer) := by rw [Model.layer, hfind]
    rw [quantizeLayer_of_layer_error hlayer]
    exact .missing hfind
  | some v =>
    by_cases hsize : Oversized model layer
    · rw [(oversized_iff options).1 hsize]
      exact .oversized hsize
    by_cases hrect : Rectangular v
    · obtain ⟨shape, hshape⟩ := hrect
      have hlayer := layer_of_hasShape hfind hsize hshape
      cases hdims : (⟨shape, depthFirst v⟩ : Tensor).matrixDims with
      | none =>
        rw [quantizeLayer_of_not_matrix hlayer hdims]
        refine .misshapen hfind hsize ?_ _
        rintro ⟨rows, cols, hmatrix⟩
        rw [matrixDims_eq_some_iff.2 (hmatrix.eq hshape)] at hdims
        cases hdims
      | some dims =>
        rw [matrixDims_eq_some_iff] at hdims
        have hmatrix : IsMatrix v := ⟨dims.1, dims.2, hdims ▸ hshape⟩
        by_cases hfits : options.policy = .abort → ∀ x ∈ depthFirst v, options.format.Accepts x
        · rw [quantizeLayer_of_fits hlayer hdims hfits]
          exact .quantized hfind hsize hmatrix hfits _
        · rw [Classical.not_imp] at hfits
          obtain ⟨index, x, hfirst, hrefused⟩ :=
            quantizeLayer_of_refused hlayer hdims hfits.1 hfits.2
          rw [hrefused]
          exact .refused hfind hsize hmatrix hfits.1
            ⟨x, List.mem_of_getElem? hfirst.here, hfirst.refused⟩ _ _ _
    · -- no dimensions at all, so none of a matrix
      obtain ⟨fault, hlayer⟩ := layer_of_not_rectangular hfind hsize hrect
      rw [quantizeLayer_of_layer_error hlayer]
      exact .misshapen hfind hsize (fun ⟨rows, cols, h⟩ => hrect ⟨[rows, cols], h⟩) fault

section Runs

variable {model : Model} {layer : String} {options : ExportOptions} {path : String} {files : Files}
  {place : Path} {e : Error}

/-- The errors of an export are those of quantizing the layer. -/
theorem exportWeights_eq_fail_iff (text : String) :
    ((exportWeights model layer options).run.run text).1 = fail e ↔
      quantizeLayer model layer options = fail e := by
  cases hquantized : quantizeLayer model layer options with
  | error fault =>
    rw [run_exportWeights_of_error hquantized]
    simp [fail]
  | ok quantized =>
    obtain ⟨tensor, -, hof⟩ := quantizeLayer_eq_ok_iff.1 hquantized
    rw [run_exportWeights_of_ok hquantized]
    exact iff_of_false (hof.neverReports_writeLayer layer text e) (by simp [fail])

/-- Where the file can be created, an export to a file ends as an export does. -/
theorem fst_run_exportWeightsToFile (hcreate : ((Files.create path).run.run files).1 = .ok place) :
    ((exportWeightsToFile model layer options path).run.run files).1 =
      ((exportWeights model layer options).run.run "").1 := by
  cases hquantized : quantizeLayer model layer options with
  | error fault =>
    rw [run_exportWeightsToFile_of_error hquantized, run_exportWeights_of_error hquantized]
  | ok quantized =>
    rw [run_exportWeightsToFile_of_ok hquantized, run_exportWeights_of_ok hquantized,
      Files.run_writing hcreate]

/-- An export that reports an error has put out nothing. -/
theorem eq_of_run_exportWeights_fail {before after : String}
    (h : (exportWeights model layer options).run.run before = (fail e, after)) :
    after = before := by
  have hquantized := (exportWeights_eq_fail_iff before).1 (congrArg Prod.fst h)
  rw [run_exportWeights_of_error hquantized] at h
  cases h
  rfl

/-- What is put out goes to the file as it is. -/
theorem run_exportWeightsToFile_of_run_exportWeights
    (hcreate : ((Files.create path).run.run files).1 = .ok place) {before after : String}
    {report : Report}
    (h : (exportWeights model layer options).run.run before = (.ok report, after)) :
    ∃ image, after = before ++ image ∧
      (exportWeightsToFile model layer options path).run.run files =
        (.ok report, files.put place (.file image.toUTF8)) := by
  obtain ⟨tensor, quantized, hlayer, hof, hstyle, rfl, rfl⟩ := of_run_exportWeights_ok h
  refine ⟨_, rfl, ?_⟩
  rw [run_exportWeightsToFile_of_ok (quantizeLayer_eq_ok_iff.2 ⟨tensor, hlayer, hof⟩),
    Files.run_writing hcreate, hof.run_writeLayer hstyle, String.empty_append]

end Runs

/-- Where the file can be created, an export that reports an error has put out nothing and has
touched no file. The error is that the layer is missing, or else that it is not a matrix, or else,
under `abort`, that a weight does not fit. The process ends when the layer is oversized or a word
cannot be written, and else the export ends well and leaves in the file what it would have put
out. -/
theorem exportWeights_errors {path : String} {files : Files} {place : Path}
    (hcreate : ((Files.create path).run.run files).1 = .ok place) (model : Model) (layer : String)
    (options : ExportOptions) (text : String) :
    (∀ e after, (exportWeights model layer options).run.run text = (fail e, after) → after = text) ∧
    (∀ e after, (exportWeightsToFile model layer options path).run.run files = (fail e, after) →
      after = files) ∧
    (∀ outcome, outcome = ((exportWeights model layer options).run.run text).1 ∨
        outcome = ((exportWeightsToFile model layer options path).run.run files).1 →
      (outcome = fail (.layerNotFound layer) ↔ model.stateDict.find? layer = none) ∧
      ((∃ fault, outcome = fail (.shape layer fault)) ↔
        ¬ Oversized model layer ∧ ∃ v, model.stateDict.find? layer = some v ∧ ¬ IsMatrix v) ∧
      ((∃ row col source, outcome = fail (.range row col source)) ↔
        ¬ Oversized model layer ∧ ∃ v, model.stateDict.find? layer = some v ∧ IsMatrix v ∧
          options.policy = .abort ∧ ∃ x ∈ depthFirst v, ¬ options.format.Accepts x) ∧
      (∀ e, outcome = fail e → e = .layerNotFound layer ∨ (∃ fault, e = .shape layer fault) ∨
        ∃ row col source, e = .range row col source) ∧
      (outcome = .error .crash ↔
        Oversized model layer ∨ ¬ options.style.Writable ∧ HasWord model layer options)) ∧
    ∀ report after, (exportWeights model layer options).run.run text = (.ok report, after) →
      ∃ image, after = text ++ image ∧
        (exportWeightsToFile model layer options path).run.run files =
          (.ok report, files.put place (.file image.toUTF8)) := by
  refine ⟨fun e after => eq_of_run_exportWeights_fail,
    fun e after => (transaction_exportWeightsToFile model layer options path).undone,
    fun outcome houtcome => ?_,
    fun report after => run_exportWeightsToFile_of_run_exportWeights hcreate⟩
  obtain ⟨before, rfl⟩ :
      ∃ before, outcome = ((exportWeights model layer options).run.run before).1 := by
    rcases houtcome with h | h
    · exact ⟨text, h⟩
    · exact ⟨"", h.trans (fst_run_exportWeightsToFile hcreate)⟩
  have hverdict := verdict_quantizeLayer model layer options
  simp only [exportWeights_eq_fail_iff]
  exact ⟨hverdict.eq_layerNotFound_iff, hverdict.eq_shape_iff, hverdict.eq_range_iff,
    fun e => hverdict.error_cases, exportWeights_eq_crash_iff before⟩

/-- Two layers, of which one is ragged in its last row and the other ends in a weight that does not
fit Q2.14. -/
def lateFaults : Model :=
  ⟨[("a", .array [.array [.bool true, .bool false], .array [.bool true]]), ("b", Tensor.table)],
    [], []⟩

/-- Faults in the last row and in the last weight are found before the older image is touched. -/
theorem exportWeights_errors_lateFaults :
    ((Files.create "o").run.run oldImage).1 = .ok ["o"] ∧
    (∃ fault,
      (exportWeightsToFile lateFaults "a" ⟨QFormat.q2_14, .padded 4, .abort⟩ "o").run.run oldImage =
      (fail (.shape "a" fault), oldImage)) ∧
    ∃ row col source,
      (exportWeightsToFile lateFaults "b" ⟨QFormat.q2_14, .padded 4, .abort⟩ "o").run.run oldImage =
      (fail (.range row col source), oldImage) := by
  have hsize : ∀ layer ∈ ["a", "b"], ¬ Oversized lateFaults layer := by
    simp only [← layer_eq_crash_iff]
    decide +kernel
  refine ⟨create_oldImage, ?_, ?_⟩
  · obtain ⟨-, hundone, houtcome, -⟩ :=
      exportWeights_errors create_oldImage lateFaults "a" ⟨QFormat.q2_14, .padded 4, .abort⟩ ""
    have hragged : ¬ IsMatrix (.array [.array [.bool true, .bool false], .array [.bool true]]) := by
      rintro ⟨rows, cols, h⟩
      obtain ⟨xs, hxs⟩ := Tensor.rectangular_iff.1 ⟨_, h⟩
      cases hxs
    rcases hrun : (exportWeightsToFile lateFaults "a" _ "o").run.run oldImage with ⟨outcome, after⟩
    rw [hrun] at hundone houtcome
    obtain ⟨fault, rfl⟩ :=
      (houtcome outcome (.inr rfl)).2.1.2 ⟨hsize "a" (by simp), _, rfl, hragged⟩
    exact ⟨fault, by rw [hundone _ _ rfl]⟩
  · obtain ⟨-, hundone, houtcome, -⟩ :=
      exportWeights_errors create_oldImage lateFaults "b" ⟨QFormat.q2_14, .padded 4, .abort⟩ ""
    have hmatrix : IsMatrix Tensor.table := ⟨2, 2, Tensor.hasShape_table⟩
    have hmem : Binary64.ofInt 5 ∈ depthFirst Tensor.table := by
      simp [Tensor.table, depthFirst, Tensor.depthFirstItems, Json.Number.toBinary64]
    have hrefused : ¬ QFormat.q2_14.Accepts (Binary64.ofInt 5) :=
      QFormat.not_accepts_iff.2 (by decide +kernel)
    rcases hrun : (exportWeightsToFile lateFaults "b" _ "o").run.run oldImage with ⟨outcome, after⟩
    rw [hrun] at hundone houtcome
    obtain ⟨row, col, source, rfl⟩ := (houtcome outcome (.inr rfl)).2.2.1.2
      ⟨hsize "b" (by simp), _, rfl, hmatrix, rfl, _, hmem, hrefused⟩
    exact ⟨row, col, source, by rw [hundone _ _ rfl]⟩

/-- A layer that is not rectangular, of sixty levels. -/
def deepLayer : Model := ⟨[("w", Tensor.staircase 60)], [], []⟩

/-- A layer that is no matrix ends the process, where it should be refused. -/
theorem exportWeights_deepLayer_crash :
    deepLayer.stateDict.find? "w" = some (Tensor.staircase 60) ∧ ¬ IsMatrix (Tensor.staircase 60) ∧
      ∀ options text, (exportWeights deepLayer "w" options).run.run text =
        (.error .crash, text) := by
  refine ⟨rfl, fun ⟨rows, cols, h⟩ => Tensor.not_rectangular_staircase 58 ⟨_, h⟩,
    fun options text => ?_⟩
  have hsize : Oversized deepLayer "w" := ⟨_, rfl, Tensor.not_fits_spine_staircase le_rfl⟩
  exact run_exportWeights_of_error ((oversized_iff options).1 hsize) text

end SynapseMem
