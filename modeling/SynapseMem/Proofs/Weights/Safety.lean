import SynapseMem.Config
import SynapseMem.Proofs.Files
import SynapseMem.Proofs.Weights.Export

/-!
# When an export ends the process

Under valid settings an export gives a report or an error, but for two cases. The dimensions of a
layer can be too large (`Oversized`): they are taken along its first items, multiplied, and room for
their product is reserved before any item is compared with them. And valid settings can ask for
padding that cannot be written (`Config.PadsTooWide`), since they are only checked to have a digit
at all; the process then ends at the first weight that has a word. By that time the file to be
written has been emptied.

There are no other cases: rows are divided by their length only when they hold a weight, the report
shows weights that exist, and no more of them are skipped than there are.
-/

namespace SynapseMem

/-- The dimensions of the layer along its first items leave 64 bits when they are multiplied, or
call for more memory than can be addressed. -/
def Oversized (model : Model) (layer : String) : Prop :=
  ∃ v, model.stateDict.find? layer = some v ∧ ¬ Tensor.Fits (Tensor.spine v)

/-- The layer is a matrix whose weights the policy admits, and one of them has a word. -/
def HasWord (model : Model) (layer : String) (options : ExportOptions) : Prop :=
  ∃ tensor rows cols, model.layer layer = .ok tensor ∧ tensor.shape = [rows, cols] ∧
    (options.policy = .abort → ∀ x ∈ tensor.data, options.format.Accepts x) ∧
    ∃ x ∈ tensor.data, options.format.Accepts x

/-- The settings ask for more padding than can be written. -/
def Config.PadsTooWide (config : Config) : Prop :=
  config.style = .padded ∧ HexStyle.maxPadding < config.digits

theorem layer_eq_crash_iff {model : Model} {layer : String} :
    model.layer layer = .error .crash ↔ Oversized model layer := by
  unfold Model.layer Oversized
  cases model.stateDict.find? layer with
  | none => simp [fail]
  | some v => simp [Tensor.ofJson_eq_crash_iff]

/-- A layer has a word when it is quantized with one. -/
theorem hasWord_iff {model : Model} {layer : String} {options : ExportOptions} :
    HasWord model layer options ↔
      ∃ quantized word, quantizeLayer model layer options = .ok quantized ∧
        word ∈ quantized.words := by
  constructor
  · rintro ⟨tensor, rows, cols, hlayer, hshape, hfits, x, hx, word, hword⟩
    refine ⟨_, word, quantizeLayer_of_fits hlayer hshape hfits, ?_⟩
    exact QuantizedLayer.mem_words.2 (List.mem_map.2 ⟨x, hx, hword⟩)
  · rintro ⟨quantized, word, hquantized, hword⟩
    obtain ⟨tensor, hlayer, hof⟩ := quantizeLayer_eq_ok_iff.1 hquantized
    rw [QuantizedLayer.mem_words, hof.results, List.mem_map] at hword
    obtain ⟨x, hx, hok⟩ := hword
    exact ⟨tensor, _, _, hlayer, hof.shape, hof.fits, x, hx, word, hok⟩

namespace Config

/-- Valid settings give their options. -/
theorem exists_exportOptions {config : Config} (h : config.validate = .ok ()) :
    ∃ format, config.exportOptions = .ok ⟨format, config.hexStyle, config.policy⟩ := by
  cases hformat : config.format with
  | error e =>
    rw [validate, hformat] at h
    cases h
  | ok format =>
    refine ⟨format, ?_⟩
    rw [exportOptions, h, hformat]
    rfl

theorem padsTooWide_iff {config : Config} : config.PadsTooWide ↔ ¬ config.hexStyle.Writable := by
  unfold PadsTooWide hexStyle
  cases config.style <;> simp [HexStyle.Writable]

end Config

section Export

variable {model : Model} {layer : String} {options : ExportOptions}

theorem oversized_iff (options : ExportOptions) :
    Oversized model layer ↔ quantizeLayer model layer options = .error .crash := by
  rw [quantizeLayer_eq_crash_iff, layer_eq_crash_iff]

/-- Unless a word cannot be written, a quantized layer is written and reported on. -/
theorem writable_of_not_crash {quantized : QuantizedLayer}
    (h : quantizeLayer model layer options = .ok quantized)
    (hword : ¬ (¬ options.style.Writable ∧ HasWord model layer options)) :
    ∀ word ∈ quantized.words, options.style.Writable := by
  intro word hmem
  by_contra hstyle
  exact hword ⟨hstyle, hasWord_iff.2 ⟨quantized, word, h, hmem⟩⟩

/-- A word that cannot be written ends the process, and nothing is put out. -/
theorem run_exportWeights_of_hasWord (hstyle : ¬ options.style.Writable)
    (hword : HasWord model layer options) (text : String) :
    (exportWeights model layer options).run.run text = (.error .crash, text) := by
  obtain ⟨quantized, word, hquantized, hmem⟩ := hasWord_iff.1 hword
  obtain ⟨tensor, -, hof⟩ := quantizeLayer_eq_ok_iff.1 hquantized
  rw [run_exportWeights_of_ok hquantized, hof.run_writeLayer_of_not_writable hstyle hmem]

/-- An export ends the process where reading the layer does, and where a word cannot be written. -/
theorem exportWeights_eq_crash_iff (text : String) :
    ((exportWeights model layer options).run.run text).1 = .error .crash ↔
      Oversized model layer ∨ ¬ options.style.Writable ∧ HasWord model layer options := by
  by_cases hword : ¬ options.style.Writable ∧ HasWord model layer options
  · simp [run_exportWeights_of_hasWord hword.1 hword.2, hword]
  · -- what is left to go wrong is reading the layer
    rw [or_iff_left hword, oversized_iff options]
    cases hquantized : quantizeLayer model layer options with
    | error fault => rw [run_exportWeights_of_error hquantized]; simp
    | ok quantized =>
      obtain ⟨tensor, -, hof⟩ := quantizeLayer_eq_ok_iff.1 hquantized
      rw [run_exportWeights_of_ok hquantized,
        hof.run_writeLayer (writable_of_not_crash hquantized hword)]
      simp

/-- A word that cannot be written ends the process after the file has been emptied. -/
theorem run_exportWeightsToFile_of_hasWord {path : String} {files : Files} {place : Path}
    (hcreate : ((Files.create path).run.run files).1 = .ok place)
    (hstyle : ¬ options.style.Writable) (hword : HasWord model layer options) :
    (exportWeightsToFile model layer options path).run.run files =
      (.error .crash, files.put place (.file ByteArray.empty)) := by
  obtain ⟨quantized, word, hquantized, hmem⟩ := hasWord_iff.1 hword
  obtain ⟨tensor, -, hof⟩ := quantizeLayer_eq_ok_iff.1 hquantized
  rw [run_exportWeightsToFile_of_ok hquantized, Files.run_writing hcreate,
    hof.run_writeLayer_of_not_writable hstyle hmem]
  rfl

/-- Any other export that fails has touched no file. -/
theorem run_exportWeightsToFile_error {path : String} {files after : Files} {place : Path}
    {fault : Fault Error} (hcreate : ((Files.create path).run.run files).1 = .ok place)
    (hword : ¬ (¬ options.style.Writable ∧ HasWord model layer options))
    (h : (exportWeightsToFile model layer options path).run.run files = (.error fault, after)) :
    after = files ∧ (fault = .crash ↔ Oversized model layer) := by
  cases hquantized : quantizeLayer model layer options with
  | error fault' =>
    rw [run_exportWeightsToFile_of_error hquantized] at h
    cases h
    exact ⟨rfl, by simp [oversized_iff options, hquantized]⟩
  | ok quantized =>
    obtain ⟨tensor, -, hof⟩ := quantizeLayer_eq_ok_iff.1 hquantized
    rw [run_exportWeightsToFile_of_ok hquantized, Files.run_writing hcreate,
      hof.run_writeLayer (writable_of_not_crash hquantized hword)] at h
    cases h

end Export

/-- Under valid settings an export ends the process for an oversized layer and for padding that is
too wide with a word to write, and in no other case. In the second case the file that was to be
written is left empty; in every other case an export that fails has touched no file. -/
theorem exportOptions_crash_iff {config : Config} (h : config.validate = .ok ()) :
    ∃ options, config.exportOptions = .ok options ∧ ∀ (model : Model) (layer : String),
      (∀ text, ((exportWeights model layer options).run.run text).1 = .error .crash ↔
        Oversized model layer ∨ config.PadsTooWide ∧ HasWord model layer options) ∧
      ∀ (path : String) (files : Files) (place : Path),
        ((Files.create path).run.run files).1 = .ok place →
        (config.PadsTooWide ∧ HasWord model layer options →
          (exportWeightsToFile model layer options path).run.run files =
            (.error .crash, files.put place (.file ByteArray.empty))) ∧
        (¬ (config.PadsTooWide ∧ HasWord model layer options) → ∀ fault after,
          (exportWeightsToFile model layer options path).run.run files = (.error fault, after) →
            after = files ∧ (fault = .crash ↔ Oversized model layer)) := by
  obtain ⟨format, hoptions⟩ := Config.exists_exportOptions h
  refine ⟨_, hoptions,
    fun model layer => ⟨fun text => ?_, fun path files place hcreate => ⟨?_, ?_⟩⟩⟩
  · rw [Config.padsTooWide_iff, exportWeights_eq_crash_iff]
  · rw [Config.padsTooWide_iff]
    rintro ⟨hstyle, hword⟩
    exact run_exportWeightsToFile_of_hasWord hcreate hstyle hword
  · rw [Config.padsTooWide_iff]
    intro hword fault after hrun
    exact run_exportWeightsToFile_error hcreate hword hrun

/-- The widest padding that can be written leaves oversized layers only. -/
theorem exportOptions_crash_iff_widest :
    (⟨2, 14, .padded, 65535, .skip⟩ : Config).validate = .ok () ∧
      ∃ options, (⟨2, 14, .padded, 65535, .skip⟩ : Config).exportOptions = .ok options ∧
        ∀ model layer text, ((exportWeights model layer options).run.run text).1 = .error .crash ↔
          Oversized model layer := by
  have hvalid : (⟨2, 14, .padded, 65535, .skip⟩ : Config).validate = .ok () := by decide
  obtain ⟨options, hoptions, hall⟩ := exportOptions_crash_iff hvalid
  refine ⟨hvalid, options, hoptions, fun model layer text => ?_⟩
  have hnot : ¬ (⟨2, 14, .padded, 65535, .skip⟩ : Config).PadsTooWide := by
    rintro ⟨-, hlt⟩
    exact absurd hlt (by decide)
  rw [(hall model layer).1 text, or_iff_left fun hwide => hnot hwide.1]

/-- A file that holds an older image. -/
def oldImage : Files := ⟨[(["o"], .file "4000\n".toUTF8)]⟩

theorem create_oldImage : ((Files.create "o").run.run oldImage).1 = .ok ["o"] := by
  have hplace : oldImage.locate "o" = .ok ["o"] :=
    Files.locate_of_name (by decide) (by decide) (by decide) rfl
  rw [Files.run_create_of_locate hplace fun h => by cases h]

/-- A layer of one weight. -/
def oneWeight : Model := ⟨[("w", .array [.array [.bool true]])], [], []⟩

/-- Valid settings under which an export of one weight ends the process and empties the file it was
to replace. -/
theorem exportOptions_crash_of_digits :
    (⟨2, 14, .padded, 65536, .abort⟩ : Config).validate = .ok () ∧
    (⟨2, 14, .padded, 65536, .abort⟩ : Config).exportOptions =
      .ok ⟨QFormat.q2_14, .padded 65536, .abort⟩ ∧
    (exportWeights oneWeight "w" ⟨QFormat.q2_14, .padded 65536, .abort⟩).run.run "" =
      (.error .crash, "") ∧
    (exportWeightsToFile oneWeight "w" ⟨QFormat.q2_14, .padded 65536, .abort⟩ "o").run.run
        ⟨[(["o"], .file "4000\n".toUTF8)]⟩ =
      (.error .crash, ⟨[(["o"], .file ByteArray.empty)]⟩) := by
  have hstyle : ¬ (HexStyle.padded 65536).Writable := by decide
  have hword : HasWord oneWeight "w" ⟨QFormat.q2_14, .padded 65536, .abort⟩ := by
    have haccepts : ∀ x ∈ [Binary64.one], QFormat.q2_14.Accepts x := by
      rw [List.forall_mem_singleton]
      exact ⟨⟨0x4000, QFormat.q2_14⟩, by decide +kernel⟩
    exact ⟨⟨[1, 1], [Binary64.one]⟩, 1, 1, by decide +kernel, rfl, fun _ => haccepts, _,
      List.mem_singleton_self _, haccepts _ (List.mem_singleton_self _)⟩
  refine ⟨by decide, by decide, run_exportWeights_of_hasWord hstyle hword "", ?_⟩
  exact (run_exportWeightsToFile_of_hasWord create_oldImage hstyle hword).trans rfl

end SynapseMem
