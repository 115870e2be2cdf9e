import SynapseMem.Proofs.Weights.Errors
import SynapseMem.Summary

/-!
# Summaries layer by layer

A summary of one layer looks at nothing but the value of that layer (`summarizeLayer_of_find?_eq`):
its entry has the shape and the first leaves of a rectangular value, and any other value is refused
(`summarizeLayer_of_hasShape`, `summarizeLayer_of_not_rectangular`). A summary of every layer
consists of these entries in the order of the model, or ends as that of the first layer without one
(`summarize_all_eq_ok_iff`, `summarize_all_eq_error_iff`).

To refuse a layer, its dimensions along its first items are multiplied and room for the product is
reserved before the other items are compared with them. A deep layer can call for more than 64 bits
or memory can hold, and ends the process where it should be refused.
-/

namespace SynapseMem

open Tensor

/-! ### Members -/

theorem Json.Members.mem_map_fst_iff {members : Json.Members} {key : String} :
    key ∈ members.map (·.1) ↔ ∃ v, members.find? key = some v := by
  induction members with
  | nil => simp [find?]
  | cons member members ih =>
    obtain ⟨k, v⟩ := member
    rw [List.map_cons, List.mem_cons, ih, find?]
    by_cases hk : k = key
    · simp [hk]
    · rw [if_neg hk, or_iff_right (Ne.symm hk)]

/-- The first of the leaves, as many as are asked for and there are. -/
def WeightCount.first : WeightCount → List Binary64 → List Binary64
  | .sample n, leaves => leaves.take (min n leaves.length)
  | .all, leaves => leaves

theorem WeightCount.take_eq_first (count : WeightCount) (leaves : List Binary64) :
    leaves.take (count.take leaves.length) = count.first leaves := by
  cases count with
  | sample n => rfl
  | all => exact List.take_length

/-- A rectangular value whose elements can be counted and addressed. -/
def Readable (v : Json.Value) : Prop := ∃ shape, HasShape v shape ∧ Fits shape

/-! ### One layer -/

section OneLayer

variable {model : Model} {name : String} {v : Json.Value} {shape : List ℕ}

/-- A layer is summarized without a look at the others. -/
theorem summarizeLayer_of_find?_eq {other : Model}
    (h : other.stateDict.find? name = model.stateDict.find? name) (count : WeightCount) :
    summarizeLayer other count name = summarizeLayer model count name := by
  unfold summarizeLayer Model.layer
  rw [h]

theorem summarizeLayer_of_find?_none (h : model.stateDict.find? name = none) (count : WeightCount) :
    summarizeLayer model count name = fail (.layerNotFound name) := by
  unfold summarizeLayer Model.layer
  rw [h]
  rfl

theorem summarizeLayer_of_hasShape (hfind : model.stateDict.find? name = some v)
    (h : HasShape v shape) (count : WeightCount) :
    summarizeLayer model count name =
      if Fits shape then .ok ⟨name, shape, shape.prod, count.first (depthFirst v)⟩
      else .error .crash := by
  simp only [summarizeLayer, Model.layer, hfind, ofJson_of_hasShape h]
  split_ifs
  · rw [ok_bind, numel, count.take_eq_first, h.length_depthFirst]
    rfl
  · rw [error_bind]

theorem summarizeLayer_of_not_rectangular (hfind : model.stateDict.find? name = some v)
    (h : ¬ Rectangular v) (count : WeightCount) :
    if Fits (spine v) then ∃ fault, summarizeLayer model count name = fail (.shape name fault)
    else summarizeLayer model count name = .error .crash := by
  have hread := ofJson_of_not_rectangular h name
  simp only [summarizeLayer, Model.layer, hfind]
  split_ifs at hread ⊢
  · obtain ⟨fault, hfault⟩ := hread
    exact ⟨fault, by rw [hfault, fail, error_bind]; rfl⟩
  · rw [hread, error_bind]

/-- A layer has an entry when it is readable. -/
theorem exists_summarizeLayer_iff (hfind : model.stateDict.find? name = some v)
    (count : WeightCount) :
    (∃ entry, summarizeLayer model count name = .ok entry) ↔ Readable v := by
  by_cases hrect : Rectangular v
  · obtain ⟨shape, h⟩ := hrect
    have hunique : Readable v ↔ Fits shape := by
      constructor
      · rintro ⟨other, hother, hfits⟩
        rwa [h.eq hother] at hfits
      · exact fun hfits => ⟨shape, h, hfits⟩
    rw [summarizeLayer_of_hasShape hfind h, hunique]
    split_ifs with hfits
    · exact iff_of_true ⟨_, rfl⟩ hfits
    · exact iff_of_false (fun ⟨entry, hentry⟩ => by cases hentry) hfits
  · refine iff_of_false ?_ fun ⟨shape, h, _⟩ => hrect ⟨shape, h⟩
    rintro ⟨entry, hentry⟩
    have hnone := summarizeLayer_of_not_rectangular hfind hrect count
    rw [hentry] at hnone
    split_ifs at hnone
    · obtain ⟨fault, hfault⟩ := hnone
      cases hfault

end OneLayer

/-! ### Every layer -/

theorem summarizeLayers_eq_mapM (model : Model) (count : WeightCount) (names : List String) :
    summarizeLayers model count names = names.mapM (summarizeLayer model count) := by
  induction names with
  | nil => rfl
  | cons name names ih => rw [summarizeLayers, ih, List.mapM_cons]

/-- The summary of some layers, with the sections of the view. -/
def Summary.ofLayers (model : Model) (view : SummaryView) (layers : List LayerSummary) : Summary :=
  match view with
  | .full => ⟨some model.topology, some model.neurons, layers⟩
  | .weights => ⟨none, none, layers⟩

theorem Summary.layers_ofLayers (model : Model) (view : SummaryView) (layers : List LayerSummary) :
    (ofLayers model view layers).layers = layers := by
  cases view <;> rfl

section EveryLayer

variable {model : Model} {view : SummaryView} {count : WeightCount} {name : String}

theorem summarize_eq (model : Model) (options : SummaryOptions) :
    summarize model options = do
      let names ← shownLayers model options.layer
      let layers ← names.mapM (summarizeLayer model options.count)
      return .ofLayers model options.view layers := by
  unfold summarize
  simp only [summarizeLayers_eq_mapM]
  cases options.view <;> rfl

theorem summarize_all_eq (model : Model) (view : SummaryView) (count : WeightCount) :
    summarize model ⟨view, none, count⟩ =
      (model.layerNames.mapM (summarizeLayer model count)).map (.ofLayers model view) := by
  rw [summarize_eq]
  rfl

/-- A summary of one layer is its entry, or the error of the layer. -/
theorem summarize_one_eq (model : Model) (view : SummaryView) (count : WeightCount)
    (name : String) :
    summarize model ⟨view, some name, count⟩ =
      (summarizeLayer model count name).map fun entry => .ofLayers model view [entry] := by
  rw [summarize_eq]
  cases hfind : model.stateDict.find? name with
  | none =>
    have hshown : shownLayers model (some name) = fail (.layerNotFound name) := by
      simp [shownLayers, Json.Members.has, hfind]
    rw [hshown, summarizeLayer_of_find?_none hfind]
    rfl
  | some v =>
    have hshown : shownLayers model (some name) = .ok [name] := by
      simp [shownLayers, Json.Members.has, hfind]
    rw [hshown, ok_bind, List.mapM_cons, List.mapM_nil]
    cases summarizeLayer model count name <;> rfl

theorem summarize_one_eq_ok_iff {s : Summary} :
    summarize model ⟨view, some name, count⟩ = .ok s ↔
      ∃ entry, summarizeLayer model count name = .ok entry ∧ .ofLayers model view [entry] = s := by
  rw [summarize_one_eq, map_eq_ok_iff]

theorem exists_summarize_one_iff :
    (∃ s, summarize model ⟨view, some name, count⟩ = .ok s) ↔
      ∃ entry, summarizeLayer model count name = .ok entry := by
  simp only [summarize_one_eq_ok_iff]
  constructor
  · rintro ⟨s, entry, hentry, -⟩
    exact ⟨entry, hentry⟩
  · rintro ⟨entry, hentry⟩
    exact ⟨_, entry, hentry, rfl⟩

/-- The entries of every layer are those of the summaries of one layer. -/
theorem summarize_all_eq_ok_iff {s : Summary} :
    summarize model ⟨view, none, count⟩ = .ok s ↔
      ∃ layers, List.Forall₂ (fun name entry => summarizeLayer model count name = .ok entry)
        model.layerNames layers ∧ .ofLayers model view layers = s := by
  rw [summarize_all_eq, map_eq_ok_iff]
  simp only [mapM_eq_ok_iff]

/-- A summary of every layer succeeds when each layer is readable. -/
theorem exists_summarize_all_iff :
    (∃ s, summarize model ⟨view, none, count⟩ = .ok s) ↔
      ∀ name v, model.stateDict.find? name = some v → Readable v := by
  have hlayers : (∃ s, summarize model ⟨view, none, count⟩ = .ok s) ↔
      ∀ name ∈ model.layerNames, ∃ entry, summarizeLayer model count name = .ok entry := by
    rw [← exists_forall₂_iff]
    simp only [summarize_all_eq_ok_iff]
    constructor
    · rintro ⟨s, layers, hlayers, -⟩
      exact ⟨layers, hlayers⟩
    · rintro ⟨layers, hlayers⟩
      exact ⟨_, layers, hlayers, rfl⟩
  rw [hlayers]
  constructor
  · intro h name v hfind
    exact (exists_summarizeLayer_iff hfind count).1
      (h name (Json.Members.mem_map_fst_iff.2 ⟨v, hfind⟩))
  · intro h name hname
    obtain ⟨v, hfind⟩ := Json.Members.mem_map_fst_iff.1 hname
    exact (exists_summarizeLayer_iff hfind count).2 (h name v hfind)

/-- A summary of every layer fails as that of the first layer that fails. -/
theorem summarize_all_eq_error_iff {fault : Fault Error} :
    summarize model ⟨view, none, count⟩ = .error fault ↔
      ∃ before name after, model.layerNames = before ++ name :: after ∧
        (∀ other ∈ before, ∃ s, summarize model ⟨view, some other, count⟩ = .ok s) ∧
        summarize model ⟨view, some name, count⟩ = .error fault := by
  simp only [exists_summarize_one_iff]
  simp only [summarize_all_eq, summarize_one_eq, map_eq_error_iff, mapM_eq_error_iff]

end EveryLayer

/-- A summary of every layer and the summaries of one layer: when they succeed, with which entries,
and with which error they fail. -/
theorem summarize_by_layer (model : Model) (view : SummaryView) (count : WeightCount) :
    ((∃ s, summarize model ⟨view, none, count⟩ = .ok s) ↔
      ∀ name v, model.stateDict.find? name = some v → Readable v) ∧
    (∀ fault, summarize model ⟨view, none, count⟩ = .error fault ↔
      ∃ before name after, model.layerNames = before ++ name :: after ∧
        (∀ other ∈ before, ∃ s, summarize model ⟨view, some other, count⟩ = .ok s) ∧
        summarize model ⟨view, some name, count⟩ = .error fault) ∧
    (∀ s, summarize model ⟨view, none, count⟩ = .ok s → s = .ofLayers model view s.layers ∧
      List.Forall₂ (fun name entry =>
          summarize model ⟨view, some name, count⟩ = .ok (.ofLayers model view [entry]))
        model.layerNames s.layers) ∧
    (∀ name, model.stateDict.find? name = none →
      summarize model ⟨view, some name, count⟩ = fail (.layerNotFound name)) ∧
    (∀ name v, model.stateDict.find? name = some v →
      (∀ shape, HasShape v shape → (depthFirst v).length = shape.prod ∧
        (Fits shape → summarize model ⟨view, some name, count⟩ =
          .ok (.ofLayers model view [⟨name, shape, shape.prod, count.first (depthFirst v)⟩])) ∧
        (¬ Fits shape → summarize model ⟨view, some name, count⟩ = .error .crash)) ∧
      (¬ Rectangular v →
        (Fits (spine v) →
          ∃ fault, summarize model ⟨view, some name, count⟩ = fail (.shape name fault)) ∧
        (¬ Fits (spine v) → summarize model ⟨view, some name, count⟩ = .error .crash))) ∧
    (∀ (other : Model) name, other.stateDict.find? name = model.stateDict.find? name →
      (summarize other ⟨view, some name, count⟩).map Summary.layers =
        (summarize model ⟨view, some name, count⟩).map Summary.layers) := by
  refine ⟨exists_summarize_all_iff, fun fault => summarize_all_eq_error_iff, fun s hs => ?_,
    fun name hfind => ?_, fun name v hfind => ⟨fun shape h => ?_, fun h => ?_⟩,
    fun other name hfind => ?_⟩
  · obtain ⟨layers, hlayers, rfl⟩ := summarize_all_eq_ok_iff.1 hs
    rw [Summary.layers_ofLayers]
    exact ⟨rfl, hlayers.imp fun name entry hentry => summarize_one_eq_ok_iff.2 ⟨entry, hentry, rfl⟩⟩
  · rw [summarize_one_eq, summarizeLayer_of_find?_none hfind]
    rfl
  · rw [summarize_one_eq, summarizeLayer_of_hasShape hfind h]
    refine ⟨h.length_depthFirst, fun hfits => ?_, fun hfits => ?_⟩
    · rw [if_pos hfits]
      rfl
    · rw [if_neg hfits]
      rfl
  · have hlayer := summarizeLayer_of_not_rectangular hfind h count
    rw [summarize_one_eq]
    constructor
    · intro hfits
      rw [if_pos hfits] at hlayer
      obtain ⟨fault, hfault⟩ := hlayer
      exact ⟨fault, by rw [hfault]; rfl⟩
    · intro hfits
      rw [if_neg hfits] at hlayer
      rw [hlayer]
      rfl
  · rw [summarize_one_eq, summarize_one_eq, summarizeLayer_of_find?_eq hfind]
    cases summarizeLayer model count name with
    | error fault => rfl
    | ok entry => simp only [Except.map, Summary.layers_ofLayers]

/-- A table between a layer that is not rectangular and an empty one. -/
def mixedLayers : Model :=
  ⟨[("first", table), ("ragged", .array [table, .bool true]), ("last", .array [])], [], []⟩

theorem not_rectangular_ragged : ¬ Rectangular (.array [table, .bool true]) := by
  rintro ⟨shape, h⟩
  cases h with
  | array _ h => cases (h table (by simp)).spine_eq.trans (h (.bool true) (by simp)).spine_eq.symm

/-- Each sound layer has its entry alone, and all together fail as the ragged one does. -/
theorem summarize_by_layer_mixed :
    HasShape table [2, 2] ∧ HasShape (.array []) [0] ∧ ¬ Rectangular (.array [table, .bool true]) ∧
      summarize mixedLayers ⟨.weights, some "first", .sample 3⟩ =
        .ok (.ofLayers mixedLayers .weights [⟨"first", [2, 2], 4, (depthFirst table).take 3⟩]) ∧
      summarize mixedLayers ⟨.weights, some "last", .sample 3⟩ =
        .ok (.ofLayers mixedLayers .weights [⟨"last", [0], 0, []⟩]) ∧
      summarize mixedLayers ⟨.weights, some "none", .sample 3⟩ = fail (.layerNotFound "none") ∧
      ∃ fault,
        summarize mixedLayers ⟨.weights, some "ragged", .sample 3⟩ = fail (.shape "ragged" fault) ∧
        summarize mixedLayers ⟨.weights, none, .sample 3⟩ = fail (.shape "ragged" fault) := by
  obtain ⟨-, hfirst, -, habsent, hlayer, -⟩ := summarize_by_layer mixedLayers .weights (.sample 3)
  have htable := ((hlayer "first" table rfl).1 [2, 2] hasShape_table).2.1 (by decide)
  have hempty := ((hlayer "last" (.array []) rfl).1 [0] .empty).2.1 (by decide)
  obtain ⟨fault, hfault⟩ :=
    ((hlayer "ragged" (.array [table, .bool true]) rfl).2 not_rectangular_ragged).1 (by decide)
  refine ⟨hasShape_table, .empty, not_rectangular_ragged, htable, hempty,
    habsent "none" (by decide), fault, hfault, ?_⟩
  refine (hfirst _).2 ⟨["first"], "ragged", ["last"], rfl, ?_, hfault⟩
  simpa using ⟨_, htable⟩

/-- A layer that is not rectangular ends the process, where a summary should fail with its error. -/
theorem summarize_deepLayer_crash :
    deepLayer.stateDict.find? "w" = some (staircase 60) ∧ ¬ Rectangular (staircase 60) ∧
      ∀ view count, summarize deepLayer ⟨view, none, count⟩ = .error .crash := by
  have hfind : deepLayer.stateDict.find? "w" = some (staircase 60) := rfl
  have hragged := not_rectangular_staircase 58
  refine ⟨hfind, hragged, fun view count => ?_⟩
  have hlayer := summarizeLayer_of_not_rectangular hfind hragged count
  rw [if_neg (not_fits_spine_staircase le_rfl)] at hlayer
  refine summarize_all_eq_error_iff.2 ⟨[], "w", [], rfl, by simp, ?_⟩
  rw [summarize_one_eq, hlayer]
  rfl

end SynapseMem
