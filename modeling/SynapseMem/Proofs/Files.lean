import Mathlib.Data.String.Basic
import SynapseMem.Files
import SynapseMem.Proofs.Steps

/-!
# Files that are created and written

A node that is put at a path changes what that path leads to. Where the path was located first, no
other path leads elsewhere than before (`Files.node?_put_of_ne`). A plain name leads to its place in
the working directory (`Files.locate_of_name`).

`Files.writing` empties a file before the computation that fills it is run, and writes what the
computation has put out whether it ends well or not (`Files.run_writing`). So a run that stops
leaves the file with what came before the stop. A computation that can only end well or crash never
leaves an error and a changed file behind (`Files.transaction_writing`).
-/

namespace SynapseMem.Files

/-! ### Located paths -/

/-- One component further, all but the new path itself lies on the old path. -/
theorem prefix_of_prefix_enter {path above : Path} {component : String}
    (h : above <+: enter path component) (hne : above ≠ enter path component) : above <+: path := by
  have hconcat : ∀ c, above <+: path ++ [c] → above ≠ path ++ [c] → above <+: path := by
    intro c hprefix hproper
    exact (List.prefix_concat_iff.1 hprefix).resolve_left hproper
  revert h hne
  unfold enter
  split_ifs with hdot hup
  · exact fun h _ => h
  · split
    · rename_i hnil
      rw [List.getLast?_eq_none_iff.1 hnil] at hconcat ⊢
      exact hconcat ".."
    · exact hconcat ".."
    · exact fun h _ => h
    · exact fun h _ => h.trans (List.dropLast_prefix path)
  · exact hconcat component

/-- Every directory on the way along followed components exists. -/
theorem isSome_node?_of_follow {files : Files} {path place : Path} {components : List String}
    (h : files.follow path components = .ok place)
    (hpath : ∀ above, above <+: path → above ≠ path → (files.node? above).isSome) :
    ∀ above, above <+: place → above ≠ place → (files.node? above).isSome := by
  induction components generalizing path with
  | nil =>
    cases h
    exact hpath
  | cons component rest ih =>
    rw [follow] at h
    split at h
    · rename_i hnode
      split_ifs at h
      refine ih h fun above habove hne => ?_
      by_cases hself : above = path
      · rw [hself, hnode]
        rfl
      · exact hpath above (prefix_of_prefix_enter habove hne) hself
    · cases h
    · cases h

theorem isSome_node?_of_locate {files : Files} {text : String} {place : Path}
    (h : files.locate text = .ok place) :
    ∀ above, above <+: place → above ≠ place → (files.node? above).isSome := by
  have hroot : (files.node? []).isSome := by
    unfold node?
    split <;> simp
  unfold locate at h
  split_ifs at h
  split at h
  · refine isSome_node?_of_follow h fun above habove hne => ?_
    rw [← List.nil_append ["/"]] at habove
    rcases List.prefix_concat_iff.1 habove with hself | hnil
    · exact absurd hself hne
    · rwa [List.prefix_nil.1 hnil]
  · refine isSome_node?_of_follow h fun above habove hne => ?_
    exact absurd (List.prefix_nil.1 habove) hne

/-! ### Nodes put at a path -/

/-- A known path keeps its place. -/
theorem comp_replace (place : Path) (node : Node) (p : Path → Bool) :
    (fun entry : Path × Node => p entry.1) ∘
      (fun entry => if entry.1 == place then (place, node) else entry) =
        fun entry => p entry.1 := by
  funext entry
  by_cases hplace : entry.1 = place <;> simp [hplace]

/-- Of two nodes put at one path the later one stays. -/
theorem put_put (files : Files) (path : Path) (first second : Node) :
    (files.put path first).put path second = files.put path second := by
  unfold put
  cases hany : files.nodes.any fun entry => entry.1 == path with
  | true =>
    have hmap : (files.nodes.map fun entry => if entry.1 == path then (path, first) else entry).any
        (fun entry => entry.1 == path) = files.nodes.any fun entry => entry.1 == path := by
      rw [List.any_map, comp_replace path first (· == path)]
    simp only [if_true, hmap, hany, List.map_map, Files.mk.injEq]
    apply List.map_congr_left
    intro entry _
    by_cases hpath : entry.1 = path <;> simp [hpath]
  | false =>
    have hnone := List.any_eq_false.1 hany
    have hkeep : (files.nodes.map fun entry => if entry.1 = path then (path, second) else entry) =
        files.nodes := by
      conv_rhs => rw [← List.map_id files.nodes]
      apply List.map_congr_left
      intro entry hentry
      rw [if_neg (by simpa using hnone entry hentry), id_eq]
    simp [hany, hkeep]

section Put

variable {files : Files} {place path : Path} (node : Node)

/-- Putting a node adds at most its own path. -/
theorem any_put (p : Path → Bool) :
    ((files.put place node).nodes.any fun entry => p entry.1) =
      ((files.nodes.any fun entry => p entry.1) || p place) := by
  unfold put
  split_ifs with hknown
  · rw [List.any_map, comp_replace place node p]
    -- the path was there already, so asking for it again changes nothing
    cases hp : p place with
    | false => rw [Bool.or_false]
    | true =>
      obtain ⟨entry, hentry, hplace⟩ := List.any_eq_true.1 hknown
      rw [Bool.or_true, List.any_eq_true]
      exact ⟨entry, hentry, by rw [eq_of_beq hplace, hp]⟩
  · simp

/-- The entry of any other path stays. -/
theorem find?_put (hne : path ≠ place) :
    (files.put place node).nodes.find? (fun entry => entry.1 == path) =
      files.nodes.find? fun entry => entry.1 == path := by
  unfold put
  split_ifs with hknown
  · rw [List.find?_map, comp_replace place node (· == path)]
    cases hfind : files.nodes.find? fun entry => entry.1 == path with
    | none => rfl
    | some entry =>
      have hpath : entry.1 = path := by simpa using List.find?_some hfind
      simp [hpath, hne]
  · simp [List.find?_append, hne.symm]

end Put

/-- Any other path leads where it led before. The directories on the way to a located path were
there, so none of them appears with it. -/
theorem node?_put_of_ne {files : Files} {text : String} {place path : Path}
    (h : files.locate text = .ok place) (node : Node) (hne : path ≠ place) :
    (files.put place node).node? path = files.node? path := by
  have hway := isSome_node?_of_locate h path
  unfold node? at hway ⊢
  rw [find?_put node hne, any_put node fun p => path.isPrefixOf p]
  cases hfind : files.nodes.find? fun entry => entry.1 == path with
  | some entry => rfl
  | none =>
    cases hprefix : path.isPrefixOf place with
    | false => rw [Bool.or_false]
    | true =>
      have hsome := hway (List.isPrefixOf_iff_prefix.1 hprefix) hne
      rw [hfind] at hsome
      simp only [Option.isSome_ite] at hsome
      simp [hsome]

/-! ### Plain names -/

/-- A text without a slash is not split. -/
theorem splitOnAux_of_notMem (front rest : List Char) (h : '/' ∉ rest) :
    (String.ofList (front ++ rest)).splitOnAux "/" 0 ⟨String.utf8Len front⟩ 0 [] =
      [String.ofList (front ++ rest)] := by
  induction rest generalizing front with
  | nil =>
    have hall := String.extract_of_valid [] front []
    rw [String.splitOnAux.eq_def, if_pos ((String.atEnd_of_valid front []).2 rfl)]
    simpa using hall
  | cons c rest ih =>
    rw [List.mem_cons, not_or] at h
    have hend := String.atEnd_of_valid front (c :: rest)
    have hget := String.get_of_valid front (c :: rest)
    have hslash : String.Pos.Raw.get "/" 0 = '/' := String.get_of_valid [] ['/']
    rw [String.splitOnAux.eq_def, if_neg (mt hend.1 (List.cons_ne_nil c rest)), hget, hslash,
      if_neg (by simpa using Ne.symm h.1)]
    -- one character further
    have hfront := ih (front ++ [c]) h.2
    rw [List.append_assoc, String.utf8Len_append] at hfront
    have hzero : (⟨String.utf8Len front⟩ : String.Pos.Raw).unoffsetBy 0 =
        ⟨String.utf8Len front⟩ := by
      simp
    rw [hzero, String.next_of_valid front c rest]
    simpa using hfront

theorem components_of_name {name : String} (hne : name ≠ "") (hslash : '/' ∉ name.toList) :
    components name = [name] := by
  have hsplit : name.splitOn "/" = [name] := by
    have haux := splitOnAux_of_notMem [] name.toList hslash
    rw [List.nil_append, String.ofList_toList] at haux
    exact haux
  rw [components, hsplit]
  simp [components.clean, hne]

/-- A name that is not too long leads to its place in the working directory. -/
theorem locate_of_name {files : Files} {name : String} (hname : name ∉ ["", ".", ".."])
    (hslash : '/' ∉ name.toList) (hsize : name.utf8ByteSize ≤ componentLimit)
    (hhere : files.node? [] = some .directory) : files.locate name = .ok [name] := by
  simp only [List.mem_cons, List.not_mem_nil, or_false, not_or] at hname
  obtain ⟨hempty, hdot, hup⟩ := hname
  have hroot : name ≠ "/" := by
    rintro rfl
    exact hslash (by decide)
  have hpath : ¬ pathLimit < name.utf8ByteSize := not_lt.2 (hsize.trans (by decide))
  rw [locate, if_neg hpath, components_of_name hempty hslash]
  simp [follow, hhere, hroot, enter, hdot, hup, not_lt.2 hsize]

/-! ### Creating and writing -/

/-- A path that leads to no directory is created where it leads to. -/
theorem run_create_of_locate {files : Files} {path : String} {place : Path}
    (hplace : files.locate path = .ok place) (hfree : files.node? place ≠ some .directory) :
    (create path).run.run files = (.ok place, files.put place (.file ByteArray.empty)) := by
  have hget : (get : Step Files Files).run.run files = (.ok files, files) := rfl
  rw [create, run_bind_ok hget, hplace]
  rcases hnode : files.node? place with _ | ⟨content⟩ | _
  · simp only [hnode]
    rfl
  · simp only [hnode]
    rfl
  · exact absurd hnode hfree

/-- Creating a file fails with an error that leaves every file as it was, or empties the file that
the path leads to. -/
theorem run_create_cases (path : String) (files : Files) :
    (∃ cause, (create path).run.run files = (.error (.error (.io cause)), files)) ∨
      ∃ place, files.locate path = .ok place ∧
        (create path).run.run files = (.ok place, files.put place (.file ByteArray.empty)) := by
  have hget : (get : Step Files Files).run.run files = (.ok files, files) := rfl
  cases hplace : files.locate path with
  | error e =>
    rw [create, run_bind_ok hget, hplace]
    exact .inl ⟨e.message, rfl⟩
  | ok place =>
    by_cases hfree : files.node? place = some .directory
    · rw [create, run_bind_ok hget, hplace]
      exact .inl ⟨FileError.isDirectory.message, by simp only [hfree]; rfl⟩
    · exact .inr ⟨place, rfl, run_create_of_locate hplace hfree⟩

/-- What a computation puts out is written, whether it ends well or not. -/
theorem run_writing {α : Type} {path : String} {files : Files} {place : Path}
    (h : ((create path).run.run files).1 = .ok place) (body : Step String α) :
    (writing path body).run.run files =
      ((body.run.run "").1, files.put place (.file (body.run.run "").2.toUTF8)) := by
  rcases run_create_cases path files with ⟨cause, hcreate⟩ | ⟨place', -, hcreate⟩
  · rw [hcreate] at h
    cases h
  · rw [hcreate] at h
    cases h
    rw [writing, run_bind_ok hcreate]
    rcases body.run.run "" with ⟨result, output⟩
    rw [← put_put files place (.file ByteArray.empty) (.file output.toUTF8)]
    cases result <;> rfl

/-! ### Transactions -/

/-- All files are as before, but perhaps the one that the target leads to, which has a new
content. -/
def Rewritten (target : Option String) (before after : Files) : Prop :=
  after = before ∨ ∃ text place content, target = some text ∧ before.locate text = .ok place ∧
    after = before.put place (.file content)

theorem Rewritten.refl (target : Option String) (files : Files) : files.Rewritten target files :=
  .inl rfl

theorem Rewritten.eq_of_none {before after : Files} (h : before.Rewritten none after) :
    after = before := by
  rcases h with h | ⟨text, -, -, htarget, -⟩
  · exact h
  · cases htarget

/-- Only the path that the target leads to can lead elsewhere than before. -/
theorem Rewritten.node? {target : Option String} {before after : Files}
    (h : before.Rewritten target after) {path : Path}
    (hpath : after.node? path ≠ before.node? path) :
    ∃ text, target = some text ∧ before.locate text = .ok path := by
  rcases h with rfl | ⟨text, place, content, htarget, hlocate, rfl⟩
  · exact absurd rfl hpath
  · refine ⟨text, htarget, ?_⟩
    by_cases hplace : path = place
    · rw [hplace, hlocate]
    · exact absurd (node?_put_of_ne hlocate _ hplace) hpath

/-- A computation that reports no error of its own fills its file, or the file cannot be created and
nothing changes. -/
theorem transaction_writing {α : Type} {path : String} {body : Step String α}
    (h : NeverReports body) : Transaction (Rewritten (some path)) (writing path body) := by
  constructor
  · intro before after e hrun
    rcases run_create_cases path before with ⟨cause, hcreate⟩ | ⟨place, -, hcreate⟩
    · rw [writing, run_bind_error hcreate] at hrun
      cases hrun
      rfl
    · rw [run_writing (congrArg Prod.fst hcreate)] at hrun
      exact absurd (congrArg Prod.fst hrun) (h "" e)
  · intro before
    rcases run_create_cases path before with ⟨cause, hcreate⟩ | ⟨place, hlocate, hcreate⟩
    · rw [writing, run_bind_error hcreate]
      exact .refl _ _
    · rw [run_writing (congrArg Prod.fst hcreate)]
      exact .inr ⟨path, place, _, rfl, hlocate, rfl⟩

end SynapseMem.Files
