import Mathlib.Data.List.Forall2
import TapeMachine.Definition.Load
import TapeMachine.Proofs.Interleaving

namespace TapeMachine

namespace FileTree

variable {root node : FileTree} {above : List FileTree} {names : List String}
  {entries : List (String × FileTree)} {directory name : String}

/-- The names that an entry of a directory can have. -/
structure IsEntryName (name : String) : Prop where
  nonempty : name ≠ ""
  plain : '/' ∉ name.toList
  notSelf : name ≠ "."
  notParent : name ≠ ".."

structure WellNamed (entries : List (String × FileTree)) : Prop where
  names : ∀ entry ∈ entries, IsEntryName entry.1
  distinct : (entries.map Prod.fst).Nodup

theorem WellNamed.of_perm {entries' : List (String × FileTree)} (h : WellNamed entries)
    (hperm : entries'.Perm entries) : WellNamed entries' where
  names := fun entry hentry => h.names entry (hperm.subset hentry)
  distinct := (hperm.map Prod.fst).nodup_iff.mpr h.distinct

section Walking

theorem walk_self (h : name = "" ∨ name = ".") :
    walk above (.directory entries) (name :: names) = walk above (.directory entries) names :=
  if_pos h

theorem walk_of_not_special (hself : ¬ (name = "" ∨ name = ".")) (hparent : name ≠ "..") :
    walk above (.directory entries) (name :: names) =
      (child? name entries).elim (.error .notFound) fun child =>
        walk (.directory entries :: above) child names := by
  simp only [walk, if_neg hself, if_neg hparent]
  cases child? name entries <;> rfl

/-- Every walk either fails, however it goes on, or goes on from where it leads. -/
theorem walk_append (above : List FileTree) (node : FileTree) (names : List String) :
    (∃ fault, ∀ rest, walk above node (names ++ rest) = .error fault) ∨
    ∃ above' found, ∀ rest, walk above node (names ++ rest) = walk above' found rest := by
  induction names generalizing above node with
  | nil => exact .inr ⟨above, node, fun _ => rfl⟩
  | cons name names ih =>
      cases node with
      | file bytes => exact .inl ⟨.notDirectory, fun _ => rfl⟩
      | directory entries =>
          by_cases hself : name = "" ∨ name = "."
          · simpa only [List.cons_append, walk_self hself] using ih above (.directory entries)
          · by_cases hparent : name = ".."
            · subst hparent
              cases above with
              | nil => exact ih [] (.directory [])
              | cons parent above => exact ih above parent
            · simp only [List.cons_append, walk_of_not_special hself hparent]
              cases child? name entries with
              | none => exact .inl ⟨.notFound, fun _ => rfl⟩
              | some child => exact ih (.directory entries :: above) child

theorem exists_walk_append (h : walk above node names = .ok (.directory entries)) :
    ∃ above', ∀ rest,
      walk above node (names ++ rest) = walk above' (.directory entries) rest := by
  obtain ⟨fault, hfault⟩ | ⟨above', found, hfound⟩ := walk_append above node names
  · rw [← List.append_nil names, hfault] at h
    contradiction
  · have hend := hfound []
    rw [List.append_nil, h] at hend
    obtain rfl : .directory entries = found := Except.ok.inj hend
    exact ⟨above', hfound⟩

/-- A slash behind the name of a directory does not matter. -/
theorem walk_of_trailing (h : walk above node (names ++ [""]) = .ok (.directory entries)) :
    walk above node names = .ok (.directory entries) := by
  obtain ⟨fault, hfault⟩ | ⟨above', found, hfound⟩ := walk_append above node names
  · rw [hfault] at h
    contradiction
  · rw [hfound] at h
    rw [← List.append_nil names, hfound]
    cases found with
    | file bytes => contradiction
    | directory => rwa [walk_self (.inl rfl)] at h

end Walking

section Joining

theorem splitOn_toList (h : IsEntryName name) : name.toList.splitOn '/' = [name.toList] :=
  List.splitOn_eq_singleton h.plain

/-- The names of a path into a directory are those of the directory and one more, where a slash
behind the name of the directory counts for nothing. -/
theorem pathNames_join (directory : String) (h : IsEntryName name) :
    pathNames (join directory name) = pathNames directory ++ [name] ∨
    ∃ front, pathNames directory = front ++ [""] ∧
      pathNames (join directory name) = front ++ [name] := by
  by_cases hslash : directory.toList.getLast? = some '/'
  · right
    obtain ⟨front, hfront⟩ := List.getLast?_eq_some_iff.mp hslash
    refine ⟨(front.splitOn '/').map String.ofList, ?_, ?_⟩
    · rw [pathNames, hfront, List.splitOn_append_cons_self, List.map_append, List.splitOn_nil]
      rfl
    · rw [join, if_pos hslash, pathNames, String.toList_append, hfront, List.append_assoc,
        List.singleton_append, List.splitOn_append_cons_self, splitOn_toList h, List.map_append,
        List.map_singleton, String.ofList_toList]
  · left
    rw [join, if_neg hslash, pathNames, String.toList_append, String.toList_append,
      List.append_assoc, show "/".toList ++ name.toList = '/' :: name.toList from rfl,
      List.splitOn_append_cons_self, splitOn_toList h, List.map_append, List.map_singleton,
      String.ofList_toList]
    rfl

theorem join_ne_empty (h : IsEntryName name) : join directory name ≠ "" := by
  unfold join
  split <;> simp [h.nonempty]

theorem resolve_of_list (h : root.list directory = .ok entries) :
    root.resolve directory = .ok (.directory entries) := by
  unfold list at h
  cases hresolve : root.resolve directory with
  | error fault =>
      rw [hresolve] at h
      contradiction
  | ok found =>
      rw [hresolve] at h
      cases found with
      | file bytes => contradiction
      | directory entries' => rw [Except.ok.inj h]

theorem resolve_join (hlist : root.list directory = .ok entries) (h : IsEntryName name) :
    root.resolve (join directory name) = (child? name entries).elim (.error .notFound) .ok := by
  have hdirectory := resolve_of_list hlist
  have hwalk : walk [] root (pathNames directory) = .ok (.directory entries) := by
    rw [resolve] at hdirectory
    split at hdirectory
    · contradiction
    · exact hdirectory
  obtain ⟨front, hnames, hfront⟩ : ∃ front, pathNames (join directory name) = front ++ [name] ∧
      walk [] root front = .ok (.directory entries) := by
    obtain hnames | ⟨front, htrailing, hnames⟩ := pathNames_join directory h
    · exact ⟨_, hnames, hwalk⟩
    · rw [htrailing] at hwalk
      exact ⟨front, hnames, walk_of_trailing hwalk⟩
  obtain ⟨above, hrest⟩ := exists_walk_append hfront
  have hself : ¬ (name = "" ∨ name = ".") := not_or.mpr ⟨h.nonempty, h.notSelf⟩
  rw [resolve, if_neg (join_ne_empty h), hnames, hrest, walk_of_not_special hself h.notParent]
  rfl

theorem WellNamed.child?_eq (h : WellNamed entries) {node : FileTree}
    (hmem : (name, node) ∈ entries) : child? name entries = some node :=
  congrArg (Option.map Prod.snd) ((Keyed.find?_eq_some_iff h.distinct).mpr ⟨hmem, rfl⟩)

theorem readText_join (hlist : root.list directory = .ok entries) (hnames : WellNamed entries)
    {bytes : ByteArray} (hmem : (name, .file bytes) ∈ entries) :
    root.readText (join directory name) = decode bytes := by
  rw [readText, resolve_join hlist (hnames.names _ hmem), hnames.child?_eq hmem]
  rfl

end Joining

section Extension

theorem extension?_of_not_mem (h : '.' ∉ name.toList) : extension? name = none := by
  rw [extension?, List.splitOn_eq_singleton h]
  rfl

theorem extension?_of_append {stem ext : List Char} (hname : name.toList = stem ++ '.' :: ext)
    (hext : '.' ∉ ext) :
    extension? name = if stem = [] then none else some (String.ofList ext) := by
  rw [extension?, hname, List.splitOn_append_cons_self, List.splitOn_eq_singleton hext,
    List.reverse_append, List.reverse_singleton, List.singleton_append]
  cases stem with
  | nil => rfl
  | cons c stem =>
      rw [if_neg (List.cons_ne_nil c stem)]
      have hjoined : ['.'].intercalate ((c :: stem).splitOn '.') = c :: stem :=
        List.intercalate_splitOn '.'
      cases hpieces : ((c :: stem).splitOn '.').reverse with
      | nil => exact absurd (List.reverse_eq_nil_iff.mp hpieces) (List.splitOn_ne_nil _ _)
      | cons piece pieces =>
          cases piece with
          | cons => rfl
          | nil =>
              cases pieces with
              | cons => rfl
              | nil =>
                  rw [← List.reverse_reverse ((c :: stem).splitOn '.'), hpieces] at hjoined
                  contradiction

theorem extension?_eq_some_iff {extension : String} (hplain : '.' ∉ extension.toList) :
    extension? name = some extension ↔ ∃ stem, stem ≠ "" ∧ name = stem ++ "." ++ extension := by
  constructor
  · intro h
    by_cases hdot : '.' ∈ name.toList
    · obtain ⟨back, front, hsplit, hback⟩ :=
        List.eq_append_cons_of_mem (List.mem_reverse.mpr hdot)
      have hname : name.toList = front.reverse ++ '.' :: back.reverse := by
        rw [← List.reverse_reverse name.toList, hsplit, List.reverse_append, List.reverse_cons,
          List.append_assoc]
        rfl
      rw [extension?_of_append hname (by rwa [List.mem_reverse])] at h
      split at h
      · contradiction
      · rename_i hstem
        refine ⟨String.ofList front.reverse, by simpa using hstem, ?_⟩
        rw [← Option.some.inj h, ← String.toList_inj, hname]
        simp
    · rw [extension?_of_not_mem hdot] at h
      contradiction
  · rintro ⟨stem, hstem, rfl⟩
    have hname : (stem ++ "." ++ extension).toList = stem.toList ++ '.' :: extension.toList := by
      simp
    rw [extension?_of_append hname hplain, if_neg (by simpa using hstem), String.ofList_toList]

end Extension

end FileTree

namespace Definition

variable {root : FileTree} {directory name : String} {entries : List (String × FileTree)}

theorem isDefinitionFile_iff {entry : String × FileTree} :
    isDefinitionFile entry = true ↔
      (∃ bytes, entry.2 = .file bytes) ∧ ∃ stem, stem ≠ "" ∧ entry.1 = stem ++ ".tm" := by
  have hnode : (!entry.2.isDirectory) = true ↔ ∃ bytes, entry.2 = .file bytes := by
    cases entry.2 <;> simp [FileTree.isDirectory]
  have hname : FileTree.extension? entry.1 = some fileExtension ↔
      ∃ stem, stem ≠ "" ∧ entry.1 = stem ++ "." ++ "tm" :=
    FileTree.extension?_eq_some_iff (by decide)
  rw [isDefinitionFile, Bool.and_eq_true, beq_iff_eq, hnode, hname]
  simp only [String.append_assoc]
  rfl

/-- A result for the definition file at a path. -/
structure IsResultFor (root : FileTree) (path : String)
    (result : Except Error (String × Definition)) : Prop where
  ok_iff : ∀ path' d, result = .ok (path', d) ↔ path' = path ∧ load root path = .ok d
  error_iff : ∀ e, result = .error e ↔
    ∃ cause, load root path = .error cause ∧ e = .unloadableEntry path cause
  message : ∀ e, result = .error e → ∃ cause, load root path = .error cause ∧
    e.message = "File error: Failed to load definition from " ++ path ++ ": " ++ cause.message

theorem isResultFor_of_ok {path : String} {d : Definition} (hload : load root path = .ok d) :
    IsResultFor root path (.ok (path, d)) where
  ok_iff path' d' := by
    rw [hload, Except.ok.injEq, Except.ok.injEq, Prod.mk.injEq, eq_comm (a := path)]
  error_iff e := by
    rw [hload]
    constructor
    · intro he
      contradiction
    · rintro ⟨cause, hcause, -⟩
      contradiction
  message e he := by contradiction

theorem isResultFor_of_error {path : String} {cause : Error}
    (hload : load root path = .error cause) :
    IsResultFor root path (.error (.unloadableEntry path cause)) where
  ok_iff path' d := by
    rw [hload]
    constructor
    · intro hd
      contradiction
    · rintro ⟨-, hd⟩
      contradiction
  error_iff e := by
    simp only [hload, Except.error.injEq, exists_eq_left']
    exact eq_comm
  message e he := by
    obtain rfl := Except.error.inj he
    exact ⟨cause, hload, rfl⟩

theorem isResultFor_loadEntry (root : FileTree) (path : String) :
    IsResultFor root path (loadEntry root path) := by
  unfold loadEntry
  cases hload : load root path with
  | ok d => exact isResultFor_of_ok hload
  | error cause => exact isResultFor_of_error hload

theorem loadDirectory_of_list (hlist : root.list directory = .ok entries) :
    loadDirectory root directory = loadEntries root directory entries := by
  have hholds : root.holds directory = true := by
    rw [FileTree.holds, FileTree.resolve_of_list hlist]
    rfl
  rw [loadDirectory, if_pos hholds, hlist]

theorem load_join (hlist : root.list directory = .ok entries)
    (hnames : FileTree.WellNamed entries) {bytes : ByteArray}
    (hmem : (name, .file bytes) ∈ entries) :
    load root (FileTree.join directory name) =
      ofFile (FileTree.join directory name) (FileTree.decode bytes) :=
  congrArg (ofFile _) (FileTree.readText_join hlist hnames hmem)

theorem loadDirectory_perm {root' : FileTree} {entries' : List (String × FileTree)}
    (hlist : root.list directory = .ok entries) (hlist' : root'.list directory = .ok entries')
    (hnames : FileTree.WellNamed entries) (hperm : entries'.Perm entries) :
    (loadDirectory root' directory).Perm (loadDirectory root directory) := by
  have hsame : ∀ entry ∈ entries'.filter isDefinitionFile,
      loadEntry root' (FileTree.join directory entry.1) =
        loadEntry root (FileTree.join directory entry.1) := by
    rintro ⟨name, node⟩ hentry
    obtain ⟨hmem', hfile⟩ := List.mem_filter.mp hentry
    obtain ⟨⟨bytes, rfl⟩, -⟩ := isDefinitionFile_iff.mp hfile
    have hmem := hperm.subset hmem'
    rw [loadEntry, loadEntry, load_join hlist hnames hmem,
      load_join hlist' (hnames.of_perm hperm) hmem']
  rw [loadDirectory_of_list hlist, loadDirectory_of_list hlist']
  calc
    _ = (entries'.filter isDefinitionFile).map fun entry =>
          loadEntry root (FileTree.join directory entry.1) := List.map_congr_left hsame
    List.Perm _ _ := loadEntries_perm root directory hperm

/-- Each definition file of a readable directory has one result, in the order in which the directory
lists them, and other entries have none. What a file gives depends on its own path and bytes, so
that the order of the listing does not matter. -/
theorem loadDirectory_yields_each_file (hlist : root.list directory = .ok entries) :
    (∀ entry : String × FileTree, isDefinitionFile entry = true ↔
      (∃ bytes, entry.2 = .file bytes) ∧ ∃ stem, stem ≠ "" ∧ entry.1 = stem ++ ".tm") ∧
    List.Forall₂ (fun entry result => IsResultFor root (FileTree.join directory entry.1) result)
      (entries.filter isDefinitionFile) (loadDirectory root directory) ∧
    (FileTree.WellNamed entries →
      (∀ name bytes, (name, .file bytes) ∈ entries →
        load root (FileTree.join directory name) =
          ofFile (FileTree.join directory name) (FileTree.decode bytes)) ∧
      ∀ root' entries', FileTree.list root' directory = .ok entries' → entries'.Perm entries →
        (loadDirectory root' directory).Perm (loadDirectory root directory)) := by
  refine ⟨fun _ => isDefinitionFile_iff, ?_, fun hnames => ⟨?_, ?_⟩⟩
  · rw [loadDirectory_of_list hlist, loadEntries, List.forall₂_map_right_iff, List.forall₂_same]
    exact fun entry _ => isResultFor_loadEntry root (FileTree.join directory entry.1)
  · exact fun name bytes hmem => load_join hlist hnames hmem
  · exact fun root' entries' hlist' hperm => loadDirectory_perm hlist hlist' hnames hperm

/-- A definition of a machine that never stops on zeros. -/
def rightward : String :=
  "[CONFIG]\ninitial_state: a\n[TRANSITIONS]\na, 0 -> 0, R, a\n"

/-- A definition, a file whose name is no extension, a file that is no text and a directory. -/
def mixture : List (String × FileTree) :=
  [("a.tm", .file rightward.toUTF8), (".tm", .file rightward.toUTF8), ("b.tm", .file ⟨#[255]⟩),
    ("c.tm", .directory [])]

theorem mixture_yields_each_file :
    let root : FileTree := .directory [("d", .directory mixture)]
    let turned : FileTree := .directory [("d", .directory mixture.reverse)]
    root.list "d" = .ok mixture ∧ FileTree.WellNamed mixture ∧
      (∃ d, load root (FileTree.join "d" "a.tm") = .ok d ∧ d.program.initial = "a") ∧
      load root (FileTree.join "d" "b.tm") =
        .error (.unreadableFile (FileTree.join "d" "b.tm") .notText) ∧
      (loadDirectory root "d").length = 2 ∧
      (loadDirectory turned "d").Perm (loadDirectory root "d") := by
  intro root turned
  have hlist : root.list "d" = .ok mixture := rfl
  have hturned : turned.list "d" = .ok mixture.reverse := rfl
  have hnames : FileTree.WellNamed mixture := by
    constructor
    · intro entry hentry
      simp only [mixture, List.mem_cons, List.not_mem_nil, or_false] at hentry
      rcases hentry with rfl | rfl | rfl | rfl <;>
        exact ⟨by decide, by decide, by decide, by decide⟩
    · decide
  have hread : (parse .normal rightward).toOption.map (·.program.initial) = some "a" := by
    decide +kernel
  obtain ⟨d, hd, hinitial⟩ := exists_ok_of_map_eq_some hread
  obtain ⟨-, hresults, hfiles⟩ := loadDirectory_yields_each_file hlist
  obtain ⟨hload, hperm⟩ := hfiles hnames
  refine ⟨hlist, hnames, ⟨d, ?_, hinitial⟩, ?_, ?_, ?_⟩
  · rw [hload "a.tm" rightward.toUTF8 (by simp [mixture]), FileTree.decode_toUTF8]
    exact hd
  · exact (hload "b.tm" ⟨#[255]⟩ (by simp [mixture])).trans rfl
  · rw [← hresults.length_eq]
    decide
  · exact hperm turned mixture.reverse hturned (List.reverse_perm mixture)

end Definition

end TapeMachine
