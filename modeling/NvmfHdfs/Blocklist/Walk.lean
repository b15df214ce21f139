/-
  The directory walk of `readhdfs.cpp`: a stack of directories, each of which
  gives way to its sub-directories while its files are collected.

  What `hdfsListDirectory` returns is a parameter; `Lists` says that it lists a
  directory tree, the children of a directory in any order.

    - `walkLoop_eq_run`: the loop is a work list;
    - `grows_subdirs`: the sub-directories of a directory grow to the files
      below them;
    - `walk_files`, `walk_collects`: the walk ends and has collected every file once.
-/
import NvmfHdfs.Lib.Worklist

namespace Blocklist

/-! ## The functions -/

/-- `tObjectKind`. -/
inductive ObjectKind where
  | kObjectKindFile
  | kObjectKindDirectory
deriving DecidableEq, Repr

/-- `hdfsFileInfo`, the fields that are looked at. -/
structure HdfsFileInfo where
  mKind : ObjectKind
  mName : List Char
deriving DecidableEq, Repr

/-- The loop over the entries of a listing: `dirs` and `files` after it. -/
def sortInfos : List HdfsFileInfo → List (List Char) → List (List Char) →
    List (List Char) × List (List Char)
  | [], dirs, files => (dirs, files)
  | theinfo :: infos, dirs, files =>
    if theinfo.mKind = .kObjectKindFile then sortInfos infos dirs (files ++ [theinfo.mName])
    else sortInfos infos (dirs ++ [theinfo.mName]) files

/-- `while (dirs.size() != 0)`, in at most `k` turns, where `hdfsListDirectory` returns `ls`. -/
def walkLoop (ls : List Char → List HdfsFileInfo) :
    ℕ → List (List Char) → List (List Char) → Option (List (List Char))
  | 0, _, _ => none
  | k + 1, dirs, files =>
    match dirs.getLast? with
    | none => some files
    | some tpath =>
      let (dirs, files) := sortInfos (ls tpath) dirs.dropLast files
      walkLoop ls k dirs files

/-- The walk from `path`: what is in `files` after it. -/
def walk (ls : List Char → List HdfsFileInfo) (path : List Char) (k : ℕ) :
    Option (List (List Char)) :=
  walkLoop ls k [path] []

/-! ## Directory trees -/

/-- What is in a directory: files and sub-directories, by their full paths. -/
inductive Content where
  | nil
  | file (path : List Char) (rest : Content)
  | dir (path : List Char) (content rest : Content)

namespace Content

/-- The entries of a directory. -/
def infos : Content → List HdfsFileInfo
  | nil => []
  | file path rest => ⟨.kObjectKindFile, path⟩ :: rest.infos
  | dir path _ rest => ⟨.kObjectKindDirectory, path⟩ :: rest.infos

/-- The files below a directory. -/
def files : Content → List (List Char)
  | nil => []
  | file path rest => path :: rest.files
  | dir _ content rest => content.files ++ rest.files

/-- The files below its sub-directories. -/
def deepFiles : Content → List (List Char)
  | nil => []
  | file _ rest => rest.deepFiles
  | dir _ content rest => content.files ++ rest.deepFiles

/-- The number of directories below it. -/
def dirs : Content → ℕ
  | nil => 0
  | file _ rest => rest.dirs
  | dir _ content rest => content.dirs + 1 + rest.dirs

/-- All paths below it. -/
def paths : Content → List (List Char)
  | nil => []
  | file path rest => path :: rest.paths
  | dir path content rest => path :: (content.paths ++ rest.paths)

/-- The sub-directories are listed as they are, in any order, and so are those below them. -/
def Lists (ls : List Char → List HdfsFileInfo) : Content → Prop
  | nil => True
  | file _ rest => rest.Lists ls
  | dir path content rest => (ls path).Perm content.infos ∧ content.Lists ls ∧ rest.Lists ls

theorem files_sublist (c : Content) : c.files.Sublist c.paths := by
  induction c with
  | nil => exact .slnil
  | file path rest ih => exact ih.cons_cons path
  | dir path content rest ih ih' => exact (ih.append ih').cons path

end Content

/-- A directory with what is in it; different files and directories have different paths. -/
structure Directory where
  path : List Char
  content : Content
  nodup : content.paths.Nodup

/-- `hdfsListDirectory` lists the tree below a directory. -/
def Directory.Lists (ls : List Char → List HdfsFileInfo) (d : Directory) : Prop :=
  (ls d.path).Perm d.content.infos ∧ d.content.Lists ls

/-! ## The walk as a work list -/

/-- The sub-directories and the files of a listing. -/
def partInfos (infos : List HdfsFileInfo) : List (List Char) × List (List Char) :=
  ((infos.filter (·.mKind ≠ .kObjectKindFile)).map (·.mName),
    (infos.filter (·.mKind = .kObjectKindFile)).map (·.mName))

/-- One step of the walk: a directory gives way to its sub-directories and yields its files. -/
def walkStep (ls : List Char → List HdfsFileInfo) (path : List Char) :
    List (List Char) × List (List Char) :=
  partInfos (ls path)

variable {ls : List Char → List HdfsFileInfo} {k : ℕ} {dirs files : List (List Char)}

theorem sortInfos_eq (infos : List HdfsFileInfo) :
    sortInfos infos dirs files = (dirs ++ (partInfos infos).1, files ++ (partInfos infos).2) := by
  induction infos generalizing dirs files with
  | nil => simp [sortInfos, partInfos]
  | cons theinfo infos ih =>
    rw [sortInfos]
    split_ifs with hkind
    · rw [ih]; simp [partInfos, hkind]
    · rw [ih]; simp [partInfos, hkind]

theorem walkLoop_eq_run : walkLoop ls k dirs files = Worklist.run (walkStep ls) k dirs files := by
  induction k generalizing dirs files with
  | zero => rfl
  | succ k ih =>
    rw [walkLoop, Worklist.run]
    cases dirs.getLast? with
    | none => rfl
    | some tpath =>
      dsimp only
      rw [sortInfos_eq, ih, walkStep]

theorem partInfos_perm {infos infos' : List HdfsFileInfo} (h : infos.Perm infos') :
    (partInfos infos).1.Perm (partInfos infos').1 ∧ (partInfos infos).2.Perm (partInfos infos').2 :=
  ⟨(h.filter _).map _, (h.filter _).map _⟩

/-- The files below a directory are its own and those below its sub-directories. -/
theorem files_perm (c : Content) : c.files.Perm ((partInfos c.infos).2 ++ c.deepFiles) := by
  induction c with
  | nil => exact .nil
  | file path rest ih => simpa [Content.files, Content.infos, Content.deepFiles, partInfos] using ih
  | dir path content rest _ ih =>
    have hrest := ih.append_left content.files
    have hswap := List.perm_append_comm_assoc content.files (partInfos rest.infos).2 rest.deepFiles
    simpa [Content.files, Content.infos, Content.deepFiles, partInfos] using hrest.trans hswap

/-- The sub-directories of a directory grow to the files below them. -/
theorem grows_subdirs {c : Content} (h : c.Lists ls) :
    Worklist.Grows (walkStep ls) (partInfos c.infos).1 c.dirs c.deepFiles := by
  induction c with
  | nil => exact .nil
  | file path rest ih => exact ih h
  | dir path content rest ihc ihr =>
    obtain ⟨hperm, hc, hr⟩ := h
    obtain ⟨hdirs, hfiles⟩ := partInfos_perm hperm
    have hgrow : Worklist.Grows (walkStep ls) (path :: (partInfos rest.infos).1)
        (content.dirs + 1 + rest.dirs)
        (↑(walkStep ls path).2 + ↑content.deepFiles + ↑rest.deepFiles) :=
      .cons ((ihc hc).perm hdirs.symm) (ihr hr)
    have hout : (↑(walkStep ls path).2 + ↑content.deepFiles + ↑rest.deepFiles :
        Multiset (List Char)) = ↑(content.files ++ rest.deepFiles) := by
      rw [Multiset.coe_add, Multiset.coe_add, Multiset.coe_eq_coe]
      exact ((hfiles.append_right _).trans (files_perm content).symm).append_right _
    rw [hout] at hgrow
    exact hgrow

/-- The walk from a directory ends with the files below it, in some order. -/
theorem walk_files {d : Directory} (h : d.Lists ls) : ∃ files, files.Perm d.content.files ∧
    ∀ k, d.content.dirs + 2 ≤ k → walk ls d.path k = some files := by
  obtain ⟨hdirs, hfiles⟩ := partInfos_perm h.1
  have hroot : Worklist.Grows (walkStep ls) [d.path] (d.content.dirs + 1 + 0)
      (↑(walkStep ls d.path).2 + ↑d.content.deepFiles + 0) :=
    .cons ((grows_subdirs h.2).perm hdirs.symm) .nil
  obtain ⟨files, hrun, hres⟩ : ∃ files,
      Worklist.run (walkStep ls) (d.content.dirs + 2) [d.path] [] = some files ∧
      (files : Multiset (List Char)) = _ := Worklist.run_eq hroot (Nat.lt_succ_self _)
  refine ⟨files, ?_, fun k hk => ?_⟩
  · refine .trans ?_ (files_perm d.content).symm
    rw [← Multiset.coe_eq_coe, hres]
    simp only [Multiset.coe_nil, zero_add, add_zero, Multiset.coe_add, Multiset.coe_eq_coe]
    exact hfiles.append_right _
  · rw [walk, walkLoop_eq_run]
    exact Worklist.run_mono hrun hk

/-- **The directory walk** ends, and has collected the path of every file below the root exactly
    once and nothing else. -/
theorem walk_collects (d : Directory) (h : d.Lists ls) : ∃ files,
    (∀ k, d.content.dirs + 2 ≤ k → walk ls d.path k = some files) ∧
      files.Perm d.content.files ∧ files.Nodup := by
  obtain ⟨files, hperm, hwalk⟩ := walk_files h
  exact ⟨files, hwalk, hperm, hperm.nodup_iff.2 (d.nodup.sublist d.content.files_sublist)⟩

/-- A root with a file, and a sub-directory with a file and an empty directory. -/
def sampleTree : Directory where
  path := ['/']
  content := .file ['/', 'a'] <| .dir ['/', 'd']
    (.file ['/', 'd', 'b'] <| .dir ['/', 'd', 'e'] .nil .nil) .nil
  nodup := by decide

/-- Listings of it, the children of the root the other way round. -/
def sampleInfos (path : List Char) : List HdfsFileInfo :=
  if path = ['/'] then [⟨.kObjectKindDirectory, ['/', 'd']⟩, ⟨.kObjectKindFile, ['/', 'a']⟩]
  else if path = ['/', 'd'] then
    [⟨.kObjectKindFile, ['/', 'd', 'b']⟩, ⟨.kObjectKindDirectory, ['/', 'd', 'e']⟩]
  else []

theorem walk_collects_sample : ∃ files,
    (∀ k, 4 ≤ k → walk sampleInfos ['/'] k = some files) ∧
      files.Perm [['/', 'a'], ['/', 'd', 'b']] ∧ files.Nodup :=
  walk_collects sampleTree ⟨by decide, by decide, ⟨by decide, trivial, trivial⟩, trivial⟩

end Blocklist
