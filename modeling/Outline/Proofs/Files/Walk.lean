import Outline.Analyzer
import Outline.Files.Walk
import Outline.Proofs.Extraction.Lookup
import Outline.Proofs.Files.Path

/-!
# The files that a walk meets, and those that an analysis looks at

A walk through a tree without links meets every file once, except those that a hidden or
foreign directory keeps from it.  The directory where the walk starts keeps nothing: its
name is never looked at.
-/

namespace Outline

namespace Tree

/-- Trees without links, where the entries of each directory have different names. -/
inductive Plain : Tree → Prop
  | file (bytes : List UInt8) : Plain (.file bytes)
  | directory {entries : List (List Char × Tree)}
      (distinct : (entries.map (·.1)).Nodup)
      (names : ∀ entry ∈ entries, Path.IsName entry.1)
      (plain : ∀ entry ∈ entries, Plain entry.2) : Plain (.directory entries)

theorem plain_directory_iff {entries : List (List Char × Tree)} :
    Plain (.directory entries) ↔
      (entries.map (·.1)).Nodup ∧ (∀ entry ∈ entries, Path.IsName entry.1) ∧
        ∀ entry ∈ entries, Plain entry.2 := by
  constructor
  · rintro (_ | ⟨distinct, names, plain⟩)
    exact ⟨distinct, names, plain⟩
  · rintro ⟨distinct, names, plain⟩
    exact .directory distinct names plain

/-- Names that lead to a file of a tree. -/
inductive HoldsFile : Tree → List (List Char) → Prop
  | here (bytes : List UInt8) : HoldsFile (.file bytes) []
  | inside {entries : List (List Char × Tree)} {name : List Char} {tree : Tree}
      {names : List (List Char)} (entry : (name, tree) ∈ entries) (file : HoldsFile tree names) :
      HoldsFile (.directory entries) (name :: names)

theorem holdsFile_directory_iff {entries : List (List Char × Tree)} {names : List (List Char)} :
    HoldsFile (.directory entries) names ↔
      ∃ entry ∈ entries, ∃ rest, HoldsFile entry.2 rest ∧ names = entry.1 :: rest := by
  constructor
  · rintro (_ | ⟨entry, file⟩)
    exact ⟨_, entry, _, file, rfl⟩
  · rintro ⟨entry, hentry, rest, hfile, rfl⟩
    exact .inside hentry hfile

theorem holdsFile_single_iff {name : List Char} {tree : Tree} {names : List (List Char)} :
    HoldsFile (.directory [(name, tree)]) names ↔
      ∃ rest, HoldsFile tree rest ∧ names = name :: rest := by
  rw [holdsFile_directory_iff]
  simp

theorem Plain.isName {tree : Tree} (h : tree.Plain) {names : List (List Char)}
    (hfile : tree.HoldsFile names) : ∀ step ∈ names, Path.IsName step := by
  induction hfile with
  | here => simp
  | inside hentry hfile ih =>
    obtain ⟨-, hnames, hplain⟩ := plain_directory_iff.mp h
    intro step hstep
    rcases List.mem_cons.mp hstep with rfl | hstep
    · exact hnames _ hentry
    · exact ih (hplain _ hentry) step hstep

end Tree

namespace Walk

theorem isSkipped_eq_false_iff {name : List Char} :
    isSkipped name = false ↔ name.head? ≠ some '.' ∧ String.ofList name ∉ foreignNames := by
  simp [isSkipped]

/-- A list of the files at or below a path, each once, except those in skipped
directories. -/
structure Lists (tree : Tree) (path : List Char) (found : List (List Char)) : Prop where
  nodup : found.Nodup
  mem_iff : ∀ file, file ∈ found ↔
    ∃ names, tree.HoldsFile names ∧ (∀ step ∈ names.dropLast, isSkipped step = false) ∧
      file = Path.below path names

section

variable {path name : List Char} {entries : List (List Char × Tree)} {found : List (List Char)}

theorem Lists.file (bytes : List UInt8) : Lists (.file bytes) path [path] := by
  refine ⟨by simp, fun file => ?_⟩
  rw [List.mem_singleton]
  constructor
  · rintro rfl
    exact ⟨[], .here bytes, by simp, rfl⟩
  · rintro ⟨_, ⟨⟩, -, rfl⟩
    rfl

/-- An entry lists what is at or below it.  Only the name of a directory can keep files from
the list. -/
theorem Lists.enter {tree : Tree} (h : Lists tree (Path.child path name) found)
    (hname : ∀ names, tree.HoldsFile names → names ≠ [] → isSkipped name = false) :
    Lists (.directory [(name, tree)]) path found := by
  refine ⟨h.nodup, fun file => ?_⟩
  rw [h.mem_iff]
  constructor
  · rintro ⟨names, hfile, hsteps, rfl⟩
    refine ⟨name :: names, Tree.holdsFile_single_iff.mpr ⟨names, hfile, rfl⟩, ?_, rfl⟩
    cases names with
    | nil => simp
    | cons next names =>
      intro step hstep
      rcases List.mem_cons.mp hstep with rfl | hstep
      · exact hname _ hfile (List.cons_ne_nil _ _)
      · exact hsteps step hstep
  · rintro ⟨names, hfile, hsteps, rfl⟩
    obtain ⟨rest, hrest, rfl⟩ := Tree.holdsFile_single_iff.mp hfile
    refine ⟨rest, hrest, fun step hstep => hsteps step ?_, rfl⟩
    cases rest with
    | nil => exact hstep
    | cons next rest => exact List.mem_cons_of_mem _ hstep

/-- A skipped directory lists nothing: it is on the way to all of its files. -/
theorem Lists.skip (hname : isSkipped name = true) :
    Lists (.directory [(name, .directory entries)]) path [] := by
  refine ⟨List.nodup_nil, fun file => ⟨fun h => absurd h List.not_mem_nil, ?_⟩⟩
  rintro ⟨names, hfile, hsteps, -⟩
  obtain ⟨rest, hrest, rfl⟩ := Tree.holdsFile_single_iff.mp hfile
  obtain ⟨entry, -, rest, -, rfl⟩ := Tree.holdsFile_directory_iff.mp hrest
  have hfree := hsteps name (by simp)
  rw [hname] at hfree
  cases hfree

theorem Lists.nil : Lists (.directory []) path [] := by
  refine ⟨List.nodup_nil, fun file => ⟨fun h => absurd h List.not_mem_nil, ?_⟩⟩
  rintro ⟨names, hfile, -⟩
  obtain ⟨entry, hentry, -⟩ := Tree.holdsFile_directory_iff.mp hfile
  exact absurd hentry List.not_mem_nil

/-- Entries of different names share no files. -/
theorem Lists.cons {entry : List Char × Tree} {others : List (List Char)}
    (hplain : Tree.Plain (.directory (entry :: entries)))
    (hentry : Lists (.directory [entry]) path found)
    (hothers : Lists (.directory entries) path others) :
    Lists (.directory (entry :: entries)) path (found ++ others) := by
  have hhead : ∀ {names}, Tree.HoldsFile (.directory [entry]) names →
      Tree.HoldsFile (.directory (entry :: entries)) names := fun h => by
    obtain ⟨rest, hfile, rfl⟩ := Tree.holdsFile_single_iff.mp h
    exact .inside List.mem_cons_self hfile
  have htail : ∀ {names}, Tree.HoldsFile (.directory entries) names →
      Tree.HoldsFile (.directory (entry :: entries)) names := fun h => by
    obtain ⟨other, hother, rest, hfile, rfl⟩ := Tree.holdsFile_directory_iff.mp h
    exact .inside (List.mem_cons_of_mem _ hother) hfile
  constructor
  · refine List.nodup_append.mpr ⟨hentry.nodup, hothers.nodup, ?_⟩
    rintro a ha b hb rfl
    obtain ⟨names, hnames, -, rfl⟩ := (hentry.mem_iff a).mp ha
    obtain ⟨names', hnames', -, heq⟩ := (hothers.mem_iff _).mp hb
    have hsame := Path.below_injective (hplain.isName (hhead hnames))
      (hplain.isName (htail hnames')) heq
    obtain ⟨rest, -, rfl⟩ := Tree.holdsFile_single_iff.mp hnames
    obtain ⟨other, hother, rest', -, rfl⟩ := Tree.holdsFile_directory_iff.mp hnames'
    have hdistinct := (Tree.plain_directory_iff.mp hplain).1
    rw [List.map_cons, List.nodup_cons] at hdistinct
    exact hdistinct.1 ((List.cons.inj hsame).1 ▸ List.mem_map_of_mem hother)
  · intro file
    rw [List.mem_append, hentry.mem_iff, hothers.mem_iff]
    constructor
    · rintro (⟨names, hfile, hrest⟩ | ⟨names, hfile, hrest⟩)
      · exact ⟨names, hhead hfile, hrest⟩
      · exact ⟨names, htail hfile, hrest⟩
    · rintro ⟨names, hfile, hrest⟩
      obtain ⟨other, hother, rest, hbelow, rfl⟩ := Tree.holdsFile_directory_iff.mp hfile
      rcases List.mem_cons.mp hother with rfl | hother
      · exact .inl ⟨_, Tree.holdsFile_single_iff.mpr ⟨rest, hbelow, rfl⟩, hrest⟩
      · exact .inr ⟨_, .inside hother hbelow, hrest⟩

end

section

variable {jump : Jump} {working : Place}

variable (jump working) in
/-- Where each entry is listed, so is the directory. -/
theorem exists_filesIn {trail : List Visited} {here : Visited} {entries : List (List Char × Tree)}
    (hplain : Tree.Plain (.directory entries))
    (hof : ∀ entry ∈ entries, ∃ found, filesOf jump working trail here entry.1 entry.2 = .ok found ∧
      Lists (.directory [entry]) here.path found) :
    ∃ found, filesIn jump working trail here entries = .ok found ∧
      Lists (.directory entries) here.path found := by
  induction entries with
  | nil => exact ⟨[], by rw [filesIn], .nil⟩
  | cons entry entries ih =>
    obtain ⟨found, hfound, hlists⟩ := hof entry List.mem_cons_self
    have hrest : Tree.Plain (.directory entries) := by
      obtain ⟨hdistinct, hnames, hplain⟩ := Tree.plain_directory_iff.mp hplain
      exact .directory (List.nodup_cons.mp hdistinct).2
        (fun other ho => hnames other (List.mem_cons_of_mem _ ho))
        fun other ho => hplain other (List.mem_cons_of_mem _ ho)
    obtain ⟨others, hothers, hlists'⟩ := ih hrest fun other ho => hof other (List.mem_cons_of_mem _ ho)
    refine ⟨found ++ others, ?_, hlists.cons hplain hlists'⟩
    rw [filesIn, hfound, hothers]
    rfl

/-- An entry of a tree without links is walked to the end. -/
theorem exists_filesOf {tree : Tree} (h : tree.Plain) (trail : List Visited) (here : Visited)
    (name : List Char) :
    ∃ found, filesOf jump working trail here name tree = .ok found ∧
      Lists (.directory [(name, tree)]) here.path found := by
  induction h generalizing trail here name with
  | file bytes =>
    refine ⟨[Path.child here.path name], by rw [filesOf], (Lists.file bytes).enter ?_⟩
    rintro _ ⟨⟩ hne
    exact absurd rfl hne
  | @directory entries hdistinct hnames hplain ih =>
    rw [filesOf]
    by_cases hname : isSkipped name = true
    · exact ⟨[], by rw [if_pos hname], .skip hname⟩
    · rw [if_neg hname]
      obtain ⟨found, hfound, hlists⟩ := exists_filesIn jump working
        (.directory hdistinct hnames hplain) fun entry hentry => ih entry hentry _ _ entry.1
      exact ⟨found, hfound, hlists.enter fun _ _ _ => Bool.eq_false_iff.mpr hname⟩

end

/-- A walk through a tree without links meets every file once that no skipped directory
hides. -/
theorem exists_files {working place : Place} {root : List Char}
    (hfollow : working.follow root = .ok place) (hplain : place.tree.Plain) :
    ∃ found, files working root = .ok found ∧ Lists place.tree root found := by
  obtain ⟨tree, above⟩ := place
  rw [files, hfollow]
  cases hplain with
  | file bytes => exact ⟨[root], rfl, .file bytes⟩
  | directory hdistinct hnames hplain =>
    exact exists_filesIn _ _ (.directory hdistinct hnames hplain) fun entry hentry =>
      exists_filesOf (hplain entry hentry) _ _ entry.1

end Walk
end Outline

/-!
## The files that an analysis looks at

Of the files that a walk meets, those are looked at that have an enabled extractor and match
no excluded pattern.  They are sorted by their paths.
-/

namespace Outline
namespace Analyzer

/-- The extractor for the extension of a path, after some registrations. -/
theorem forPath_ofList_eq_ok_iff {extractors : List Extractor} {path : List Char}
    {extractor : Extractor} :
    (Registry.ofList extractors).forPath path = .ok extractor ↔
      Registry.IsLatest (·.handles ((Path.extension? path).getD [])) extractors extractor := by
  rw [Registry.forPath, Registry.forExtension_ofList_eq_ok_iff, Path.extension?_dropWhile]

theorem accepts_iff {analyzer : Analyzer} {path : List Char} :
    analyzer.accepts path = true ↔
      (∃ extractor, analyzer.registry.forPath path = .ok extractor ∧
        (analyzer.config.languages = [] ∨ extractor.id ∈ analyzer.config.languages)) ∧
      ∀ pattern ∈ analyzer.config.excludedPaths, Config.patternMatches pattern path = false := by
  rw [accepts]
  cases analyzer.registry.forPath path with
  | error cause => simp
  | ok extractor => simp [Config.enables, Config.excludes]

/-- Sorting what is accepted keeps every file once. -/
theorem collect_of_lists (analyzer : Analyzer) {root : List Char} {tree : Tree}
    {found : List (List Char)} (hfiles : Walk.files analyzer.working root = .ok found)
    (hlists : Walk.Lists tree root found) :
    ∃ paths, analyzer.collect root = .ok paths ∧ paths.Nodup ∧
      paths.Pairwise (fun a b => Path.isAtMost a b = true) ∧
      ∀ path, path ∈ paths ↔ path ∈ found ∧ analyzer.accepts path = true := by
  refine ⟨(found.filter analyzer.accepts).mergeSort Path.isAtMost, by rw [collect, hfiles]; rfl,
    ?_, List.pairwise_mergeSort Path.isAtMost_trans Path.isAtMost_total _, fun path => ?_⟩
  · exact (List.mergeSort_perm _ _).nodup_iff.mpr (hlists.nodup.filter _)
  · rw [List.mem_mergeSort, List.mem_filter]

/-- In a tree without links the files to look at are listed once and in order: those with no
hidden or foreign directory on the way from the root, which itself may have any name, whose
extension leads to an enabled extractor, and whose path matches no excluded pattern. -/
theorem collect_lists_eligible (extractors : List Extractor) (config : Config)
    {working place : Place} {root : List Char} (hfollow : working.follow root = .ok place)
    (hplain : place.tree.Plain) :
    ∃ paths, collect ⟨.ofList extractors, config, working⟩ root = .ok paths ∧ paths.Nodup ∧
      paths.Pairwise (fun a b => Path.isAtMost a b = true) ∧
      ∀ path, path ∈ paths ↔
        (∃ names, place.tree.HoldsFile names ∧ path = Path.below root names ∧
          ∀ directory ∈ names.dropLast,
            directory.head? ≠ some '.' ∧ String.ofList directory ∉ Walk.foreignNames) ∧
        (∃ extractor,
          Registry.IsLatest (·.handles ((Path.extension? path).getD [])) extractors extractor ∧
            (config.languages = [] ∨ extractor.id ∈ config.languages)) ∧
        ∀ pattern ∈ config.excludedPaths, Config.patternMatches pattern path = false := by
  obtain ⟨found, hfiles, hlists⟩ := Walk.exists_files hfollow hplain
  obtain ⟨paths, hcollect, hnodup, hsorted, hmem⟩ :=
    collect_of_lists ⟨.ofList extractors, config, working⟩ hfiles hlists
  refine ⟨paths, hcollect, hnodup, hsorted, fun path => ?_⟩
  rw [hmem, hlists.mem_iff, accepts_iff]
  simp only [forPath_ofList_eq_ok_iff, Walk.isSkipped_eq_false_iff]
  constructor
  · rintro ⟨⟨names, hfile, hsteps, hpath⟩, haccepts⟩
    exact ⟨⟨names, hfile, hpath, hsteps⟩, haccepts⟩
  · rintro ⟨⟨names, hfile, hpath, hsteps⟩, haccepts⟩
    exact ⟨⟨names, hfile, hsteps, hpath⟩, haccepts⟩

/-- A working directory with a source file of its own, a hidden one and a foreign one. -/
def sampleWorking : Place :=
  ⟨.directory [("src".toList, .directory [("A.java".toList, .file [])]),
    (".git".toList, .directory [("B.java".toList, .file [])]),
    ("build".toList, .directory [("c.cpp".toList, .file [])])], []⟩

theorem plain_sampleWorking : sampleWorking.tree.Plain := by
  simp only [sampleWorking, Tree.plain_directory_iff, List.forall_mem_cons]
  refine ⟨by decide, by decide, ?_, ?_, ?_, by simp⟩
  all_goals exact ⟨by decide, by decide, .file [], by simp⟩

theorem collect_lists_eligible_sample :
    sampleWorking.follow ['.'] = .ok sampleWorking ∧ sampleWorking.tree.Plain ∧
      ∃ paths, collect ⟨.ofList [Registry.java, Registry.cpp], .standard, sampleWorking⟩ ['.'] =
        .ok paths ∧ "./src/A.java".toList ∈ paths ∧ "./build/c.cpp".toList ∉ paths := by
  have hfollow : sampleWorking.follow ['.'] = .ok sampleWorking := by rfl
  obtain ⟨paths, hcollect, -, -, hmem⟩ := collect_lists_eligible [Registry.java, Registry.cpp]
    .standard hfollow plain_sampleWorking
  refine ⟨hfollow, plain_sampleWorking, paths, hcollect, (hmem _).mpr ⟨?_, ?_, ?_⟩, fun hc => ?_⟩
  · exact ⟨["src".toList, "A.java".toList], .inside (.head _) (.inside (.head _) (.here [])),
      by decide, by decide⟩
  · exact ⟨Registry.java, ⟨[], [Registry.cpp], rfl, by decide, by decide⟩, .inl rfl⟩
  · simp [Config.standard]
  · obtain ⟨⟨names, hfile, hpath, hsteps⟩, -⟩ := (hmem _).mp hc
    have hbelow : Path.below ['.'] names = Path.below ['.'] ["build".toList, "c.cpp".toList] :=
      hpath.symm.trans (by decide)
    obtain rfl := Path.below_injective (plain_sampleWorking.isName hfile) (by decide) hbelow
    exact absurd (hsteps "build".toList (by simp)).2 (by decide)

end Analyzer
end Outline
