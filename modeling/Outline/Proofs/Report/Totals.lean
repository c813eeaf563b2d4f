import Mathlib.Algebra.BigOperators.Group.List.Basic
import Mathlib.Algebra.GroupWithZero.Nat
import Outline.Proofs.Entry.RoundTrip

/-!
# Totals add up

The totals of files are the sum of what each file counts, so they add up over lists of
files and do not depend on their order.  The exit code asks for errors file by file, and
comes to the same answer as the total of the errors.
-/

namespace Outline
namespace Totals

/-! ## Sums of totals -/

instance : Zero Totals := ⟨⟨0, 0, 0, 0, 0, 0⟩⟩

/-- Totals are added field by field. -/
instance : Add Totals :=
  ⟨fun a b => ⟨a.files + b.files, a.functions + b.functions, a.classes + b.classes,
    a.imports + b.imports, a.syntaxErrors + b.syntaxErrors, a.warnings + b.warnings⟩⟩

theorem add_def (a b : Totals) :
    a + b = ⟨a.files + b.files, a.functions + b.functions, a.classes + b.classes,
      a.imports + b.imports, a.syntaxErrors + b.syntaxErrors, a.warnings + b.warnings⟩ := rfl

theorem zero_def : (0 : Totals) = ⟨0, 0, 0, 0, 0, 0⟩ := rfl

instance : AddCommMonoid Totals where
  add_assoc a b c := by simp only [add_def, Nat.add_assoc]
  zero_add a := by simp only [add_def, zero_def, Nat.zero_add]
  add_zero a := by simp only [add_def, zero_def, Nat.add_zero]
  add_comm a b := by simp only [add_def, Nat.add_comm]
  nsmul := nsmulRec

/-- What one file counts. -/
def ofFile (file : FileSummary) : Totals :=
  { files := 1
    functions := file.summary.allFunctions.length
    classes := file.summary.classes.length
    imports := file.summary.imports.length
    syntaxErrors := file.summary.syntaxErrors.length
    warnings := file.summary.warnings.length }

theorem ofFiles_cons (file : FileSummary) (files : List FileSummary) :
    ofFiles (file :: files) = ofFile file + ofFiles files := by
  rw [add_def, ofFiles, ofFile, List.length_cons, Nat.add_comm files.length]
  rfl

theorem ofFiles_eq_sum (files : List FileSummary) : ofFiles files = (files.map ofFile).sum := by
  induction files with
  | nil => rfl
  | cons file files ih => rw [ofFiles_cons, ih, List.map_cons, List.sum_cons]

theorem ofFiles_append (files more : List FileSummary) :
    ofFiles (files ++ more) = ofFiles files + ofFiles more := by
  simp only [ofFiles_eq_sum, List.map_append, List.sum_append]

theorem ofFiles_of_perm {files more : List FileSummary} (h : files.Perm more) :
    ofFiles files = ofFiles more := by
  rw [ofFiles_eq_sum, ofFiles_eq_sum, (h.map ofFile).sum_eq]

/-! ## What is counted -/

theorem sumOver_eq_sum (files : List FileSummary) (count : Summary → Nat) :
    sumOver files count = (files.map fun file => count file.summary).sum := by
  induction files with
  | nil => rfl
  | cons file files ih => rw [List.map_cons, List.sum_cons, ← ih]; rfl

theorem length_allFunctions (summary : Summary) :
    summary.allFunctions.length =
      summary.functions.length + (summary.classes.map (·.methods.length)).sum := by
  rw [Summary.allFunctions, List.length_append, List.length_flatMap]

/-- A file has errors when it counts one, and the files have some when they count one together. -/
theorem any_hasErrors (files : List FileSummary) :
    files.any (·.summary.hasErrors) = decide (0 < (ofFiles files).syntaxErrors) := by
  have herrors : ∀ file : FileSummary,
      file.summary.hasErrors = decide (0 < file.summary.syntaxErrors.length) := by
    intro file
    cases h : file.summary.syntaxErrors <;> simp [Summary.hasErrors, h]
  induction files with
  | nil => rfl
  | cons file files ih =>
    rw [List.any_cons, herrors, ih, ofFiles_cons, Bool.eq_iff_iff, Bool.or_eq_true,
      decide_eq_true_eq, decide_eq_true_eq, decide_eq_true_eq]
    exact Nat.add_pos_iff_pos_or_pos.symm

/-- The totals that a report gives are read back as the totals of the files that are read with
them. -/
theorem of_ofJson?_toJson {path : String} {files : List FileSummary}
    (hfiles : ∀ file ∈ files, file.summary.InRange) (htotals : (ofFiles files).InRange) :
    ∃ report, Report.ofJson? (Report.ofFiles path files).toJson = some report ∧
      report.files = files ∧ report.totals = ofFiles report.files := by
  have hlist := Json.list?_ofList fun file hf => FileSummary.ofJson?_toJson (hfiles file hf)
  refine ⟨Report.ofFiles path files, ?_, rfl, rfl⟩
  simp [Report.toJson, Report.ofJson?, Report.ofFiles, Json.object?, Json.required, hlist,
    htotals.ofJson?_toJson]

/-- Totals add up over lists of files and do not depend on the order.  Functions are those at the
top level and the methods of all classes.  A run that is to fail on errors does so when the total
of the errors is positive, and a report gives the totals of the files it lists, also to one who
reads it back. -/
theorem add_up :
    (∀ files more, ofFiles (files ++ more) = ofFiles files + ofFiles more) ∧
    (∀ files more : List FileSummary, files.Perm more → ofFiles files = ofFiles more) ∧
    (∀ files, (ofFiles files).functions = (files.map fun file => file.summary.functions.length +
      (file.summary.classes.map (·.methods.length)).sum).sum) ∧
    (∀ files, exitCode files true = if 0 < (ofFiles files).syntaxErrors then 1 else 0) ∧
    (∀ files, exitCode files false = 0) ∧
    (∀ path files, (Report.ofFiles path files).files = files ∧
      (Report.ofFiles path files).totals = ofFiles (Report.ofFiles path files).files) ∧
    ∀ path files, (∀ file ∈ files, file.summary.InRange) → (ofFiles files).InRange →
      ∃ report, Report.ofJson? (Report.ofFiles path files).toJson = some report ∧
        report.files = files ∧ report.totals = ofFiles report.files := by
  refine ⟨ofFiles_append, fun _ _ => ofFiles_of_perm, fun files => ?_, fun files => ?_,
    fun _ => rfl, fun _ _ => ⟨rfl, rfl⟩, fun _ _ => of_ofJson?_toJson⟩
  · have hcount : (ofFiles files).functions = sumOver files (·.allFunctions.length) := rfl
    rw [hcount, sumOver_eq_sum]
    simp only [length_allFunctions]
  · rw [exitCode, any_hasErrors, Bool.true_and]
    simp only [decide_eq_true_eq]

/-- A file that could not be read and one with a method, in either order. -/
theorem add_up_method :
    ofFiles [⟨"a.java", .failure "java" "m"⟩, ⟨"b.cpp", { Summary.empty "cpp" with
        classes := [⟨"S", .struct, [⟨"f", [], some "int", 1, 3, 2, .ofList ["g"], true, false,
          false, false, "", ["testF"], none, none⟩], [], none, [], 1, 4, true, false, "", none⟩] }⟩] =
      ofFiles [⟨"b.cpp", { Summary.empty "cpp" with
        classes := [⟨"S", .struct, [⟨"f", [], some "int", 1, 3, 2, .ofList ["g"], true, false,
          false, false, "", ["testF"], none, none⟩], [], none, [], 1, 4, true, false, "", none⟩] }⟩,
        ⟨"a.java", .failure "java" "m"⟩] ∧
    ∃ report, Report.ofJson? (Report.ofFiles "src" [⟨"a.java", .failure "java" "m"⟩]).toJson =
        some report ∧
      report.files = [⟨"a.java", .failure "java" "m"⟩] ∧ report.totals = ofFiles report.files :=
  ⟨add_up.2.1 _ _ (.swap _ _ []), add_up.2.2.2.2.2.2 _ _ (by decide) (by decide)⟩

end Totals
end Outline
