import SiteAssembly.Proofs.Build.Printed
import SiteAssembly.Proofs.Command.Status

/-!
# The standard output of the command

A command that is asked for JSON prints the report of its build as one JSON
document, and a line break. The document gives the report back to whoever
reads it, so runs that end with different reports print different texts.
-/

namespace SiteAssembly.Command
open SiteAssembly.Json (read?)
open Build.Json (reportOf?)

deriving instance DecidableEq for Ended

theorem setUp_ok_of_report {host : Host} {fate : Fate} {a : Arguments} {t : Tree}
    {r : Build.Report} (h : endOf host fate a t = .report r) : (setUp host a t).2.2 = .ok () := by
  unfold endOf at h
  split at h
  · simp at h
  · assumption

theorem stdout_present_report {host : Host} {a : Arguments} (hjson : a.json = true)
    (log : Log.State) (t : Tree) (r : Build.Report) :
    (present .utf8 host a log t (.report r)).stdout = Build.Json.report r ++ "\n" := by
  have hprint : Encoding.utf8.print [Build.Json.report r ++ "\n"] =
      ([Build.Json.report r ++ "\n"].flatten, none) := Encoding.print_of_takes fun _ _ _ _ => rfl
  simp only [present, printed, hjson, if_true, conclude, finish, hprint]
  exact List.flatten_singleton

/-- Every report is read back from its document, and no other report has the same document. A run
that is asked for JSON and ends with a report prints its document and a line break. -/
theorem json_output_lossless (r : Build.Report) :
    (read? (Build.Json.report r)).bind reportOf? = some r ∧
      (∀ r', Build.Json.report r' = Build.Json.report r → r' = r) ∧
      ∀ (host : Host) (fate : Fate) (arguments : List Text) (a : Arguments) (t : Tree),
        parse arguments = .ok a → a.json = true → endOf host fate a t = .report r →
          (run host fate arguments t).stdout = Build.Json.report r ++ "\n" := by
  refine ⟨Build.Json.reportOf?_report r, fun r' hsame => ?_, ?_⟩
  · have hread := Build.Json.reportOf?_report r'
    rw [hsame, Build.Json.reportOf?_report r] at hread
    exact (Option.some.inj hread).symm
  · intro host fate arguments a t hparse hjson hend
    obtain ⟨log, t', hrun⟩ := exists_present .utf8 fate (setUp_ok_of_report hend)
    rw [hend] at hrun
    simp only [run, runOn, hparse]
    rw [hrun, stdout_present_report hjson]

/-- Names with quotes, a line break, a tab, a control and a character beyond the basic plane, and a
reference with a backslash. -/
def quotedTree : Tree := ⟨[
  (["src"], .directory),
  (["say \"hi\"\n.html", "src"],
    .file (Utf8.encode "<el-component src=\"a\\b\"></el-component>")),
  (["😀.css", "src"], .file []),
  (["tab\t\x01.css", "src"], .link "missing")]⟩

def quotedReport : Build.Report :=
  .success "/" "/src" "/build" ["say \"hi\"\n.html"] ["😀.css"] [
    ⟨DiagnosticKind.read, "el-components/a\\b.html",
      "Failed to read 'el-components/a\\b.html': " ++
        "[Errno 2] No such file or directory: '/src/el-components/a\\\\b.html'"⟩,
    ⟨DiagnosticKind.copy, "tab\t\x01.css",
      "Failed to copy 'tab\t\x01.css': " ++
        "[Errno 2] No such file or directory: '/src/tab\\t\\x01.css'"⟩]

theorem json_output_lossless_quoted :
    parse ["--json", "/"] = .ok ⟨"/", false, true, .notGiven⟩ ∧
      endOf sampleHost .carriedOut ⟨"/", false, true, .notGiven⟩ quotedTree =
        .report quotedReport ∧
      (run sampleHost .carriedOut ["--json", "/"] quotedTree).stdout =
        Build.Json.report quotedReport ++ "\n" ∧
      (read? (Build.Json.report quotedReport)).bind reportOf? = some quotedReport := by
  have hparse : parse ["--json", "/"] = .ok ⟨"/", false, true, .notGiven⟩ := by decide +kernel
  have hend : endOf sampleHost .carriedOut ⟨"/", false, true, .notGiven⟩ quotedTree =
      .report quotedReport := by decide +kernel
  obtain ⟨hread, -, hprint⟩ := json_output_lossless quotedReport
  exact ⟨hparse, hend, hprint _ _ _ _ _ hparse rfl hend, hread⟩

end SiteAssembly.Command
