import SiteAssembly.Proofs.Json.Written

/-!
# The report is read back

The JSON of a report is an object of nine fields. Whoever reads the document
and takes the fields by their names gets the report back, so the document
loses nothing and two reports never have the same document.
-/

namespace SiteAssembly.Json.Value

/-- The first field of a name, if the value is an object that has one. -/
def field? (name : Text) : Value → Option Value
  | .object fields => fields.lookup name
  | _ => none

def text? : Value → Option Text
  | .text t => some t
  | _ => none

def flag? : Value → Option Bool
  | .flag b => some b
  | _ => none

/-- A number that is written without a sign, a point and an exponent. -/
def natural? : Value → Option Nat
  | .number (.ofNat n) 0 => some n
  | _ => none

/-- The items of a list, all of which `item?` takes. -/
def items? {α : Type} (item? : Value → Option α) : Value → Option (List α)
  | .array vs => vs.mapM item?
  | _ => none

def isEmptyObject : Value → Bool
  | .object [] => true
  | _ => false

theorem items?_map {α : Type} {item? : Value → Option α} {value : α → Value}
    (h : ∀ a, item? (value a) = some a) (as : List α) :
    items? item? (.array (as.map value)) = some as := by
  induction as with
  | nil => rfl
  | cons a as ih =>
    simp only [items?] at ih
    simp [items?, List.mapM_cons, h, ih]

end SiteAssembly.Json.Value

namespace SiteAssembly.Build.Json
open SiteAssembly.Json (Reads Value read? reads_string reads_flag reads_decimal reads_list_map
  reads_object read?_of_reads)

/-! ### The values that are written -/

def diagnosticValue (d : Diagnostic) : Value :=
  .object [("kind", .text d.kind), ("rel_path", .text d.path), ("message", .text d.message)]

def summaryValue : Option Summary → Value
  | none => .object []
  | some s =>
    .object [
      ("dest_dir", .text s.outputDir),
      ("pages", .number s.pages 0),
      ("assets", .number s.assets 0),
      ("errors", .number s.errors 0),
      ("cycles", .number s.cycles 0)]

def reportValue (r : Report) : Value :=
  .object [
    ("ok", .flag r.ok),
    ("error", .text r.error),
    ("base_path", .text r.baseDir),
    ("src_dir", .text r.sourceDir),
    ("dest_dir", .text r.outputDir),
    ("pages", .array (r.pages.map .text)),
    ("assets", .array (r.assets.map .text)),
    ("diagnostics", .array (r.diagnostics.map diagnosticValue)),
    ("summary", summaryValue r.summary)]

theorem reads_diagnostic (level : Nat) (d : Diagnostic) :
    Reads (diagnostic level d) (diagnosticValue d) :=
  reads_object (by simp [reads_string])

theorem reads_summary (level : Nat) (s : Option Summary) :
    Reads (summary level s) (summaryValue s) := by
  cases s with
  | none => exact reads_object .nil
  | some s => exact reads_object (by simp [reads_string, reads_decimal])

theorem reads_report (r : Report) : Reads (report r) (reportValue r) := by
  have htexts : ∀ ts : List Text, Reads (list 1 (ts.map string)) (.array (ts.map .text)) :=
    reads_list_map reads_string
  have hdiagnostics : Reads (list 1 (r.diagnostics.map (diagnostic 2)))
      (.array (r.diagnostics.map diagnosticValue)) :=
    reads_list_map (reads_diagnostic 2) r.diagnostics
  exact reads_object
    (by simp [reads_string, reads_flag, htexts, hdiagnostics, reads_summary])

/-! ### The report from the value -/

def diagnosticOf? (v : Value) : Option Diagnostic := do
  return {
    kind := ← (← v.field? "kind").text?
    path := ← (← v.field? "rel_path").text?
    message := ← (← v.field? "message").text? }

/-- The counts of a report; without any, the object is empty. -/
def summaryOf? (v : Value) : Option (Option Summary) :=
  if v.isEmptyObject then some none
  else do
    return some {
      outputDir := ← (← v.field? "dest_dir").text?
      pages := ← (← v.field? "pages").natural?
      assets := ← (← v.field? "assets").natural?
      errors := ← (← v.field? "errors").natural?
      cycles := ← (← v.field? "cycles").natural? }

def reportOf? (v : Value) : Option Report := do
  return {
    ok := ← (← v.field? "ok").flag?
    error := ← (← v.field? "error").text?
    baseDir := ← (← v.field? "base_path").text?
    sourceDir := ← (← v.field? "src_dir").text?
    outputDir := ← (← v.field? "dest_dir").text?
    pages := ← (← v.field? "pages").items? Value.text?
    assets := ← (← v.field? "assets").items? Value.text?
    diagnostics := ← (← v.field? "diagnostics").items? diagnosticOf?
    summary := ← summaryOf? (← v.field? "summary") }

theorem diagnosticOf?_diagnosticValue (d : Diagnostic) :
    diagnosticOf? (diagnosticValue d) = some d := rfl

theorem summaryOf?_summaryValue (s : Option Summary) : summaryOf? (summaryValue s) = some s := by
  cases s <;> rfl

theorem reportOf?_reportValue (r : Report) : reportOf? (reportValue r) = some r := by
  have htexts : ∀ ts : List Text, Value.items? Value.text? (.array (ts.map .text)) = some ts :=
    Value.items?_map fun _ => rfl
  have hdiagnostics := Value.items?_map diagnosticOf?_diagnosticValue r.diagnostics
  simp [reportOf?, reportValue, Value.field?, List.lookup_cons, Value.flag?, Value.text?, htexts,
    hdiagnostics, summaryOf?_summaryValue]

/-- What is read of the JSON of a report is the report. -/
theorem reportOf?_report (r : Report) : (read? (report r)).bind reportOf? = some r := by
  rw [read?_of_reads (reads_report r), Option.bind_some, reportOf?_reportValue]

end SiteAssembly.Build.Json
