/-
The JSON report of checked files.
-/
import Parley.Lint.File
import Parley.Report.Json

namespace Parley

def Span.json (s : Span) : Json :=
  .object [("offset", .number s.offset), ("length", .number s.length), ("line", .number s.line),
    ("column", .number s.column)]

def Violation.json : Violation → Json
  | duplicate what name first =>
    .object [("kind", .string "duplicate_declaration"), ("name", .string name),
      ("category", .string what.label), ("first_span", first.json)]
  | unresolved category name =>
    .object [("kind", .string "unresolved_reference"), ("name", .string name),
      ("expected", .string category.label)]
  | missingActor tx => .object [("kind", .string "missing_actor"), ("transaction", .string tx)]
  | missingMessage tx => .object [("kind", .string "missing_message"), ("transaction", .string tx)]
  | missingEntry tx =>
    .object [("kind", .string "missing_entry_block"), ("transaction", .string tx)]
  | unreachable block => .object [("kind", .string "unreachable_block"), ("name", .string block)]
  | arity function expected actual =>
    .object [("kind", .string "arity_mismatch"), ("function", .string function),
      ("expected", .number expected), ("actual", .number actual)]
  | unknownType name => .object [("kind", .string "unknown_type"), ("name", .string name)]

def Casing.key : Casing → String
  | upperCamel => "upper_camel"
  | snake => "snake"

def kindWithDetail (kind : String) (detail : Json) : Json :=
  .object [("kind", .string kind), ("detail", detail)]

def Finding.json : Finding → Json
  | lex _ => .object [("kind", .string "lex")]
  | parse e =>
    kindWithDetail "syntax"
      (.object [("expected", .array (e.expected.map fun x => .string x.describe))])
  | unreadable _ | unwritable _ => .object [("kind", .string "io")]
  | violation v => kindWithDetail "validation" v.json
  | style (.misspelled what name) =>
    kindWithDetail "naming_convention"
      (.object [("name", .string name), ("expected", .string what.casing.key)])
  | style (.unused category name) =>
    kindWithDetail "unused_declaration"
      (.object [("name", .string name), ("category", .string category.label)])

def Edit.json (e : Edit) : Json :=
  .object [("start", .number e.start), ("end", .number e.stop), ("text", .string e.text)]

def Diagnostic.json (d : Diagnostic) : Json :=
  .object [("kind", d.finding.json), ("severity", .string d.finding.severity.label),
    ("message", .string d.finding.message), ("span", d.span.json),
    ("suggestion", .ofOption .string d.suggestion), ("fix", .ofOption Edit.json d.fix)]

def FileReport.json (r : FileReport) : Json :=
  .object [("path", .string r.path), ("diagnostics", .array (r.diagnostics.map Diagnostic.json)),
    ("fixable", .number r.fixable), ("fixed", .number r.fixed)]

def Report.json (reports : List FileReport) : Json :=
  .object [("outcomes", .array (reports.map FileReport.json))]

end Parley
