import EndpointPreview.Control.CommandLine

/-!
The checker of one source file, as a command line of its own.
-/

namespace EndpointPreview.Control.SourceCheck

open Text CommandLine
open Report (line)

def checkUsage : Bytes := ascii "Usage: validate-endpoints <source.py>"

def checkLines (report : Notation.ValidationReport) : Bytes :=
  report.warnings.flatMap (fun warning => line (ascii "  warning: " ++ warning)) ++
  (if report.isValid then
    line (ascii "Validation succeeded (" ++ decimal report.parsed.endpoints.length ++
      ascii " endpoint(s)).")
  else
    line (ascii "Validation failed:") ++
      report.errors.flatMap fun error => line (ascii "  - " ++ error))

def checkReport (source : Bytes) : Report :=
  let report := Notation.validate source
  { code := if report.isValid then 0 else 2, out := checkLines report }

def run (fileAt : Bytes → FileRead) (arguments : List Bytes) : Report :=
  match arguments with
  | [path] =>
      match fileAt path with
      | .contents source => checkReport source
      | _ => .failed (line (ascii "Cannot read " ++ path))
  | _ => .failed (line checkUsage)

end EndpointPreview.Control.SourceCheck
