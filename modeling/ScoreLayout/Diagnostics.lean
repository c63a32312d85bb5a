import ScoreLayout.Json.Basic

/-!
# Diagnostic marks

A problem in the score never stops the layout. Each pass reports what it had to work around as a
mark on a node.

## Main definitions

* `Mark` — a problem, with the node it was met at.
* `Mark.Kind` — the kinds of problems that the passes report.
-/

namespace ScoreLayout

/-- How serious a problem is. -/
inductive Severity where
  | error
  | warning
  | info
deriving DecidableEq, Repr

/-- The written names of the severities. -/
def Severity.names : List (String × Severity) :=
  [("error", .error), ("warning", .warning), ("info", .info)]

/-- A problem met during layout. -/
structure Mark where
  /-- The identifier of the node, if there is one. -/
  node : Option String
  severity : Severity
  kind : String
  message : String
deriving DecidableEq, Repr

namespace Mark

/-- The kinds of problems that the passes report. -/
inductive Kind where
  /-- A control element names a symbol that is not in the score. -/
  | danglingAnchor
  /-- A control element has neither a symbol nor a beat. -/
  | unanchoredControl
  /-- A beat lies outside of its measure. -/
  | unresolvedTstamp
  /-- A duration takes no time. -/
  | invalidDuration
  /-- A measure is wider than the page. -/
  | measureOverflow
  /-- A system is higher than the page. -/
  | systemOverflow
deriving DecidableEq, Repr

/-- The identifier of a kind. -/
def Kind.id : Kind → String
  | danglingAnchor => "dangling_anchor"
  | unanchoredControl => "unanchored_control"
  | unresolvedTstamp => "unresolved_tstamp"
  | invalidDuration => "invalid_duration"
  | measureOverflow => "measure_overflow"
  | systemOverflow => "system_overflow"

/-- A warning about a node. -/
def warning (node : String) (kind : Kind) (message : String) : Mark :=
  ⟨some node, .warning, kind.id, message⟩

/-- An error at a node. -/
def error (node : String) (kind : Kind) (message : String) : Mark :=
  ⟨some node, .error, kind.id, message⟩

/-- Whether some mark is an error. -/
def anyError (marks : List Mark) : Bool := marks.any fun m => m.severity = .error

/-- The number of marks of a kind. -/
def countKind (marks : List Mark) (kind : String) : Nat :=
  (marks.filter fun m => m.kind = kind).length

section Json

variable {α : Type}

/-- A mark from its fields. -/
def ofJson? (j : Json α) : Option Mark := do
  let r ← Json.Record.ofJson? ["node", "severity", "kind", "message"] j
  return {
    node := ← r.nullable "node" Json.toText?
    severity := ← r.required "severity" (Json.toName? Severity.names)
    kind := ← r.required "kind" Json.toText?
    message := ← r.required "message" Json.toText? }

/-- The fields of a mark. -/
def toJson (m : Mark) : Json α :=
  .object [
    ("node", Json.ofOption .text m.node),
    ("severity", Json.ofName Severity.names m.severity),
    ("kind", .text m.kind),
    ("message", .text m.message)]

end Json

end Mark

end ScoreLayout
