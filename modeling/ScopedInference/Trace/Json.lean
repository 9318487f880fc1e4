import ScopedInference.Trace.Recorder

/-!
# Traces as JSON

The steps of a trace as a JSON array of objects, indented by two spaces. A string escapes quotes,
backslashes and control characters, and holds everything else as it is.
-/

namespace ScopedInference

namespace JsonText

/-- The letter `u` after a backslash, and four lowercase hexadecimal digits. -/
def unicodeEscape (c : Char) : String :=
  let digits := Nat.toDigits 16 c.toNat
  "\\u" ++ String.ofList (List.replicate (4 - digits.length) '0' ++ digits)

def escape (c : Char) : String :=
  if c = '"' then "\\\""
  else if c = '\\' then "\\\\"
  else if c = '\x08' then "\\b"
  else if c = '\x0c' then "\\f"
  else if c = '\n' then "\\n"
  else if c = '\r' then "\\r"
  else if c = '\t' then "\\t"
  else if c.toNat < 0x20 then unicodeEscape c
  else c.toString

def quoted (s : String) : String := "\"" ++ String.join (s.toList.map escape) ++ "\""

end JsonText

open JsonText

/-- The word for an action in a JSON step. -/
def TraceAction.keyword : TraceAction → String
  | .trying => "trying"
  | .registerType => "register_type"
  | .registerMul => "register_multiplicity"

/-- The fields of a step in order, with their JSON texts; a missing actual type has none. -/
def TraceStep.jsonFields (s : TraceStep) : List (String × String) :=
  [("step", toString s.number), ("depth", toString s.depth), ("action", quoted s.action.keyword),
    ("template", quoted s.template)]
    ++ (s.actual.elim [] fun a => [("actual", quoted a)])
    ++ [("context", quoted s.context), ("target", quoted s.target)]

def TraceStep.json (s : TraceStep) : String :=
  "  \x7b\n" ++ ",\n".intercalate (s.jsonFields.map fun (k, v) => "    " ++ quoted k ++ ": " ++ v)
    ++ "\n  \x7d"

def Recorder.json (r : Recorder) : String :=
  match r.steps.toList with
  | [] => "[]"
  | steps => "[\n" ++ ",\n".intercalate (steps.map (·.json)) ++ "\n]"

end ScopedInference
