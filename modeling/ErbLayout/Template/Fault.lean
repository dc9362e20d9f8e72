import ErbLayout.Ruby.Fragment
/-!
Structural faults of templates: what is wrong, where it was found, and how far the layout had got.
-/

namespace ErbLayout.Template

inductive Fault.Kind where
  | general
  | badAttribute
  | unknownTag
  | unmatchedClose
  | unrecognizedContent
  deriving DecidableEq, Repr

def defaultFilename : List Char := "(template)".toList

/-- A fault with the file and line where it stands, the label of the innermost frame, the output so
far and the open frames, the outermost first. -/
structure Fault where
  kind : Fault.Kind
  message : List Char
  filename : List Char := defaultFilename
  line : Int := 1
  frame : Option (List Char) := none
  formatted : List Char := []
  stack : List (List Char) := []
  deriving DecidableEq, Repr

namespace Fault

def location (f : Fault) : List Char := f.filename ++ ':' :: (toString f.line).toList

def text (f : Fault) : List Char := f.location ++ [':', ' '] ++ f.message

def frameText (f : Fault) : List Char :=
  match f.frame with
  | some (c :: label) => c :: label
  | _ => "(top level)".toList

def stackText (f : Fault) : List Char :=
  match f.stack with
  | [] => "  (empty)".toList
  | ls => Text.joinLines (ls.map ([' ', ' '] ++ ·))

/-- The full report. -/
def diagnostics (f : Fault) : List Char :=
  Text.joinLines
    [f.location ++ ": in `".toList ++ f.frameText ++ ['\''], "==> FORMATTED:".toList, f.formatted,
      "==> STACK:".toList, f.stackText, "==> ERROR: ".toList ++ f.message]

end Fault

/-- Why a layout gives no text: a fault of the template, a failure of the reformatter, or a tag that
does not read as one. -/
inductive Failure where
  | fault (fault : Fault)
  | reformatter (error : Ruby.ReformatError)
  | noErbTag (text : List Char)
  deriving DecidableEq, Repr

def notATag (text : List Char) : List Char := "Not an ERB tag: ".toList ++ Text.quoted text

def Failure.message : Failure → List Char
  | .fault f => f.text
  | .reformatter e => e.message
  | .noErbTag text => notATag text

end ErbLayout.Template
