import ErbLayout.Markup.Token
/-!
A document in pieces: the structural tokens, the gaps between them, and the bodies of the elements
whose content is raw text. Read one after another, the pieces are the document.
-/

namespace ErbLayout.Markup

inductive Piece where
  | gap (text : List Char)
  | token (token : Token)
  | rawText (name content closeTag : List Char)
  deriving DecidableEq, Repr

namespace Piece

/-- An unclosed raw text has an empty close tag. -/
def text : Piece → List Char
  | .gap t => t
  | .token t => t.text
  | .rawText _ content closeTag => content ++ closeTag

/-- The close tag of an element by its name, in any case, with white space around the name. -/
def readCloseOf (name : List Char) : Text.Reader (List Char)
  | '<' :: '/' :: s =>
    (Token.runs isBlank s ++ [([], s)]).findSome? fun (before, (s₁ : List Char)) =>
      if sameLetters name (s₁.take name.length) then
        match (s₁.drop name.length).span isBlank with
        | (after, '>' :: _) =>
          let t := '<' :: '/' :: before ++ s₁.take name.length ++ after ++ ['>']
          some (t, t.length)
        | _ => none
      else none
  | _ => none

/-- The element whose raw text follows a token. -/
def rawTextAfter : Token → Option (List Char)
  | .opening _ name _ closing =>
    if Element.isRawText name && !Element.isSelfClosing name closing then some name else none
  | _ => none

/-- The pieces of `s`, where the body of the element `raw` comes first if there is one. -/
def cutFrom : Nat → Option (List Char) → List Char → List Piece
  | 0, _, _ => []
  | _, _, [] => []
  | fuel + 1, some name, s =>
    match Text.find? (readCloseOf name) 0 s with
    | some (n, closeTag, k) =>
      .rawText name (s.take n) closeTag :: cutFrom fuel none (s.drop (n + k))
    | none => [.rawText name s []]
  | fuel + 1, none, s =>
    match Text.find? Token.read 0 s with
    | some (n, t, k) =>
      .gap (s.take n) :: .token t :: cutFrom fuel (rawTextAfter t) (s.drop (n + k))
    | none => [.gap s]

def cut (s : List Char) : List Piece := cutFrom (s.length + 1) none s

end Piece

end ErbLayout.Markup
