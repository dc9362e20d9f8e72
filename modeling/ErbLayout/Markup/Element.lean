import ErbLayout.Text.Case
/-!
What is known of elements by their names: which have no content, whose body is kept as it is,
around which white space never shows, and which attributes hold lists of tokens.
-/

namespace ErbLayout.Markup

/-- How an open tag ends. -/
inductive Closing where
  | plain
  | slash
  deriving DecidableEq, Repr

def Closing.text : Closing → List Char
  | .plain => ['>']
  | .slash => ['/', '>']

namespace Element

def voidNames : List (List Char) :=
  ["area", "base", "br", "col", "command", "embed", "hr", "img", "input", "keygen", "link",
    "menuitem", "meta", "param", "source", "track", "wbr"].map String.toList

/-- Elements whose body is copied; only their own close tag ends it. -/
def rawTextNames : List (List Char) := ["script", "style"].map String.toList

/-- Elements with white space around their tags that never matters for rendering. -/
def blockNames : List (List Char) :=
  ["address", "article", "aside", "blockquote", "body", "caption", "colgroup", "dd", "details",
    "dialog", "div", "dl", "dt", "fieldset", "figcaption", "figure", "footer", "form", "h1", "h2",
    "h3", "h4", "h5", "h6", "head", "header", "hgroup", "hr", "html", "li", "link", "main", "menu",
    "meta", "nav", "ol", "optgroup", "option", "p", "script", "section", "select", "style",
    "summary", "table", "tbody", "td", "template", "tfoot", "th", "thead", "title", "tr",
    "ul"].map String.toList

/-- Attributes that are lists of tokens, between which a line may break. -/
def tokenListNames : List (List Char) := ["class", "data-action"].map String.toList

/-- Without content by name, in capitals too. -/
def isVoid (name : List Char) : Bool := voidNames.any (sameLetters · name)

def isRawText (name : List Char) : Bool := rawTextNames.contains name

def isBlockLevel (name : List Char) : Bool := blockNames.contains name

def isTokenList (name : List Char) : Bool := tokenListNames.contains name

/-- An open tag after which no close tag is awaited. -/
def isSelfClosing (name : List Char) (closing : Closing) : Bool :=
  closing == .slash || isVoid name

/-- The names that an open tag may have. -/
def isValidName (name : List Char) : Bool :=
  !name.isEmpty && name.all fun c => ('a' ≤ c && c ≤ 'z') || ('0' ≤ c && c ≤ '9')

theorem isSelfClosing_slash (name : List Char) : isSelfClosing name .slash = true := rfl

end Element

end ErbLayout.Markup
