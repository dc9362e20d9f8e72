import ErbLayout.Ruby.Token
import ErbLayout.Ruby.Word
/-!
Ruby code that is yet to be read, with the delimited texts and here-documents that are open in it.
-/

namespace ErbLayout.Ruby

/-- Delimited text: the token that opened it, its delimiters, how many of them are to be closed, and
whether it may hold code. Its opening delimiter nests when there is one; a text without a closing
delimiter reaches to the end of the code. -/
structure Delimited where
  start : Token
  opening : Option Char
  closing : Option Char
  depth : Nat := 1
  interpolates : Bool
  deriving DecidableEq, Repr

/-- A here-document that was announced: the word that ends it, whether that may be indented, whether
there may be code in it, and whether its body has begun. -/
structure HereDoc where
  ending : Word
  indented : Bool
  interpolates : Bool
  begun : Bool := false
  deriving DecidableEq, Repr

/-- Code that is yet to be read, the delimited texts it stands in, the innermost first, and the
here-documents that have not ended, in order. -/
structure Source where
  rest : List Char
  delimited : List Delimited := []
  hereDocs : List HereDoc := []
  deriving DecidableEq, Repr

namespace Source

def after (src : Source) (rest : List Char) : Source := { src with rest }

def opening (src : Source) (d : Delimited) (rest : List Char) : Source :=
  { src with rest, delimited := d :: src.delimited }

/-- Whether a here-document was announced whose body is to begin at the next line. -/
def awaitsBody (src : Source) : Bool := src.hereDocs.head?.any fun h => !h.begun

/-- Whether the body of a here-document has begun. -/
def inBody (src : Source) : Bool := src.hereDocs.head?.any HereDoc.begun

/-- The source at the beginning of the body of a here-document. -/
def beginBody (src : Source) (rest : List Char) : Source :=
  { src with rest, hereDocs := src.hereDocs.modifyHead fun h => { h with begun := true } }

end Source

/-- The next token of some code, and the code after it. A name may be spelled like a keyword of a
block. -/
structure Read where
  token : Token
  source : Source
  blockWord : Bool := false
  deriving DecidableEq, Repr

/-- The tokens that may come next. -/
abbrev Expected := Token → Bool

theorem Source.rest_after (src : Source) (rest : List Char) : (src.after rest).rest = rest := rfl

end ErbLayout.Ruby
