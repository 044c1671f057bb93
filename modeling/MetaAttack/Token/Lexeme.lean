import MetaAttack.Token.Piece

/-!
# Placed tokens

Each piece of a source gets its span by adding up the pieces before it. The tokens of a source are
its pieces without the gaps; a piece that starts no token is reported and reading goes on behind it.
-/

namespace MetaAttack

/-- The number of bytes of a text in its UTF-8 form. -/
def byteSize : List Char → Nat
  | [] => 0
  | c :: cs => c.utf8Size + byteSize cs

theorem byteSize_append (cs ds : List Char) : byteSize (cs ++ ds) = byteSize cs + byteSize ds := by
  induction cs with
  | nil => simp [byteSize]
  | cons c cs ih => simp [byteSize, ih, Nat.add_assoc]

/-- A place between two characters of a source. -/
structure Position where
  offset : Nat
  line : Nat
deriving DecidableEq, Repr

namespace Position

/-- The place before the first character. -/
def origin : Position := ⟨0, 1⟩

/-- The place behind the text `cs` that starts at `p`: bytes are those of the UTF-8 form, and only
line feeds end a line. -/
def advance (p : Position) (cs : List Char) : Position :=
  ⟨p.offset + byteSize cs, p.line + cs.count '\n'⟩

@[simp] theorem advance_nil (p : Position) : p.advance [] = p := rfl

theorem advance_append (p : Position) (cs ds : List Char) :
    p.advance (cs ++ ds) = (p.advance cs).advance ds := by
  simp [advance, byteSize_append, Nat.add_assoc]

/-- The span of the text `cs` that starts at `p`. -/
def spanOf (p : Position) (cs : List Char) : Span :=
  ⟨p.offset, (p.advance cs).offset, p.line⟩

end Position

/-- Gives every piece its span; the first piece starts at `p`. -/
def place (p : Position) : List Piece → List (PieceKind × Span)
  | [] => []
  | q :: qs => (q.kind, p.spanOf q.text) :: place (p.advance q.text) qs

/-- What reading a source yields, piece by piece: a placed token, or the span of a stretch that
starts no token. -/
inductive Scanned
  | lexeme (lexeme : Lexeme)
  | invalid (span : Span)
deriving DecidableEq, Repr

namespace Scanned

/-- A gap yields nothing. -/
def ofPlaced? : PieceKind × Span → Option Scanned
  | (.gap, _) => none
  | (.token t, span) => some (lexeme ⟨t, span⟩)
  | (.invalid, span) => some (invalid span)

def span : Scanned → Span
  | lexeme l => l.span
  | invalid s => s

end Scanned

/-- Everything that a source holds besides gaps, in order. -/
def scan (source : String) : List Scanned :=
  (place .origin (pieces source.toList)).filterMap Scanned.ofPlaced?

/-- The source holds, at `span`, something that starts no token. -/
structure InvalidCharacter where
  span : Span
deriving DecidableEq, Repr

/-- What a report says of an invalid character. -/
def InvalidCharacter.message (e : InvalidCharacter) : String :=
  s!"unexpected character on line {e.span.line}"

/-- The lexemes, unless something among them is no token. -/
def lexemesOf : List Scanned → Except InvalidCharacter (List Lexeme)
  | [] => .ok []
  | .invalid span :: _ => .error ⟨span⟩
  | .lexeme l :: rest => (lexemesOf rest).map (l :: ·)

/-- The lexemes of a source; the first invalid stretch is the error. -/
def lexemes (source : String) : Except InvalidCharacter (List Lexeme) :=
  lexemesOf (scan source)

end MetaAttack
