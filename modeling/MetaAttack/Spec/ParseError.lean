import MetaAttack.Token.Lexeme

/-!
# Parse errors

A parse error names its cause and the span where reading stopped; `ParseError.message` words it.
-/

namespace MetaAttack

/-- What would have been in order at the place of an error. -/
inductive Expected
  | token (token : Token)
  | anyToken
  | ident
  | string
  | item
  | asset
  | member
  | stepKind
  | expression
  | number
  | ttcAtom
  | ttcExpression
deriving DecidableEq, Repr

def Expected.text : Expected → String
  | token t => t.text
  | anyToken => "token"
  | ident => "identifier"
  | string => "string"
  | item => "define, include, category, or associations"
  | asset => "asset"
  | member => "attack step or variable"
  | stepKind => "attack step type"
  | expression => "expression"
  | number => "number"
  | ttcAtom => "number or distribution"
  | ttcExpression => "TTC expression"

/-- Why a source is no specification. -/
inductive ParseError
  | unexpectedToken (expected : Expected) (found : Token) (span : Span)
  | unexpectedEnd (expected : Expected) (span : Span)
  | invalidToken (span : Span)
  | expectedIdent (found : Token) (span : Span)
  | expectedString (found : Token) (span : Span)
  | invalidNumber (text : String) (span : Span)
  | invalidMultiplicity (found : Token) (span : Span)
  | invalidClassification (found : String) (span : Span)
deriving DecidableEq, Repr

namespace ParseError

/-- The place that an error points at. -/
def span : ParseError → Span
  | unexpectedToken _ _ s | unexpectedEnd _ s | invalidToken s | expectedIdent _ s
  | expectedString _ s | invalidNumber _ s | invalidMultiplicity _ s
  | invalidClassification _ s => s

/-- The cause in words, without its line. -/
def reason : ParseError → String
  | unexpectedToken e f _ => s!"unexpected token: expected {e.text}, found {f.text}"
  | unexpectedEnd e _ => s!"unexpected end of input: expected {e.text}"
  | invalidToken _ => "invalid token"
  | expectedIdent f _ => s!"expected identifier, found {f.text}"
  | expectedString f _ => s!"expected string, found {f.text}"
  | invalidNumber t _ => s!"invalid number `{t}`"
  | invalidMultiplicity f _ => s!"invalid multiplicity `{f.text}`, expected 0, 1 or *"
  | invalidClassification f _ => s!"invalid classification `{f}`, expected C, I or A"

/-- An error is shown with the line that it is in. -/
def message (e : ParseError) : String := s!"line {e.span.line}: {e.reason}"

/-- What a report writes at the place of the error. -/
def label : ParseError → String
  | unexpectedToken .. => "here"
  | unexpectedEnd .. => "end of input"
  | invalidToken .. => "invalid token"
  | expectedIdent .. => "expected identifier"
  | expectedString .. => "expected string"
  | invalidNumber .. => "invalid number"
  | invalidMultiplicity .. => "invalid multiplicity"
  | invalidClassification .. => "invalid classification"

end ParseError

end MetaAttack
