import MetaAttack.Toml.Scalar
import MetaAttack.Toml.Text

/-!
# TOML documents

A document is a sequence of lines: keys with values, and headers that open tables. `Toml.parse?`
yields the entries of the document, or nothing where it breaks a rule of the format. Values nest
less than eighty deep, and a key has fewer parts than that.
-/

namespace MetaAttack.Toml

/-- Takes something off the front of a text. -/
abbrev Read (α : Type) := List Char → Option (α × List Char)

def skipBlanks (cs : List Char) : List Char := cs.dropWhile isBlank

/-- Skips blanks, line ends and comments; a comment goes on while `inComment` holds. -/
def skipLines (inComment : Bool) : List Char → Option (List Char)
  | '\n' :: r => skipLines false r
  | '\r' :: '\n' :: r => skipLines false r
  | c :: r =>
      if inComment then if isInline c then skipLines true r else none
      else if c = '#' then skipLines true r
      else if isBlank c then skipLines false r
      else some (c :: r)
  | [] => some []

def isBareKey (c : Char) : Bool := c.isAlphanum || c = '_' || c = '-'

/-- Reads one part of a key. -/
def keyPart (cs : List Char) : Option (String × List Char) :=
  match cs with
  | '"' :: _ | '\'' :: _ => (shortString cs).map fun (s, rest) => (String.ofList s, rest)
  | _ =>
      let w := cs.takeWhile isBareKey
      if w.isEmpty then none else some (String.ofList w, cs.dropWhile isBareKey)

/-- Reads a key of at most `n` parts with dots between them. -/
def keyParts : Nat → Read (List String)
  | 0, _ => none
  | n + 1, cs => do
      let (k, r) ← keyPart (skipBlanks cs)
      match skipBlanks r with
      | '.' :: r =>
          let (ks, rest) ← keyParts n r
          return (k :: ks, rest)
      | r => return ([k], r)

/-- The deepest nesting, of values and of the parts of a key. -/
def depthLimit : Nat := 79

def key : Read (List String) := keyParts depthLimit

/-- Reads the items of an array up to its closing bracket; there are at most `n`. -/
def arrayItems (value : Read Node) : Nat → Read (List Node)
  | 0, _ => none
  | n + 1, cs => do
      match ← skipLines false cs with
      | ']' :: rest => return ([], rest)
      | r =>
          let (v, r) ← value r
          match ← skipLines false r with
          | ',' :: r =>
              let (vs, rest) ← arrayItems value n r
              return (v :: vs, rest)
          | ']' :: rest => return ([v], rest)
          | _ => none

/-- Reads a key and its value. -/
def pair (value : Read Node) (cs : List Char) : Option ((List String × Node) × List Char) := do
  let (k, r) ← key cs
  match r with
  | '=' :: r =>
      let (v, rest) ← value (skipBlanks r)
      return ((k, v), rest)
  | _ => none

/-- Adds a node under a dotted key. -/
def addPair (es : Entries) (p : List String × Node) : Option Entries := do
  es.addAt .explicit p.1.dropLast (← p.1.getLast?) p.2

/-- Reads the pairs of a table between braces, of which there are at most `n`. -/
def inlinePairs (value : Read Node) (es : Entries) : Nat → Read Entries
  | 0, _ => none
  | n + 1, cs => do
      let (p, r) ← pair value cs
      let es ← addPair es p
      match skipBlanks r with
      | ',' :: r => inlinePairs value es n r
      | '\x7d' :: rest => return (es, rest)
      | _ => none

/-- Reads a value that nests at most `depth` deep. -/
def value (depth : Nat) (cs : List Char) : Option (Node × List Char) :=
  match cs with
  | '"' :: _ | '\'' :: _ => (anyString cs).map fun (s, rest) => (.text (String.ofList s), rest)
  | '[' :: r =>
      match depth with
      | 0 => none
      | d + 1 => (arrayItems (value d) cs.length r).map fun (vs, rest) => (.array vs, rest)
  | '\x7b' :: r =>
      match depth with
      | 0 => none
      | d + 1 =>
          match skipBlanks r with
          | '\x7d' :: rest => some (.table .inline [], rest)
          | r =>
              (inlinePairs (value d) [] cs.length r).map fun (es, rest) => (.table .inline es, rest)
  | 't' :: _ => (word ['t', 'r', 'u', 'e'] cs).map fun rest => (.boolean true, rest)
  | 'f' :: _ => (word ['f', 'a', 'l', 's', 'e'] cs).map fun rest => (.boolean false, rest)
  | _ => (time cs).or ((float cs).or (integer cs))

/-- The text behind the end of a line that holds nothing more than a comment. -/
def lineEnd (cs : List Char) : Option (List Char) :=
  let r := skipBlanks cs
  let r := if r.head? = some '#' then r.dropWhile fun c => isInline c else r
  match r with
  | [] => some []
  | '\n' :: rest => some rest
  | '\r' :: '\n' :: rest => some rest
  | _ => none

/-- The document so far, and the table that the last header opened. -/
structure Builder where
  root : Entries
  path : List String

namespace Builder

/-- Adds a key with its value to the open table. -/
def addPair (b : Builder) (p : List String × Node) : Option Builder := do
  let last ← p.1.getLast?
  let root ← b.root.alter false
    (fun kind es => es.addAt kind p.1.dropLast last p.2) .explicit b.path
  return { b with root }

/-- Opens a table by its header, or the next one of a sequence. -/
def openAt (b : Builder) (path : List String) (next : Bool) : Option Builder := do
  let last ← path.getLast?
  let root ← b.root.alter false
    (if next then Entries.openNext last else Entries.openTable last) .explicit path.dropLast
  return { root, path }

/-- Takes in a line that is not empty; the rest starts with the next line. -/
def line (b : Builder) (cs : List Char) : Option (Builder × List Char) :=
  match cs with
  | '[' :: '[' :: r => do
      let (k, r) ← key r
      let b ← b.openAt k true
      return (b, ← lineEnd (← word [']', ']'] r))
  | '[' :: r => do
      let (k, r) ← key r
      let b ← b.openAt k false
      return (b, ← lineEnd (← word [']'] r))
  | _ => do
      let (p, r) ← pair (value depthLimit) cs
      let b ← b.addPair p
      return (b, ← lineEnd r)

/-- Takes in a text of at most `n` lines. -/
def lines (b : Builder) : Nat → List Char → Option Entries
  | 0, _ => none
  | n + 1, cs => do
      match ← skipLines false cs with
      | [] => return b.root
      | r =>
          let (b, rest) ← b.line r
          b.lines n rest

end Builder

/-- The entries of a document. A byte order mark in front of it is left out. -/
def parse? (source : String) : Option Entries :=
  let cs := source.toList
  let cs := if cs.head? = some '\ufeff' then cs.tail else cs
  Builder.lines ⟨[], []⟩ (cs.length + 1) cs

end MetaAttack.Toml
