/-!
# TOML nodes

The contents of a TOML document as a tree of nodes. A table remembers how it came about, since that
decides what may still be added to it: a table between braces is complete, one with a header of its
own gets no second header, and one that dotted keys have made grows by dotted keys only.
-/

namespace MetaAttack.Toml

/-- How a table came about. -/
inductive TableKind
  /-- It has a header of its own, or is the document. -/
  | explicit
  /-- Only headers of tables inside it name it. -/
  | implicit
  /-- A dotted key names it. -/
  | dotted
  /-- It stands between braces. -/
  | inline
deriving DecidableEq, Repr

/-- A value, a table, or a sequence of tables that are opened one after the other. Numbers with a
fraction and times are kept as written. -/
inductive Node
  | text (value : String)
  | integer (value : Int)
  | float (text : String)
  | boolean (value : Bool)
  | time (text : String)
  | array (items : List Node)
  | table (kind : TableKind) (entries : List (String × Node))
  | tables (items : List (List (String × Node)))

/-- What stands in a table, under its keys. -/
abbrev Entries := List (String × Node)

namespace Entries

def find? (es : Entries) (key : String) : Option Node :=
  (List.find? (fun e => e.1 = key) es).map Prod.snd

/-- Puts a node under a key, in place of what was there. -/
def put (es : Entries) (key : String) (n : Node) : Entries :=
  if (find? es key).isSome then List.map (fun e => if e.1 = key then (key, n) else e) es
  else es ++ [(key, n)]

/-- Changes the table at the end of a path. Missing tables on the way are made, of the kind `fresh`;
where `dotted` holds, the path must not lead through a table that has a header. The change is given
the kind of the table. -/
def alter (dotted : Bool) (change : TableKind → Entries → Option Entries) (kind : TableKind)
    (es : Entries) : List String → Option Entries
  | [] => change kind es
  | k :: ks =>
      match find? es k with
      | none => do
          let fresh := if dotted then .dotted else .implicit
          let inner ← alter dotted change fresh [] ks
          return put es k (.table fresh inner)
      | some (.table .inline _) => none
      | some (.table inside entries) =>
          if dotted && inside = .explicit then none
          else do
            let inner ← alter dotted change inside entries ks
            return put es k (.table inside inner)
      | some (.tables items) => do
          let last ← items.getLast?
          let inner ← alter dotted change .explicit last ks
          return put es k (.tables (items.dropLast ++ [inner]))
      | some _ => none

/-- Adds a node under a new key. A table that dotted keys have made takes nodes by dotted keys, any
other table by plain ones. -/
def addLeaf (isDotted : Bool) (key : String) (n : Node) (kind : TableKind) (es : Entries) :
    Option Entries :=
  if (kind = .dotted) ≠ isDotted then none
  else if (find? es key).isSome then none
  else some (es ++ [(key, n)])

/-- Adds a node under a dotted key, given as the path to it and its last part. -/
def addAt (kind : TableKind) (es : Entries) (path : List String) (key : String) (n : Node) :
    Option Entries :=
  alter true (addLeaf (!path.isEmpty) key n) kind es path

/-- Opens the table `key` by a header. -/
def openTable (key : String) (_ : TableKind) (es : Entries) : Option Entries :=
  match find? es key with
  | none => some (es ++ [(key, .table .explicit [])])
  | some (.table .implicit inner) => some (put es key (.table .explicit inner))
  | some _ => none

/-- Opens the next table of the sequence `key` by a header. -/
def openNext (key : String) (_ : TableKind) (es : Entries) : Option Entries :=
  match find? es key with
  | none => some (es ++ [(key, .tables [[]])])
  | some (.tables items) => some (put es key (.tables (items ++ [[]])))
  | some _ => none

end Entries

end MetaAttack.Toml
