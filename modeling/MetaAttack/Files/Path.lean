/-!
# Paths

A path is the text between slashes, kept as written, so that a message can show the path that was
asked for. Two paths name the same place when their components agree: a doubled or closing slash
and a `.` inside a path count for nothing. `Path.normalize` also takes away each `..` together with
the component before it, by the text alone.
-/

namespace MetaAttack

/-- A path: whether it starts at the root, and what stands between its slashes. -/
structure Path where
  absolute : Bool
  segments : List String
deriving DecidableEq, Repr

namespace Path

/-- A step on the way that a path describes. -/
inductive Component
  | root
  /-- A `.` at the start of a relative path. -/
  | here
  | up
  | name (name : String)
deriving DecidableEq, Repr

/-- Cuts a text at its slashes. -/
def cut : List Char → List (List Char)
  | [] => [[]]
  | c :: r =>
      if c = '/' then [] :: cut r
      else
        match cut r with
        | [] => [[c]]
        | s :: ss => (c :: s) :: ss

/-- The segments of a text; an empty text has none. -/
def segmentsOf (cs : List Char) : List String :=
  if cs.isEmpty then [] else (cut cs).map String.ofList

def ofText (s : String) : Path :=
  match s.toList with
  | '/' :: r => ⟨true, segmentsOf r⟩
  | cs => ⟨false, segmentsOf cs⟩

def text (p : Path) : String :=
  (if p.absolute then "/" else "") ++ "/".intercalate p.segments

/-- The path without any text. -/
def empty : Path := ⟨false, []⟩

/-- What a segment in the middle of a path means, if anything. -/
def Component.ofSegment? (s : String) : Option Component :=
  if s = "" ∨ s = "." then none else if s = ".." then some up else some (name s)

/-- The components of a path. -/
def components (p : Path) : List Component :=
  if p.absolute then .root :: p.segments.filterMap Component.ofSegment?
  else
    match p.segments with
    | "." :: ss => .here :: ss.filterMap Component.ofSegment?
    | ss => ss.filterMap Component.ofSegment?

def Component.segment : Component → String
  | root => ""
  | here => "."
  | up => ".."
  | name s => s

/-- The path with the given components. -/
def ofComponents : List Component → Path
  | .root :: cs => ⟨true, cs.map Component.segment⟩
  | cs => ⟨false, cs.map Component.segment⟩

/-- Whether two paths have the same components. -/
def sameAs (p q : Path) : Bool := p.components = q.components

/-- Whether the text of a path ends in a slash. -/
def endsInSlash (p : Path) : Bool :=
  match p.segments.getLast? with
  | some s => s = ""
  | none => p.absolute

/-- The path without slashes at its end. -/
def trimSlashes (p : Path) : Path :=
  ⟨p.absolute, (p.segments.reverse.dropWhile (· = "")).reverse⟩

/-- Whether a zero character stands in a path. -/
def hasZero (p : Path) : Bool := p.segments.any fun s => s.contains '\x00'

/-- The path `q` as seen from the directory `p`: an absolute path stays as it is. -/
def join (p q : Path) : Path :=
  if q.absolute then q
  else if p = empty then q
  else if p.endsInSlash then
    if q.segments.isEmpty then p
    else ⟨p.absolute, (if p.segments.isEmpty then [] else p.segments.dropLast) ++ q.segments⟩
  else ⟨p.absolute, p.segments ++ (if q.segments.isEmpty then [""] else q.segments)⟩

/-- Drops segments at the end that count for nothing. -/
def trimEnd (absolute : Bool) (segments : List String) : List String :=
  match segments with
  | [] => []
  | s :: ss =>
      let rest := ss.reverse.dropWhile (fun t => t = "" || t = ".") |>.reverse
      if rest.isEmpty && absolute && (s = "" || s = ".") then [] else s :: rest

/-- A path without its last component; the root and the empty path have none. -/
def parent? (p : Path) : Option Path :=
  match trimEnd p.absolute p.segments with
  | [] => none
  | s :: ss => some ⟨p.absolute, trimEnd p.absolute (s :: ss).dropLast⟩

/-- The directory that a file stands in. -/
def directory (p : Path) : Path := p.parent?.getD empty

/-- The last component, if it is a name. -/
def fileName? (p : Path) : Option String :=
  match p.components.getLast? with
  | some (.name s) => some s
  | _ => none

/-- A name without its last extension. A name that has its only dot in front has no extension. -/
def stemOf (name : String) : String :=
  let cs := name.toList
  let stem := (cs.reverse.dropWhile (· ≠ '.')).drop 1 |>.reverse
  if stem.isEmpty then name else String.ofList stem

def fileStem? (p : Path) : Option String := p.fileName?.map stemOf

/-- Takes a component up into a normal path. A `..` cancels the component before it; where there is
none, or only the root, it stays, and a later `..` cancels it in turn. -/
def pushNormal (out : List Component) : Component → List Component
  | .here => out
  | .up => if out = [] ∨ out = [.root] then out ++ [.up] else out.dropLast
  | c => out ++ [c]

/-- The path with every `.` and, where there is something to cancel, every `..` taken away. -/
def normalize (p : Path) : Path := ofComponents (p.components.foldl pushNormal [])

theorem trimEnd_length_le (absolute : Bool) (segments : List String) :
    (trimEnd absolute segments).length ≤ segments.length := by
  cases segments with
  | nil => simp [trimEnd]
  | cons s ss =>
      have h := (List.dropWhile_sublist (fun t => t = "" || t = ".") (l := ss.reverse)).length_le
      simp only [List.length_reverse] at h
      simp only [trimEnd]
      split
      · simp
      · simp only [List.length_cons, List.length_reverse]
        omega

/-- Going to the parent takes at least one segment away. -/
theorem parent?_length_lt {p q : Path} (h : p.parent? = some q) :
    q.segments.length < p.segments.length := by
  unfold parent? at h
  split at h
  · simp at h
  · next s ss hs =>
    have h₁ := trimEnd_length_le p.absolute p.segments
    have h₂ := trimEnd_length_le p.absolute (s :: ss).dropLast
    rw [hs] at h₁
    obtain rfl := Option.some.inj h
    simp at h₁ h₂ ⊢
    omega

end Path

end MetaAttack
