import MetaAttack.CommandLine.Run

/-!
# The program

Commands run on a file tree. So the program first takes over from the file system whatever its
command can come across, then runs the command, and then writes out what the command has changed. A
symbolic link counts as what it leads to.
-/

namespace MetaAttack

namespace Snapshot

/-- Runs an action that may fail. -/
def attempt {α : Type} (act : IO α) : IO (Option α) := do
  try
    return some (← act)
  catch _ => return none

/-- What the file system has under a path. -/
def lookUp (p : Path) : IO (Option FileEntry) := do
  match ← attempt (IO.FS.realPath p.text) with
  | none => return none
  | some _ =>
      match ← attempt (IO.FS.realPath (p.text ++ "/.")) with
      | some _ => return some .directory
      | none =>
          let bytes ← attempt (IO.FS.readBinFile p.text)
          return some (.file (bytes.bind fun b => String.fromUTF8? b))

/-- Takes over what a path leads to, and what is on the way. Segments that count for nothing are
left out, since they can make a path too long to be looked up. -/
def take (t : FileTree) (p : Path) : IO FileTree :=
  let segments := p.segments.filter fun s => s ≠ "" && s ≠ "."
  (List.range segments.length).foldlM (fun t n => do
    let q : Path := ⟨p.absolute, segments.take (n + 1)⟩
    if t.contains q then return t
    match ← lookUp q with
    | none => return t
    | some .directory => return (t.createDirectory q).toOption.getD t
    | some (.file text) => return (t.write q text).toOption.getD t) t

/-- The tree that has nothing but the working directory. -/
def start : IO FileTree := do
  let here := Path.ofText (← IO.currentDir).toString
  let t := (FileTree.empty.createDirectories here).1
  return (t.enter here).toOption.getD t

/-- Takes over the manifests in a directory and in those above it. -/
partial def takeManifests (t : FileTree) (dir : Path) : IO FileTree := do
  let t ← take t (dir.join Manifest.fileName)
  match dir.parent? with
  | none => return t
  | some parent => takeManifests t parent

/-- Takes over the files that some files include. -/
partial def takeIncludes (includeDirs : List Path) (t : FileTree) (seen : List Path) :
    List Path → IO FileTree
  | [] => return t
  | p :: rest => do
      if seen.any p.sameAs then takeIncludes includeDirs t seen rest
      else
        match t.load p with
        | .error _ => takeIncludes includeDirs t (p :: seen) rest
        | .ok file =>
            let names := file.spec.includes.map fun i => i.path
            let candidates := names.flatMap fun n =>
              (p.directory :: includeDirs).map fun d => d.join (.ofText n)
            let t ← candidates.foldlM take t
            let targets := names.map (t.resolve includeDirs p.directory)
            takeIncludes includeDirs t (p :: seen) (targets ++ rest)

/-- Takes over a file with all that it includes. -/
def takeSources (includeDirs : List Path) (t : FileTree) (entry : Path) : IO FileTree := do
  let t ← take t entry
  match t.canonical entry with
  | .error _ => return t
  | .ok p => takeIncludes includeDirs t [] [p]

/-- Takes over what a command can come across. -/
def forCommand : Command → IO FileTree
  | .init name dir => do
      let s : Scaffold := ⟨name, dir⟩
      let t ← [dir, s.sourceDir, s.manifestPath, s.entryPath].foldlM take (← start)
      if t.isEmptyDirectory dir then
        match ← attempt (do return (← (← IO.FS.realPath dir.text).readDir).toList) with
        | some (child :: _) =>
            return (t.write (dir.join (.ofText child.fileName)) none).toOption.getD t
        | _ => return t
      else return t
  | .check path _ => do
      let t ← take (← start) path
      if t.isDirectory path then
        let t ← takeManifests t path
        match Manifest.find? t path with
        | none => return t
        | some p =>
            match Manifest.load t p with
            | .error _ => return t
            | .ok m =>
                let root := Project.rootOf p
                takeSources (m.source.includeDirs.map root.join) t (root.join m.entryPath)
      else takeSources [] t path

/-- Writes out what a command has changed, directories before what stands in them. -/
def write (changes : List (Location × FileEntry)) : IO Unit := do
  for (l, e) in changes.mergeSort fun a b => a.1.length ≤ b.1.length do
    let path := (Path.ofLocation l).text
    match e with
    | .directory => IO.FS.createDirAll path
    | .file text => IO.FS.writeFile path (text.getD "")

end Snapshot

end MetaAttack

open MetaAttack in
def main (args : List String) : IO UInt32 := do
  match Invocation.ofArguments args with
  | .error i =>
      if i.exitCode = 0 then IO.println i.message else IO.eprintln i.message
      return i.exitCode.toUInt32
  | .ok i =>
      let t ← Snapshot.forCommand i.command
      let o := i.command.run t
      Snapshot.write (o.tree.changesSince t)
      IO.print o.output
      match o.result with
      | .ok () => pure ()
      | .error e => IO.eprintln s!"Error: {e.message}"
      return o.exitCode.toUInt32
