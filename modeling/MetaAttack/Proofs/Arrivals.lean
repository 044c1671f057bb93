import MetaAttack.Proofs.Inlining
import MetaAttack.Proofs.Intake

/-!
# What becomes of files

An analyzer comes to files that are handed over to it and to files that are included. An include is
passed by if its path was met before, in this call or an earlier one; otherwise the file is loaded,
or refused, which ends the call. A path that was refused has been met, so it is not asked for again:
the calls that come later pass it by and need not fail.

## Implementation notes

Arrivals follow a walk branch by branch. What was met before is read off the arrivals of a session
and not off the analyzer.
-/

namespace MetaAttack

/-- What becomes of a file that an analyzer comes to. -/
inductive Fate
  /-- The file is handed over. -/
  | given
  /-- The file is included, and taken for one that was met before. -/
  | passed
  | loaded
  | refused (e : FatalError)

/-- A path that an analyzer comes to. -/
structure Arrival where
  path : Path
  fate : Fate

/-- The includes that a walk comes to, in order. -/
def arrivals (l : Loader) (visited : List Path) : List (Path × Item) → List Arrival
  | [] => []
  | (_, .declaration _) :: rest => arrivals l visited rest
  | (dir, .inclusion i) :: rest =>
      let target := l.resolve dir i.path
      if hv : visited.any target.sameAs then ⟨target, .passed⟩ :: arrivals l visited rest
      else
        match hl : l.load target with
        | .error e => [⟨target, .refused e⟩]
        | .ok file =>
            have := Loader.unvisited_lt (l.load_mem _ _ _ hl) (by simpa using hv)
            let inner := file.spec.items.map fun item => (target.directory, item)
            ⟨target, .loaded⟩ :: arrivals l (visited ++ [target]) (inner ++ rest)
termination_by items => (l.unvisited visited, items.length)

section Walk

variable {l : Loader} {visited : List Path} {dir : Path} {i : Include} {e : FatalError}
variable {file : SourceFile}

/-- Passing an include by is an arrival as well. -/
theorem arrivals_of_visited (rest : List (Path × Item))
    (met : visited.any (l.resolve dir i.path).sameAs = true) :
    arrivals l visited ((dir, .inclusion i) :: rest) =
      ⟨l.resolve dir i.path, .passed⟩ :: arrivals l visited rest := by
  rw [arrivals, dif_pos met]

/-- Nothing is arrived at behind a refusal. -/
theorem arrivals_of_error (rest : List (Path × Item))
    (new : ¬ visited.any (l.resolve dir i.path).sameAs = true)
    (refused : l.load (l.resolve dir i.path) = .error e) :
    arrivals l visited ((dir, .inclusion i) :: rest) = [⟨l.resolve dir i.path, .refused e⟩] := by
  rw [arrivals, dif_neg new]
  split
  · next e' h =>
    obtain rfl := Except.error.inj (refused.symm.trans h)
    rfl
  · next h => cases refused.symm.trans h

/-- The includes of the loaded file come before the next ones of the file that includes it. -/
theorem arrivals_of_load (rest : List (Path × Item))
    (new : ¬ visited.any (l.resolve dir i.path).sameAs = true)
    (loaded : l.load (l.resolve dir i.path) = .ok file) :
    arrivals l visited ((dir, .inclusion i) :: rest) =
      ⟨l.resolve dir i.path, .loaded⟩ :: arrivals l (visited ++ [l.resolve dir i.path])
        ((file.spec.items.map fun item => ((l.resolve dir i.path).directory, item)) ++ rest) := by
  rw [arrivals, dif_neg new]
  split
  · next h => cases loaded.symm.trans h
  · next file' h =>
    obtain rfl := Except.ok.inj (loaded.symm.trans h)
    rfl

end Walk

/-! ### What was met -/

namespace Arrival

variable {before log : List Arrival} {p q : Path} {x : Fate} {l : Loader}

/-- The path was handed over, loaded or refused. -/
def Met (log : List Arrival) (p : Path) : Prop :=
  ∃ y ∈ log, y.fate ≠ .passed ∧ p.sameAs y.path = true

/-- The path was handed over or loaded. -/
def Served (log : List Arrival) (p : Path) : Prop :=
  ∃ y ∈ log, (y.fate = .given ∨ y.fate = .loaded) ∧ p.sameAs y.path = true

/-- Some include for the path was refused. -/
def Refused (log : List Arrival) (p : Path) : Prop :=
  ∃ y ∈ log, (∃ e, y.fate = .refused e) ∧ p.sameAs y.path = true

/-- A path was met because it was served, or else because it was refused. -/
theorem met_iff : Met log p ↔ Served log p ∨ Refused log p := by
  constructor
  · rintro ⟨⟨q, x⟩, hy, fate, same⟩
    cases x with
    | passed => exact absurd rfl fate
    | given => exact .inl ⟨_, hy, .inl rfl, same⟩
    | loaded => exact .inl ⟨_, hy, .inr rfl, same⟩
    | refused e => exact .inr ⟨_, hy, ⟨e, rfl⟩, same⟩
  · rintro (⟨y, hy, fate, same⟩ | ⟨y, hy, ⟨e, fate⟩, same⟩)
    · exact ⟨y, hy, by rcases fate with fate | fate <;> simp [fate], same⟩
    · exact ⟨y, hy, by simp [fate], same⟩

theorem met_append {more : List Arrival} : Met (log ++ more) p ↔ Met log p ∨ Met more p := by
  simp only [Met, List.mem_append, or_and_right, exists_or]

theorem met_singleton (h : x ≠ .passed) : Met [⟨q, x⟩] p ↔ p.sameAs q = true := by
  simp [Met, h]

/-- Passing by is not meeting: the path was met before. -/
theorem not_met_passed : ¬ Met [⟨q, .passed⟩] p := by simp [Met]

theorem Refused.append_left (h : Refused log p) (more : List Arrival) :
    Refused (log ++ more) p := by
  obtain ⟨y, hy, refused⟩ := h
  exact ⟨y, List.mem_append_left _ hy, refused⟩

/-- What becomes of an include is decided by what was met before and by the loader. -/
inductive Decided (l : Loader) (before : List Arrival) (p : Path) : Fate → Prop
  | passed (met : Met before p) : Decided l before p .passed
  | loaded {file : SourceFile} (new : ¬ Met before p) (h : l.load p = .ok file) :
      Decided l before p .loaded
  | refused {e : FatalError} (new : ¬ Met before p) (h : l.load p = .error e) :
      Decided l before p (.refused e)

/-- The paths that are visited are those that were met. -/
def Tracks (visited : List Path) (log : List Arrival) : Prop :=
  ∀ p : Path, visited.any p.sameAs = true ↔ Met log p

end Arrival

open Arrival

theorem Path.sameAs_trans {p q r : Path} (h : p.sameAs q = true) (h' : q.sameAs r = true) :
    p.sameAs r = true := by
  rw [sameAs, decide_eq_true_iff] at h h' ⊢
  exact h.trans h'

section Tracks

variable {l : Loader} {visited : List Path} {log pre post : List Arrival} {p q : Path} {x : Fate}
variable {items : List (Path × Item)} {e : FatalError}

theorem Arrival.Tracks.passed (h : Tracks visited log) :
    Tracks visited (log ++ [⟨q, .passed⟩]) := by
  intro p
  rw [h p, met_append]
  simp [not_met_passed]

/-- A path that is visited is met in the same step. -/
theorem Arrival.Tracks.concat (h : Tracks visited log) (fate : x ≠ .passed) :
    Tracks (visited ++ [q]) (log ++ [⟨q, x⟩]) := by
  intro p
  rw [met_append, met_singleton fate, ← h p]
  simp

/-- Handing over a path once more changes nothing. -/
theorem Arrival.Tracks.again (h : Tracks visited log) (met : visited.any q.sameAs = true) :
    Tracks visited (log ++ [⟨q, .given⟩]) := by
  intro p
  rw [met_append, met_singleton (by simp), ← h p, iff_self_or]
  intro same
  obtain ⟨r, hr, same'⟩ := List.any_eq_true.mp met
  exact List.any_eq_true.mpr ⟨r, hr, Path.sameAs_trans same same'⟩

/-- Each include that a walk comes to is decided by what was met before it. -/
theorem decided_of_arrivals (tracks : Tracks visited log)
    (h : arrivals l visited items = pre ++ ⟨p, x⟩ :: post) : Decided l (log ++ pre) p x := by
  -- What is in front of the include moves, one arrival a step, from `pre` to the log.
  revert log pre
  induction visited, items using walk_induction l
  case done =>
    intro log pre _ h
    rw [arrivals] at h
    simp at h
  case declaration visited dir d rest ih =>
    intro log pre tracks h
    rw [arrivals] at h
    exact ih tracks h
  case again visited dir i rest met ih =>
    intro log pre tracks h
    rw [arrivals_of_visited rest met] at h
    cases pre with
    | nil =>
        obtain ⟨⟨⟩, _⟩ := List.cons.inj h
        rw [List.append_nil]
        exact .passed ((tracks _).mp met)
    | cons y pre =>
        obtain ⟨rfl, behind⟩ := List.cons.inj h
        have later := ih (tracks.passed (q := l.resolve dir i.path)) behind
        rwa [← List.append_cons] at later
  case refused visited dir i rest e new refused =>
    intro log pre tracks h
    rw [arrivals_of_error rest new refused] at h
    obtain ⟨rfl, only⟩ | ⟨_, none⟩ := List.singleton_eq_append_iff.mp h
    · obtain ⟨⟨⟩, _⟩ := List.cons.inj only
      rw [List.append_nil]
      exact .refused (mt (tracks _).mpr new) refused
    · cases none
  case enter visited dir i rest file new loaded ih =>
    intro log pre tracks h
    rw [arrivals_of_load rest new loaded] at h
    cases pre with
    | nil =>
        obtain ⟨⟨⟩, _⟩ := List.cons.inj h
        rw [List.append_nil]
        exact .loaded (mt (tracks _).mpr new) loaded
    | cons y pre =>
        obtain ⟨rfl, behind⟩ := List.cons.inj h
        have later := ih (tracks.concat (x := .loaded) (by simp)) behind
        rwa [← List.append_cons] at later

/-- A walk ends with the include that is refused. -/
theorem eq_nil_of_refused (h : arrivals l visited items = pre ++ ⟨p, .refused e⟩ :: post) :
    post = [] := by
  revert pre
  induction visited, items using walk_induction l
  case done =>
    intro pre h
    rw [arrivals] at h
    simp at h
  case declaration visited dir d rest ih =>
    intro pre h
    rw [arrivals] at h
    exact ih h
  case again visited dir i rest met ih =>
    intro pre h
    rw [arrivals_of_visited rest met] at h
    cases pre with
    | nil => cases (List.cons.inj h).1
    | cons y pre => exact ih (List.cons.inj h).2
  case refused visited dir i rest e new refused =>
    intro pre h
    rw [arrivals_of_error rest new refused] at h
    obtain ⟨_, only⟩ | ⟨_, none⟩ := List.singleton_eq_append_iff.mp h
    · exact (List.cons.inj only).2 ▸ rfl
    · cases none
  case enter visited dir i rest file new loaded ih =>
    intro pre h
    rw [arrivals_of_load rest new loaded] at h
    cases pre with
    | nil => cases (List.cons.inj h).1
    | cons y pre => exact ih (List.cons.inj h).2

/-- What is visited after a walk is what was met before it and on it. -/
theorem tracks_walk (tracks : Tracks visited log) :
    Tracks (walk l visited items).visited (log ++ arrivals l visited items) := by
  revert log
  induction visited, items using walk_induction l
  case done visited =>
    intro log tracks
    rw [arrivals, walk, List.append_nil]
    exact tracks
  case declaration visited dir d rest ih =>
    intro log tracks
    rw [arrivals, walk]
    exact ih tracks
  case again visited dir i rest met ih =>
    intro log tracks
    rw [arrivals_of_visited rest met, walk_of_visited rest met, List.append_cons]
    exact ih tracks.passed
  case refused visited dir i rest e new refused =>
    intro log tracks
    rw [arrivals_of_error rest new refused, walk_of_error rest new refused]
    exact tracks.concat (by simp)
  case enter visited dir i rest file new loaded ih =>
    intro log tracks
    have later := ih (tracks.concat (q := l.resolve dir i.path) (x := .loaded) (by simp))
    rw [← List.append_cons] at later
    rw [arrivals_of_load rest new loaded, walk_of_load rest new loaded]
    exact later

/-- A walk ends early exactly where it comes to an include that is refused. -/
theorem fatal_walk_iff :
    (walk l visited items).fatal = some e ↔ ∃ p, ⟨p, .refused e⟩ ∈ arrivals l visited items := by
  induction visited, items using walk_induction l with
  | done visited =>
      rw [arrivals, walk]
      simp
  | declaration visited dir d rest ih =>
      rw [arrivals, walk]
      exact ih
  | again visited dir i rest met ih =>
      rw [arrivals_of_visited rest met, walk_of_visited rest met, ih]
      simp
  | refused visited dir i rest e' new refused =>
      rw [arrivals_of_error rest new refused, walk_of_error rest new refused]
      simp [eq_comm]
  | enter visited dir i rest file new loaded ih =>
      rw [arrivals_of_load rest new loaded, walk_of_load rest new loaded]
      simpa using ih

end Tracks

/-! ### Sessions -/

namespace Analyzer

variable {a : Analyzer} {f g : Feed} {fs : List Feed} {log : List Arrival} {p : Path}
variable {e : FatalError}

/-- The analyzer after a call. -/
def next (a : Analyzer) (f : Feed) : Analyzer := (a.feed f.loader f.path f.spec).1

/-- What a call has come across. -/
def call (a : Analyzer) (f : Feed) : Walk := (a.feed f.loader f.path f.spec).2

/-- The includes that a call comes to, in order; a file that was visited before is not walked. -/
def arrivals (a : Analyzer) (f : Feed) : List Arrival :=
  if a.visited.any f.path.sameAs then []
  else MetaAttack.arrivals f.loader (a.visited ++ [f.path])
    (f.spec.items.map fun item => (f.path.directory, item))

/-- The files that the calls of a session come to, in order. -/
def history (a : Analyzer) : List Feed → List Arrival
  | [] => []
  | f :: fs => ⟨f.path, .given⟩ :: a.arrivals f ++ (a.next f).history fs

theorem arrivals_of_visited (met : a.visited.any f.path.sameAs = true) : a.arrivals f = [] := by
  rw [arrivals, if_pos met]

/-- A call for a new path arrives at what a walk through its file arrives at. -/
theorem arrivals_of_new (new : ¬ a.visited.any f.path.sameAs = true) :
    a.arrivals f = MetaAttack.arrivals f.loader (a.visited ++ [f.path])
      (f.spec.items.map fun item => (f.path.directory, item)) := by
  rw [arrivals, if_neg new]

/-- Nothing happens in a call for a file that was visited before. -/
theorem call_of_visited (met : a.visited.any f.path.sameAs = true) :
    a.next f = a ∧ a.call f = ⟨[], a.visited, [], none⟩ := by
  rw [next, call, feed_of_visited met]
  exact ⟨rfl, rfl⟩

theorem call_of_new (new : ¬ a.visited.any f.path.sameAs = true) :
    (a.next f).visited = (a.call f).visited ∧
      a.call f = walk f.loader (a.visited ++ [f.path])
        (f.spec.items.map fun item => (f.path.directory, item)) := by
  rw [next, call, feed_of_new new]
  exact ⟨rfl, rfl⟩

/-- A call fails exactly where it comes to an include that is refused. -/
theorem fatal_call_iff : (a.call f).fatal = some e ↔ ∃ p, ⟨p, .refused e⟩ ∈ a.arrivals f := by
  by_cases met : a.visited.any f.path.sameAs = true
  · rw [(call_of_visited met).2, arrivals_of_visited met]
    simp
  · rw [(call_of_new met).2, arrivals_of_new met]
    exact fatal_walk_iff

/-- One call keeps track of what was met. -/
theorem tracks_next (tracks : Tracks a.visited log) :
    Tracks (a.next f).visited (log ++ ⟨f.path, .given⟩ :: a.arrivals f) := by
  rw [List.append_cons]
  by_cases met : a.visited.any f.path.sameAs = true
  · rw [(call_of_visited met).1, arrivals_of_visited met, List.append_nil]
    exact tracks.again met
  · rw [(call_of_new met).1, (call_of_new met).2, arrivals_of_new met]
    exact tracks_walk (tracks.concat (by simp))

/-- Every session keeps track of what was met, by induction on its calls. -/
theorem tracks_run (fs : List Feed) (tracks : Tracks a.visited log) :
    Tracks (a.run fs).visited (log ++ a.history fs) := by
  induction fs generalizing a log with
  | nil => rwa [history, List.append_nil]
  | cons f fs ih =>
      have later := ih (tracks_next tracks (f := f))
      rwa [List.append_assoc] at later

/-- The paths that were visited in a session are those that it has met. -/
theorem tracks_run_empty (fs : List Feed) : Tracks (empty.run fs).visited (empty.history fs) :=
  tracks_run fs (show Tracks empty.visited [] from fun p => by simp [empty, Met])

/-- Each include that a call comes to is decided by what the session has met before it. -/
theorem decided_of_call {pre post : List Arrival} {x : Fate}
    (h : (empty.run fs).arrivals f = pre ++ ⟨p, x⟩ :: post) :
    Decided f.loader (empty.history fs ++ ⟨f.path, .given⟩ :: pre) p x := by
  by_cases met : (empty.run fs).visited.any f.path.sameAs = true
  · rw [arrivals_of_visited met] at h
    simp at h
  · rw [arrivals_of_new met] at h
    have decided := decided_of_arrivals ((tracks_run_empty fs).concat (x := .given) (by simp)) h
    rwa [← List.append_cons] at decided

/-- A call that comes to one more include has not refused one before. -/
theorem not_refused_of_arrivals {pre post : List Arrival} {y : Arrival}
    (h : a.arrivals f = pre ++ y :: post) : ¬ Refused pre p := by
  rintro ⟨⟨q, _⟩, hz, ⟨e, rfl⟩, _⟩
  obtain ⟨front, back, rfl⟩ := List.append_of_mem hz
  rw [List.append_assoc, List.cons_append] at h
  by_cases met : a.visited.any f.path.sameAs = true
  · rw [arrivals_of_visited met] at h
    simp at h
  · rw [arrivals_of_new met] at h
    simpa using eq_nil_of_refused h

/-- Where a path was refused in a session, a call has failed. -/
theorem exists_of_refused (h : Refused (a.history fs) p) :
    ∃ before g after e, fs = before ++ g :: after ∧ ((a.run before).call g).fatal = some e := by
  obtain ⟨⟨q, _⟩, hy, ⟨e, rfl⟩, _⟩ := h
  induction fs generalizing a with
  | nil => cases hy
  | cons f fs ih =>
      rw [history, List.mem_append, List.mem_cons] at hy
      rcases hy with (given | here) | later
      · cases given
      · exact ⟨[], f, fs, e, rfl, fatal_call_iff.mpr ⟨q, here⟩⟩
      · obtain ⟨before, g, after, e, rfl, failed⟩ := ih later
        exact ⟨f :: before, g, after, e, rfl, failed⟩

/-- The last call of a session comes after all others. -/
theorem run_concat (fs : List Feed) (f : Feed) : a.run (fs ++ [f]) = (a.run fs).next f := by
  induction fs generalizing a with
  | nil => rfl
  | cons g fs ih => exact ih

/-- A file that was handed over is not walked again, whatever has become of it. -/
theorem visited_run_concat (fs : List Feed) (f : Feed) :
    (empty.run (fs ++ [f])).visited.any f.path.sameAs = true := by
  have tracks := tracks_next (tracks_run_empty fs) (f := f)
  have here : f.path.sameAs f.path = true := by simp [Path.sameAs]
  rw [run_concat, tracks f.path]
  exact ⟨⟨f.path, .given⟩, by simp, by simp, here⟩

/-- A call fails exactly where it comes to an include that is refused. An include of a file that its
loader refuses, and that was neither handed over nor loaded before, is refused if the path was not
refused before, and passed by if it was; in that case an earlier call has failed. A call that is
repeated does not fail, whatever its loader serves. -/
theorem fatal_unless_refused_before (fs : List Feed) (f : Feed) :
    (∀ e, ((empty.run fs).call f).fatal = some e ↔
      ∃ p, ⟨p, .refused e⟩ ∈ (empty.run fs).arrivals f) ∧
    (∀ pre p x post e, (empty.run fs).arrivals f = pre ++ ⟨p, x⟩ :: post →
      f.loader.load p = .error e → ¬ Served (empty.history fs ++ ⟨f.path, .given⟩ :: pre) p →
        (¬ Refused (empty.history fs) p → x = .refused e ∧ ((empty.run fs).call f).fatal = some e) ∧
        (Refused (empty.history fs) p → x = .passed)) ∧
    (∀ p, Refused (empty.history fs) p →
      ∃ before g after e, fs = before ++ g :: after ∧
        ((empty.run before).call g).fatal = some e) ∧
    ∀ l, ((empty.run (fs ++ [f])).call { f with loader := l }).fatal = none := by
  refine ⟨fun e => fatal_call_iff, ?_, fun p => exists_of_refused, fun l => ?_⟩
  · intro pre p x post e split refused unserved
    have failed : x = .refused e → ((empty.run fs).call f).fatal = some e := by
      rintro rfl
      exact fatal_call_iff.mpr ⟨p, by simp [split]⟩
    refine ⟨fun new => ?_, fun before => ?_⟩
    · cases decided_of_call split with
      | passed met =>
          obtain ⟨⟨q, _⟩, hy, ⟨e', rfl⟩, same⟩ := (met_iff.mp met).resolve_left unserved
          rw [List.mem_append, List.mem_cons] at hy
          rcases hy with earlier | given | here
          · exact absurd ⟨_, earlier, ⟨e', rfl⟩, same⟩ new
          · cases given
          · exact absurd ⟨_, here, ⟨e', rfl⟩, same⟩ (not_refused_of_arrivals split)
      | loaded _ h => cases refused.symm.trans h
      | refused _ h =>
          obtain rfl := Except.error.inj (refused.symm.trans h)
          exact ⟨rfl, failed rfl⟩
    · have met := met_iff.mpr (.inr (before.append_left (⟨f.path, .given⟩ :: pre)))
      cases decided_of_call split with
      | passed _ => rfl
      | loaded new _ | refused new _ => exact absurd met new
  · have met := visited_run_concat fs f
    rw [(call_of_visited (f := { f with loader := l }) met).2]

/-! ### A missing file that is asked for again -/

namespace MissingFile

/-- A file with one include, of a file that is missing. -/
def including (path : String) : Feed where
  loader := MemoryFiles.empty.loader
  path := .ofText path
  spec := ⟨[.inclusion ⟨"missing.mal", ⟨0, 21, 1⟩⟩]⟩

theorem call_main : empty.call (including "main.mal") =
    ⟨[], [.ofText "main.mal", .ofText "missing.mal"], [],
      some (.unreadable (.ofText "missing.mal") .notInCollection)⟩ := by
  have new : ¬ empty.visited.any (including "main.mal").path.sameAs = true := by decide
  rw [(call_of_new new).2]
  exact walk_of_error [] (by decide +kernel) rfl

theorem visited_main : (empty.run [including "main.mal"]).visited =
    [.ofText "main.mal", .ofText "missing.mal"] := by
  have new : ¬ empty.visited.any (including "main.mal").path.sameAs = true := by decide
  change (empty.next (including "main.mal")).visited = _
  rw [(call_of_new new).1, call_main]

end MissingFile

open MissingFile in
/-- The first call that includes the missing file fails. The same call does not fail again, nor does
one for another file that includes it. -/
theorem fatal_missingFile :
    (empty.call (including "main.mal")).fatal =
        some (.unreadable (.ofText "missing.mal") .notInCollection) ∧
      ((empty.run [including "main.mal"]).call (including "main.mal")).fatal = none ∧
      ((empty.run [including "main.mal"]).call (including "other.mal")).fatal = none := by
  refine ⟨by rw [call_main], ?_, ?_⟩
  · rw [(call_of_visited _).2]
    rw [visited_main]
    decide +kernel
  · have new : ¬ (empty.run [including "main.mal"]).visited.any
        (including "other.mal").path.sameAs = true := by
      rw [visited_main]
      decide +kernel
    have met : [Path.ofText "main.mal", .ofText "missing.mal", .ofText "other.mal"].any
        (MemoryFiles.empty.loader.resolve (Path.ofText "other.mal").directory
          "missing.mal").sameAs = true := by decide +kernel
    rw [(call_of_new new).2, visited_main]
    have passed := walk_of_visited (i := ⟨"missing.mal", ⟨0, 21, 1⟩⟩) [] met
    refine (congrArg Walk.fatal passed).trans ?_
    rw [walk]

end Analyzer

end MetaAttack
