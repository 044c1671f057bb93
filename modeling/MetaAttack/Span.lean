/-!
# Spans

A span is a stretch of a source text: two byte offsets and the line of the first one. Merging keeps
the line of whichever span starts first, so a merged span still names the line it starts on.
-/

namespace MetaAttack

/-- A stretch of a source, from the byte `start` up to but not including the byte `stop`. Lines
count from 1; line 0 means that no line is known. -/
structure Span where
  start : Nat
  stop : Nat
  line : Nat
deriving DecidableEq, Repr, Inhabited

namespace Span

/-- The span of what has no place in any source. -/
def nowhere : Span := ⟨0, 0, 0⟩

/-- The least span over both spans. -/
def merge (a b : Span) : Span :=
  if a.start ≤ b.start then ⟨a.start, max a.stop b.stop, a.line⟩
  else ⟨b.start, max a.stop b.stop, b.line⟩

/-- The number of bytes covered; a span that stops before it starts covers none. -/
def length (s : Span) : Nat := s.stop - s.start

@[simp] theorem merge_start (a b : Span) : (a.merge b).start = min a.start b.start := by
  grind [merge]

@[simp] theorem merge_stop (a b : Span) : (a.merge b).stop = max a.stop b.stop := by
  grind [merge]

/-- Where the first span starts first, it gives the line. -/
theorem merge_line_of_le {a b : Span} (h : a.start ≤ b.start) : (a.merge b).line = a.line := by
  simp [merge, h]

end Span

end MetaAttack
