import Formula.Source.Cursor

/-! Cursor sessions: a cursor with a stack of marks; releasing a mark puts the cursor back where
the mark saved it, unless the mark was kept. -/
namespace Formula

/-- A saved cursor, and whether what was read since is to be kept. -/
structure Mark where
  saved : Cursor
  kept : Bool := false

/-- A cursor with the marks set on it, innermost first. -/
structure Session where
  cursor : Cursor
  marks : List Mark := []

namespace Session

/-- A session over `text` starting at `origin`, without marks. -/
def start (text : ByteArray) (origin : Position) : Session := ⟨Cursor.start text origin, []⟩

/-- Applies a move to the cursor. -/
def move (s : Session) (f : Cursor → Cursor) : Session := { s with cursor := f s.cursor }

/-- Sets a mark at the cursor. -/
def mark (s : Session) : Session := { s with marks := { saved := s.cursor } :: s.marks }

/-- Keeps what was read since the mark `depth` places out from the innermost, which any scan
holding that mark may do; there must be such a mark. -/
def keepAt? (s : Session) (depth : Nat) : Option Session :=
  match s.marks[depth]? with
  | none => none
  | some m => some { s with marks := s.marks.set depth { m with kept := true } }

/-- Keeps what was read since the innermost mark; there must be one. -/
def keep? (s : Session) : Option Session := s.keepAt? 0

/-- Releases the innermost mark, putting the cursor back unless the mark was kept; there must
be one. -/
def release? (s : Session) : Option Session :=
  match s.marks with
  | [] => none
  | m :: ms => some ⟨if m.kept then s.cursor else m.saved, ms⟩

/-- What a scanner does to a session: a move of the cursor, or setting a mark, keeping any mark
still set, or releasing the innermost one. Queries such as `peek`, `slice` or `location` only
read the cursor, so they are no commands. -/
inductive Command where
  | advance
  | consume (b : UInt8)
  | eat (lit : ByteArray)
  | skipBlanks
  | takeWhile (p : UInt8 → Bool)
  | seek (target : Nat)
  | mark
  | keep (depth : Nat)
  | release

/-- Carries out a command: the answer the scanner gets (whether `consume` and `eat` moved,
`true` for the others) and the session after it. Keeping or releasing without a mark is not
possible. -/
def perform (s : Session) : Command → Option (Bool × Session)
  | .advance => some (true, s.move Cursor.advance)
  | .consume b =>
    match s.cursor.consume? b with
    | some c => some (true, s.move fun _ => c)
    | none => some (false, s)
  | .eat lit =>
    match s.cursor.eat? lit with
    | some c => some (true, s.move fun _ => c)
    | none => some (false, s)
  | .skipBlanks => some (true, s.move Cursor.skipBlanks)
  | .takeWhile p => some (true, s.move fun c => (c.takeWhile p).2)
  | .seek t => some (true, s.move (·.seek t))
  | .mark => some (true, s.mark)
  | .keep depth => (s.keepAt? depth).map (true, ·)
  | .release => s.release?.map (true, ·)

/-- Carries out commands in turn; `none` once one of them is not possible. -/
def run (s : Session) : List Command → Option Session
  | [] => some s
  | cmd :: cmds =>
    match s.perform cmd with
    | some (_, s') => s'.run cmds
    | none => none

end Session

end Formula
