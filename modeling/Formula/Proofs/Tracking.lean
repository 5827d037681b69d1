import Mathlib
import Formula.Proofs.Unread
import Formula.Source.Session

/-! Every cursor of a session stands at the walk of its start over the bytes before its offset,
and releasing a mark not kept restores the cursor it saved (`session_tracks_offsets`). -/

namespace Formula

namespace Cursor

/-- The cursor is over `text` from `origin`, and its position is the walk of `origin` over the
bytes before its offset. -/
structure Walked (text : ByteArray) (origin : Position) (c : Cursor) : Prop where
  text_eq : c.text = text
  origin_eq : c.origin = origin
  pos_eq : c.pos = origin.walk (text.data.toList.take c.offset)

variable {text : ByteArray} {origin : Position}

theorem start_walked (text : ByteArray) (origin : Position) :
    (start text origin).Walked text origin :=
  ⟨rfl, rfl, by simp [start]⟩

/-- Two cursors that walked over one text from one origin to one offset are the same cursor. -/
theorem Walked.ext {c d : Cursor} (hc : c.Walked text origin) (hd : d.Walked text origin)
    (ho : c.offset = d.offset) : c = d := by
  obtain ⟨t, o, k, p, _⟩ := c
  obtain ⟨t', o', k', p', _⟩ := d
  obtain ⟨rfl, rfl, hp⟩ := hc
  obtain ⟨ht, ho', hp'⟩ := hd
  dsimp only at ht ho' hp hp' ho
  subst ht ho' ho
  rw [hp, hp']

theorem Walked.advance {c : Cursor} (h : c.Walked text origin) : c.advance.Walked text origin := by
  obtain ⟨rfl, rfl, hp⟩ := h
  unfold Cursor.advance
  split
  · rename_i hlt
    refine ⟨rfl, rfl, ?_⟩
    -- the byte passed over is the last of those now behind the cursor
    have hb : c.text.data.toList.take (c.offset + 1) =
        c.text.data.toList.take c.offset ++ [c.text[c.offset]] := by
      rw [List.take_add_one, List.getElem?_eq_getElem (by simpa using hlt)]
      simp [ByteArray.getElem_eq_getElem_data]
    simp [hb, hp]
  · exact ⟨rfl, rfl, hp⟩

theorem Walked.forward {c : Cursor} (h : c.Walked text origin) (n : Nat) :
    (c.forward n).Walked text origin := by
  induction n generalizing c with
  | zero => exact h
  | succ n ih => exact ih h.advance

theorem Walked.rewind {c : Cursor} (h : c.Walked text origin) : c.rewind.Walked text origin :=
  ⟨h.text_eq, h.origin_eq, by simp [Cursor.rewind, h.origin_eq]⟩

theorem Walked.seek {c : Cursor} (h : c.Walked text origin) (t : Nat) :
    (c.seek t).Walked text origin := by
  unfold Cursor.seek
  dsimp only
  split
  · exact h.forward _
  · exact h.rewind.forward _

theorem Walked.skipWhile {c : Cursor} (h : c.Walked text origin) (p : UInt8 → Bool) :
    (c.skipWhile p).Walked text origin := by
  suffices ∀ n (c : Cursor), c.Walked text origin → (skipWhile.go p n c).Walked text origin from
    this _ c h
  intro n
  induction n with
  | zero => exact fun _ h => h
  | succ n ih =>
    intro c h
    simp only [skipWhile.go]
    split
    · split
      · exact ih _ h.advance
      · exact h
    · exact h

theorem Walked.skipBlanks {c : Cursor} (h : c.Walked text origin) :
    c.skipBlanks.Walked text origin :=
  h.skipWhile _

theorem Walked.takeWhile {c : Cursor} (h : c.Walked text origin) (p : UInt8 → Bool) :
    (c.takeWhile p).2.Walked text origin := by
  rw [(takeWhile_eq p c).2]
  exact h.skipWhile p

theorem Walked.eat? {c d : Cursor} (h : c.Walked text origin) {lit : ByteArray}
    (he : c.eat? lit = some d) : d.Walked text origin := by
  unfold Cursor.eat? at he
  split at he
  · cases he
    exact h.seek _
  · cases he

theorem Walked.consume? {c d : Cursor} (h : c.Walked text origin) {b : UInt8}
    (he : c.consume? b = some d) : d.Walked text origin := by
  rw [(consume?_eq_some.mp he).2]
  exact h.advance

/-- The moves a command makes of a cursor: none, over one byte, over a byte or a literal that
stands next, over blanks or bytes that pass a test, or to an offset. -/
inductive Moves (c : Cursor) : Cursor → Prop
  | stay : Moves c c
  | advance : Moves c c.advance
  | consume {b : UInt8} {d : Cursor} : c.consume? b = some d → Moves c d
  | eat {lit : ByteArray} {d : Cursor} : c.eat? lit = some d → Moves c d
  | skipBlanks : Moves c c.skipBlanks
  | takeWhile (p : UInt8 → Bool) : Moves c (c.takeWhile p).2
  | seek (t : Nat) : Moves c (c.seek t)

theorem Walked.moves {c d : Cursor} (h : c.Walked text origin) (hm : c.Moves d) :
    d.Walked text origin := by
  cases hm with
  | stay => exact h
  | advance => exact h.advance
  | consume hc => exact h.consume? hc
  | eat he => exact h.eat? he
  | skipBlanks => exact h.skipBlanks
  | takeWhile p => exact h.takeWhile p
  | seek t => exact h.seek t

end Cursor

namespace Session

variable {text : ByteArray} {origin : Position}

/-- Every cursor a session holds, the current one and those its marks saved, walked over `text`
from `origin`. -/
def Walked (text : ByteArray) (origin : Position) (s : Session) : Prop :=
  ∀ c ∈ s.cursor :: s.marks.map (·.saved), c.Walked text origin

theorem start_walked (text : ByteArray) (origin : Position) :
    (start text origin).Walked text origin := by
  simp [Walked, start, Cursor.start_walked]

theorem Walked.move {s : Session} (h : s.Walked text origin) {f : Cursor → Cursor}
    (hf : (f s.cursor).Walked text origin) : (s.move f).Walked text origin := by
  intro c hc
  rcases List.mem_cons.mp hc with rfl | hc
  · exact hf
  · exact h c (List.mem_cons_of_mem _ hc)

theorem Walked.mark {s : Session} (h : s.Walked text origin) : s.mark.Walked text origin := by
  intro c hc
  simp only [Session.mark, List.map_cons, List.mem_cons] at hc
  rcases hc with rfl | rfl | hc
  · exact h _ List.mem_cons_self
  · exact h _ List.mem_cons_self
  · exact h c (List.mem_cons_of_mem _ hc)

theorem keepAt?_eq_some {s s' : Session} {depth : Nat} : s.keepAt? depth = some s' ↔
    ∃ m, s.marks[depth]? = some m ∧ s' = ⟨s.cursor, s.marks.set depth { m with kept := true }⟩ := by
  unfold Session.keepAt?
  split
  · rename_i hm
    simp [hm]
  · rename_i m hm
    constructor
    · rintro ⟨⟩
      exact ⟨m, hm, rfl⟩
    · rintro ⟨m', hm', rfl⟩
      rw [hm] at hm'
      cases hm'
      rfl

theorem release?_eq_some {s s' : Session} : s.release? = some s' ↔
    ∃ m ms, s.marks = m :: ms ∧ s' = ⟨if m.kept then s.cursor else m.saved, ms⟩ := by
  unfold Session.release?
  split
  · rename_i hm
    simp [hm]
  · rename_i m ms hm
    constructor
    · rintro ⟨⟩
      exact ⟨m, ms, hm, rfl⟩
    · rintro ⟨m', ms', hm', rfl⟩
      rw [hm] at hm'
      cases hm'
      rfl

/-- What one command does: it moves the cursor and leaves the marks, or it sets a mark, keeps
one of the marks or releases the innermost one. -/
theorem perform_eq_some {s s' : Session} {cmd : Command} {b : Bool}
    (hp : s.perform cmd = some (b, s')) :
    (∃ c, s.cursor.Moves c ∧ s' = s.move fun _ => c) ∨ (cmd = .mark ∧ s' = s.mark) ∨
      (∃ depth, cmd = .keep depth ∧ s.keepAt? depth = some s') ∨
      (cmd = .release ∧ s.release? = some s') := by
  cases cmd with
  | advance => cases hp; exact .inl ⟨_, .advance, rfl⟩
  | consume x =>
    simp only [Session.perform] at hp
    split at hp <;> cases hp
    · exact .inl ⟨_, .consume ‹_›, rfl⟩
    · exact .inl ⟨_, .stay, rfl⟩
  | eat lit =>
    simp only [Session.perform] at hp
    split at hp <;> cases hp
    · exact .inl ⟨_, .eat ‹_›, rfl⟩
    · exact .inl ⟨_, .stay, rfl⟩
  | skipBlanks => cases hp; exact .inl ⟨_, .skipBlanks, rfl⟩
  | takeWhile p => cases hp; exact .inl ⟨_, .takeWhile p, rfl⟩
  | seek t => cases hp; exact .inl ⟨_, .seek t, rfl⟩
  | mark => cases hp; exact .inr (.inl ⟨rfl, rfl⟩)
  | keep depth =>
    obtain ⟨s₁, hk, he⟩ := Option.map_eq_some_iff.mp hp
    cases he
    exact .inr (.inr (.inl ⟨depth, rfl, hk⟩))
  | release =>
    obtain ⟨s₁, hr, he⟩ := Option.map_eq_some_iff.mp hp
    cases he
    exact .inr (.inr (.inr ⟨rfl, hr⟩))

/-- The marks `ms'` are the marks `ms`, some perhaps kept since. -/
def Kept (ms ms' : List Mark) : Prop :=
  List.Forall₂ (fun m m' => m' = m ∨ m' = { m with kept := true }) ms ms'

theorem Kept.refl (ms : List Mark) : Kept ms ms :=
  List.forall₂_same.mpr fun _ _ => .inl rfl

theorem Kept.trans {ms ms₁ ms₂ : List Mark} (h₁ : Kept ms ms₁) (h₂ : Kept ms₁ ms₂) :
    Kept ms ms₂ := by
  induction h₁ generalizing ms₂ with
  | nil => exact h₂
  | cons hm _ ih =>
    cases h₂ with
    | cons hm' h₂ =>
      -- a mark kept twice is kept once
      refine .cons ?_ (ih h₂)
      rcases hm with rfl | rfl <;> rcases hm' with rfl | rfl
      · exact .inl rfl
      all_goals exact .inr rfl

/-- Keeping a mark keeps the others as they are. -/
theorem kept_set : ∀ {ms : List Mark} {depth : Nat} {m : Mark}, ms[depth]? = some m →
    Kept ms (ms.set depth { m with kept := true })
  | [], _, _, h => by simp at h
  | m' :: ms, 0, m, h => by
    obtain rfl : m' = m := by simpa using h
    exact .cons (.inr rfl) (Kept.refl ms)
  | m' :: ms, depth + 1, m, h => .cons (.inl rfl) (kept_set (by simpa using h))

/-- Marks that were only kept since save the same cursors. -/
theorem Kept.saved {ms ms' : List Mark} (h : Kept ms ms') :
    ms'.map (·.saved) = ms.map (·.saved) := by
  induction h with
  | nil => rfl
  | cons hm _ ih => rcases hm with rfl | rfl <;> simp [ih]

theorem Walked.keepAt? {s s' : Session} (h : s.Walked text origin) {depth : Nat}
    (hk : s.keepAt? depth = some s') : s'.Walked text origin := by
  obtain ⟨m, hm, rfl⟩ := keepAt?_eq_some.mp hk
  intro c hc
  apply h c
  rwa [← (kept_set hm).saved]

theorem Walked.release? {s s' : Session} (h : s.Walked text origin) (hr : s.release? = some s') :
    s'.Walked text origin := by
  obtain ⟨m, ms, hm, rfl⟩ := release?_eq_some.mp hr
  intro c hc
  -- the cursor afterwards is the current one or the one the mark saved
  rcases List.mem_cons.mp hc with rfl | hc
  · split
    · exact h _ List.mem_cons_self
    · exact h _ (by simp [hm])
  · apply h c
    rw [hm, List.map_cons]
    exact .tail _ (.tail _ hc)

/-- One command keeps every cursor of the session where its offset says. -/
theorem Walked.perform {s s' : Session} (h : s.Walked text origin) {cmd : Command} {b : Bool}
    (hp : s.perform cmd = some (b, s')) : s'.Walked text origin := by
  obtain ⟨c, hm, rfl⟩ | ⟨-, rfl⟩ | ⟨_, -, hk⟩ | ⟨-, hr⟩ := perform_eq_some hp
  · exact h.move ((h _ List.mem_cons_self).moves hm)
  · exact h.mark
  · exact h.keepAt? hk
  · exact h.release? hr

theorem run_cons_eq_some {s s' : Session} {cmd : Command} {cmds : List Command} :
    s.run (cmd :: cmds) = some s' ↔ ∃ b s₁, s.perform cmd = some (b, s₁) ∧ s₁.run cmds = some s' := by
  simp only [run]
  split
  · rename_i b s₁ hp
    simp [hp]
  · rename_i hp
    simp [hp]

theorem run_append_eq_some {s s' : Session} {xs ys : List Command} :
    s.run (xs ++ ys) = some s' ↔ ∃ s₁, s.run xs = some s₁ ∧ s₁.run ys = some s' := by
  induction xs generalizing s with
  | nil => simp [run]
  | cons cmd xs ih =>
    simp only [List.cons_append, run_cons_eq_some, ih]
    constructor
    · rintro ⟨b, s₁, hp, s₂, h₁, h₂⟩
      exact ⟨s₂, ⟨b, s₁, hp, h₁⟩, h₂⟩
    · rintro ⟨s₂, ⟨b, s₁, hp, h₁⟩, h₂⟩
      exact ⟨b, s₁, hp, s₂, h₁, h₂⟩

/-- A run keeps every cursor of the session where its offset says. -/
theorem Walked.run {s s' : Session} (h : s.Walked text origin) {cmds : List Command}
    (hr : s.run cmds = some s') : s'.Walked text origin := by
  induction cmds generalizing s with
  | nil =>
    cases hr
    exact h
  | cons cmd cmds ih =>
    obtain ⟨b, s₁, hp, hr⟩ := run_cons_eq_some.mp hr
    exact ih (h.perform hp) hr

/-- Commands that release every mark they set, the later ones first: what runs inside the scope
of one mark. A `keep` may name any mark, also one set before the scope. -/
inductive Scoped : List Command → Prop
  | nil : Scoped []
  | step {cmd : Command} {cmds : List Command} (hm : cmd ≠ .mark) (hr : cmd ≠ .release) :
      Scoped cmds → Scoped (cmd :: cmds)
  | block {body cmds : List Command} :
      Scoped body → Scoped cmds → Scoped (.mark :: body ++ .release :: cmds)

/-- A command other than setting or releasing a mark leaves the marks, but for keeping some. -/
theorem perform_kept {s s' : Session} {cmd : Command} {b : Bool} (hm : cmd ≠ .mark)
    (hr : cmd ≠ .release) (hp : s.perform cmd = some (b, s')) : Kept s.marks s'.marks := by
  obtain ⟨c, -, rfl⟩ | ⟨rfl, -⟩ | ⟨_, -, hk⟩ | ⟨rfl, -⟩ := perform_eq_some hp
  · exact Kept.refl _
  · exact absurd rfl hm
  · obtain ⟨m, hm, rfl⟩ := keepAt?_eq_some.mp hk
    exact kept_set hm
  · exact absurd rfl hr

/-- Releasing a mark just set, after commands that release what they set, leaves the marks
that were there before it, some perhaps kept since. -/
theorem release_after_mark {s s₁ s₂ : Session} (hk : Kept s.mark.marks s₁.marks)
    (hr : s₁.release? = some s₂) : Kept s.marks s₂.marks := by
  obtain ⟨m, ms, hms, rfl⟩ := release?_eq_some.mp hr
  rw [hms] at hk
  cases hk with
  | cons _ h => exact h

/-- Commands that release every mark they set leave the marks, but for keeping some. -/
theorem Scoped.kept {cmds : List Command} (h : Scoped cmds) :
    ∀ {s s' : Session}, s.run cmds = some s' → Kept s.marks s'.marks := by
  induction h with
  | nil =>
    intro s s' hr
    cases hr
    exact Kept.refl _
  | step hm hr _ ih =>
    intro s s' hrun
    obtain ⟨b, s₁, hp, hrun⟩ := run_cons_eq_some.mp hrun
    exact (perform_kept hm hr hp).trans (ih hrun)
  | @block body cmds _ _ ihb ihc =>
    intro s s' hrun
    rw [List.cons_append, run_cons_eq_some] at hrun
    obtain ⟨_, s₁, hp, hrun⟩ := hrun
    cases hp
    obtain ⟨s₂, hb, hrun⟩ := run_append_eq_some.mp hrun
    obtain ⟨_, s₃, hp, hrun⟩ := run_cons_eq_some.mp hrun
    obtain ⟨s₄, hr, he⟩ := Option.map_eq_some_iff.mp hp
    cases he
    -- the body leaves the new mark on top of the old ones, so releasing it gives them back,
    -- some perhaps kept from inside the body
    exact (release_after_mark (ihb hb) hr).trans (ihc hrun)

/-- What a session run from the start of a text keeps, what `consume` and `eat` do when they
answer `false`, and what releasing a mark that was not kept does. -/
theorem session_tracks_offsets :
    (∀ (text : ByteArray) (origin : Position) (cmds : List Command) (s : Session),
      (start text origin).run cmds = some s →
      ∀ c ∈ s.cursor :: s.marks.map (·.saved), c.text = text ∧ c.origin = origin ∧
        c.offset ≤ text.size ∧ c.pos = origin.walk (text.data.toList.take c.offset)) ∧
    (∀ (s s' : Session) (b : UInt8), s.perform (.consume b) = some (false, s') → s' = s) ∧
    (∀ (s s' : Session) (lit : ByteArray), s.perform (.eat lit) = some (false, s') → s' = s) ∧
    (∀ (s s' : Session) (cmds : List Command), Scoped cmds → s.mark.run cmds = some s' →
      s'.marks.head?.map (·.kept) = some false →
      ∃ ms, s'.release? = some ⟨s.cursor, ms⟩ ∧ Kept s.marks ms) := by
  refine ⟨?_, ?_, ?_, ?_⟩
  · intro text origin cmds s hr c hc
    have hw := (start_walked text origin).run hr c hc
    exact ⟨hw.text_eq, hw.origin_eq, hw.text_eq ▸ c.offset_le, hw.pos_eq⟩
  · intro s s' b hp
    simp only [perform] at hp
    split at hp <;> cases hp
    rfl
  · intro s s' lit hp
    simp only [perform] at hp
    split at hp <;> cases hp
    rfl
  · intro s s' cmds h hr hk
    -- the mark is still the innermost one, not kept, so releasing it restores the cursor it saved
    obtain ⟨m, ms, hm, hms, he⟩ := List.forall₂_cons_left_iff.mp (h.kept hr)
    refine ⟨ms, ?_, hms⟩
    unfold Session.release?
    rw [he]
    rcases hm with rfl | rfl
    · rfl
    · simp [he] at hk

/-- Over `a`, a line feed and `b`: past the line feed the cursor stands at line 2, column 0; a
failed `consume` changes nothing. With a mark set at the start and another past the line feed, a
scope that moves back to the start and, from a nested mark, keeps the mark set at the start, puts
the cursor back past the line feed when its mark is released. -/
theorem session_tracks_offsets_nested :
    (start ⟨#[97, 10, 98]⟩ {}).run [.advance, .advance] =
        some ((start ⟨#[97, 10, 98]⟩ {}).move (·.seek 2)) ∧
      ((start ⟨#[97, 10, 98]⟩ {}).move (·.seek 2)).cursor.pos = ⟨2, 0⟩ ∧
      (start ⟨#[97, 10, 98]⟩ {}).perform (.consume 98) = some (false, start ⟨#[97, 10, 98]⟩ {}) ∧
      Scoped [.seek 0, .mark, .keep 2, .release] ∧
      (((start ⟨#[97, 10, 98]⟩ {}).mark.move (·.seek 2)).mark.run
          [.seek 0, .mark, .keep 2, .release] =
        some ⟨Cursor.start ⟨#[97, 10, 98]⟩ {}, [{ saved := (Cursor.start ⟨#[97, 10, 98]⟩ {}).seek 2 },
          { saved := Cursor.start ⟨#[97, 10, 98]⟩ {}, kept := true }]⟩) ∧
      ∃ ms, (⟨Cursor.start ⟨#[97, 10, 98]⟩ {}, [{ saved := (Cursor.start ⟨#[97, 10, 98]⟩ {}).seek 2 },
          { saved := Cursor.start ⟨#[97, 10, 98]⟩ {}, kept := true }]⟩ : Session).release? =
        some ⟨(Cursor.start ⟨#[97, 10, 98]⟩ {}).seek 2, ms⟩ ∧
        Kept [{ saved := Cursor.start ⟨#[97, 10, 98]⟩ {} }] ms := by
  have hrun : (start ⟨#[97, 10, 98]⟩ {}).run [.advance, .advance] =
      some ((start ⟨#[97, 10, 98]⟩ {}).move (·.seek 2)) := rfl
  -- a move, then a nested mark whose body keeps the mark two places out; nothing follows
  have hscoped : Scoped (.seek 0 :: (.mark :: [.keep 2] ++ [.release])) :=
    .step nofun nofun (.block (.step nofun nofun .nil) .nil)
  have hnested : ((start ⟨#[97, 10, 98]⟩ {}).mark.move (·.seek 2)).mark.run
        [.seek 0, .mark, .keep 2, .release] =
      some ⟨Cursor.start ⟨#[97, 10, 98]⟩ {}, [{ saved := (Cursor.start ⟨#[97, 10, 98]⟩ {}).seek 2 },
        { saved := Cursor.start ⟨#[97, 10, 98]⟩ {}, kept := true }]⟩ := rfl
  have hpos := (session_tracks_offsets.1 _ _ _ _ hrun _ List.mem_cons_self).2.2.2
  refine ⟨hrun, hpos.trans rfl, rfl, hscoped, hnested, ?_⟩
  exact session_tracks_offsets.2.2.2 _ _ _ hscoped hnested rfl

end Session

end Formula
