import Formula.Proofs.Numerals
import Formula.Proofs.Reading

/-! Where reading reports trouble: at an offset of the text, with its line and column, and past
the blanks when the trouble is at a lexeme (`parse_diagnostics_placed`). -/

namespace Formula

namespace Position

/-- The line counter moves on at each line feed. -/
theorem walk_line (p : Position) (bs : List UInt8) :
    (p.walk bs).line = p.line + (bs.count 10).toUInt32 := by
  induction bs generalizing p with
  | nil => simp
  | cons b bs ih =>
    rw [walk_cons, ih, List.count_cons]
    by_cases h : b = 10
    · simp only [next, h, if_true, beq_self_eq_true, UInt32.ofNat_add]
      rw [UInt32.add_assoc, UInt32.add_comm 1]
      rfl
    · simp [next, h]

/-- After a line feed the column counts the bytes since the last one; before any, it counts on
from where it started. -/
theorem walk_column (p : Position) (bs : List UInt8) : (p.walk bs).column =
    if 10 ∈ bs then (bs.reverse.takeWhile (· != 10)).length.toUInt64
    else p.column + bs.length.toUInt64 := by
  -- from the last byte, which either is the line feed that resets the column or moves it on
  induction bs using List.reverseRecOn with
  | nil => simp
  | append_singleton bs b ih =>
    rw [walk_append, walk_cons, walk_nil, List.reverse_append]
    by_cases hb : b = 10
    · simp [next, hb]
    · have hn : 10 ∈ bs ++ [b] ↔ 10 ∈ bs := by simp [Ne.symm hb]
      simp only [next, hb, if_false, ih, hn, List.reverse_singleton, List.singleton_append,
        List.takeWhile_cons, bne_iff_ne, ne_eq, not_false_eq_true, List.length_cons,
        List.length_append]
      split <;> simp [UInt64.ofNat_add, UInt64.add_assoc]

end Position

/-- The line of byte `offset` of `text`, counted from `1`: one more than the line feeds before
it, as a 32-bit counter. -/
def lineAt (text : ByteArray) (offset : Nat) : UInt32 :=
  1 + ((text.data.toList.take offset).count 10).toUInt32

/-- The column of byte `offset` of `text`, counted from `0`: the bytes since the last line feed
before it, cut to 32 bits. -/
def columnAt (text : ByteArray) (offset : Nat) : UInt32 :=
  ((text.data.toList.take offset).reverse.takeWhile (· != 10)).length.toUInt32

/-- How a message names byte `offset` of `text`: the byte, or the end of input past the last
one. -/
def describeAt (text : ByteArray) (offset : Nat) : String :=
  match text[offset]? with
  | some b => Ascii.describe b
  | none => "end of input"

theorem describe_ne_end (b : UInt8) : Ascii.describe b ≠ "end of input" := by
  intro h
  have hl := congrArg (fun s : String => s.toList.head?) h
  unfold Ascii.describe at hl
  split at hl <;> simp at hl

/-- Only past the last byte is the end of input named. -/
theorem describeAt_eq_end_iff {text : ByteArray} {offset : Nat} (h : offset ≤ text.size) :
    describeAt text offset = "end of input" ↔ offset = text.size := by
  unfold describeAt
  split
  · rename_i b hb
    have : offset < text.size := by
      by_contra hn
      have : text[offset]? = none := by simpa using hn
      simp [this] at hb
    simp only [describe_ne_end, false_iff]
    omega
  · rename_i hb
    have : text.size ≤ offset := by simpa using hb
    simp only [true_iff]
    omega

/-- Faults that blame the text at a lexeme: a byte that cannot start an operand, a missing
closer, text after the expression. -/
def Fault.atLexeme : Fault → Bool
  | .unexpectedCharacter | .unterminatedStructure | .trailingInput => true
  | _ => false

namespace Cursor

variable {text : ByteArray} {c : Cursor}

theorem Walked.location (h : c.Walked text {}) :
    c.location = ⟨c.offset, lineAt text c.offset, columnAt text c.offset⟩ := by
  obtain ⟨rfl, -, hp⟩ := h
  simp only [Cursor.location, hp, Position.walk_line, Position.walk_column, lineAt, columnAt]
  congr 1
  split
  · exact UInt64.toUInt32_ofNat' _
  · rename_i hn
    rw [List.takeWhile_eq_self_iff.mpr (fun x hx => by
      have : x ≠ 10 := fun h => hn (by simpa [h] using hx)
      simpa using this)]
    simp [UInt64.toUInt32_ofNat']

theorem Walked.describe (h : c.Walked text {}) : c.describe = describeAt text c.offset := by
  obtain ⟨rfl, -, -⟩ := h
  rfl

theorem Walked.operator? {α : Type} {spelling : α → String} {ops : List α} {op : Spanned α}
    {d : Cursor} (h : c.Walked text {}) (ho : c.operator? spelling ops = some (op, d)) :
    d.Walked text {} := by
  induction ops with
  | nil => cases ho
  | cons o ops ih =>
    unfold Cursor.operator? at ho
    split at ho
    · cases ho
      exact h.eat? ‹_›
    · exact ih ho

/-- Past the blanks, the next byte is no blank. -/
theorem peek?_skipBlanks (c : Cursor) : ∀ b ∈ c.skipBlanks.peek?, Ascii.isBlank b = false := by
  rw [peek?_eq, skipBlanks_ahead]
  exact Ascii.head_dropWhile _

end Cursor

namespace Diagnostic

/-- How a diagnostic at a lexeme names `found`, what stands there: a byte that cannot start an
operand is reported by the primary reader, a missing closer that stops a strict reading and text
after the expression name what was found in their place. A missing closer that a lenient reading
repairs names only the closer. -/
def Names (d : Diagnostic) (found : String) : Prop :=
  match d.fault, d.severity with
  | some .unexpectedCharacter, _ => d.message = "expected primary expression but found " ++ found
  | some .unterminatedStructure, .error =>
    ∃ what, d.message = "expected " ++ what ++ " but found " ++ found
  | some .trailingInput, .error => d.message = "unexpected " ++ found ++ " after expression"
  | some .trailingInput, .warning => d.message = "ignored trailing input starting at " ++ found
  | _, _ => True

/-- Where a diagnostic stands in `text`, and what it says of the byte there: its location is an
offset of the text with the line and column of that offset; it blames no name; trouble at a
lexeme stands on no blank; and its message names the byte at its offset, or the end of input
just when the offset is the end of the text. -/
structure Placed (text : ByteArray) (d : Diagnostic) : Prop where
  offset_le : d.location.offset ≤ text.size
  line_eq : d.location.line = lineAt text d.location.offset
  column_eq : d.location.column = columnAt text d.location.offset
  not_name : d.fault ≠ some .expectedIdentifier
  past_blanks : ∀ f ∈ d.fault, f.atLexeme = true →
    ∀ b ∈ text[d.location.offset]?, Ascii.isBlank b = false
  names : d.Names (describeAt text d.location.offset)
  end_iff : describeAt text d.location.offset = "end of input" ↔ d.location.offset = text.size

/-- What a diagnostic raised at cursor `c` says of it: it stands at the cursor's location and
blames no name; trouble at a lexeme is reported past the blanks; and its message names what
stands at the cursor. -/
structure MadeAt (d : Diagnostic) (c : Cursor) : Prop where
  location_eq : d.location = c.location
  not_name : d.fault ≠ some .expectedIdentifier
  past_blanks : ∀ f ∈ d.fault, f.atLexeme = true → ∀ b ∈ c.peek?, Ascii.isBlank b = false
  names : d.Names c.describe

/-- A diagnostic raised at a cursor that walked over `text` from its first byte. -/
def Raised (text : ByteArray) (d : Diagnostic) : Prop :=
  ∃ c : Cursor, c.Walked text {} ∧ d.MadeAt c

variable {text : ByteArray} {d : Diagnostic}

/-- A diagnostic raised at a cursor over the text stands where the cursor's position says. -/
theorem Raised.placed (h : d.Raised text) : d.Placed text := by
  obtain ⟨c, hc, hl, hn, hb, hm⟩ := h
  have ho : d.location.offset = c.offset := by rw [hl]; rfl
  have hle : c.offset ≤ text.size := hc.text_eq ▸ c.offset_le
  refine ⟨ho ▸ hle, ?_, ?_, hn, ?_, ?_, ?_⟩
  · rw [hl, hc.location]
  · rw [hl, hc.location]
  · rw [ho, ← hc.text_eq]
    exact hb
  · rw [ho, ← hc.describe]
    exact hm
  · rw [ho]
    exact describeAt_eq_end_iff hle

/-- An error that is not at a lexeme, raised at a cursor that walked over the text. -/
theorem raised_of_not_lexeme {c : Cursor} (hc : c.Walked text {}) {message : String} {f : Fault}
    (hf : f.atLexeme = false) (hn : f ≠ .expectedIdentifier) :
    (Diagnostic.error c.location message f).Raised text := by
  refine ⟨c, hc, rfl, by simpa [Diagnostic.error] using hn, ?_, ?_⟩
  · intro f' hf' hl
    simp only [Diagnostic.error, Option.mem_def, Option.some.injEq] at hf'
    subst hf'
    simp [hf] at hl
  · cases f <;> simp_all [Names, Diagnostic.error, Fault.atLexeme]

/-- A diagnostic raised past the blanks that follow a cursor over the text. -/
theorem raised_past_blanks {c : Cursor} (hc : c.Walked text {})
    (hl : d.location = c.skipBlanks.location) (hn : d.fault ≠ some .expectedIdentifier)
    (hm : d.Names c.skipBlanks.describe) : d.Raised text :=
  ⟨c.skipBlanks, hc.skipBlanks, hl, hn, fun _ _ _ => c.peek?_skipBlanks, hm⟩

end Diagnostic

/-- A reading over `text`: its cursor walked over the text from its first byte, and the warnings
it issued were raised at such cursors. -/
structure Reading.Over (text : ByteArray) (r : Reading) : Prop where
  cursor : r.cursor.Walked text {}
  warnings : ∀ w ∈ r.warnings, w.Raised text

/-- A reading moved to a cursor over the text is still over the text. -/
theorem Reading.Over.move {text : ByteArray} {r : Reading} {c : Cursor} (hr : r.Over text)
    (hc : c.Walked text {}) : Reading.Over text ⟨c, r.warnings⟩ :=
  ⟨hc, hr.warnings⟩

/-- Past the blanks, a reading is still over the text. -/
theorem Reading.Over.skipBlanks {text : ByteArray} {r : Reading} (hr : r.Over text) :
    Reading.Over text ⟨r.cursor.skipBlanks, r.warnings⟩ :=
  hr.move hr.cursor.skipBlanks

namespace Cursor

/-- Under a digit there is no sign, so the run of digits is not empty. -/
theorem digitRun_ne_nil {c : Cursor} (hd : Ascii.isDigit c.peek = true) : digitRun c.ahead ≠ [] := by
  rw [peek_eq] at hd
  cases hc : c.ahead with
  | nil =>
    rw [hc] at hd
    exact absurd hd (by decide)
  | cons b bs =>
    rw [hc, List.headD_cons] at hd
    have hb : b ≠ 45 := by
      rintro rfl
      exact absurd hd (by decide)
    simp [digitRun, signLength, hb, hd]

end Cursor

namespace Reader

variable {text : ByteArray}

/-- The outcome of a reading step over `text`: a reading over the text, and an error raised in it
when the step fails. -/
inductive Landed {α : Type} (text : ByteArray) : EStateM.Result Diagnostic Reading α → Prop
  | ok {a : α} {r : Reading} : r.Over text → Landed text (.ok a r)
  | error {d : Diagnostic} {r : Reading} : r.Over text → d.Raised text → Landed text (.error d r)

/-- A reading step that keeps readings over `text`, and fails only with errors raised in it. -/
def Places {α : Type} (text : ByteArray) (x : Reader α) : Prop :=
  ∀ r, r.Over text → Landed text (x r)

theorem Landed.bind {α β : Type} {x : Reader α} {f : α → Reader β} {r : Reading}
    (hx : Landed text (x r)) (hf : ∀ a r₁, r₁.Over text → Landed text (f a r₁)) :
    Landed text (EStateM.bind x f r) := by
  unfold EStateM.bind
  cases h : x r with
  | ok a r₁ =>
    rw [h] at hx
    cases hx with
    | ok h₁ => exact hf a r₁ h₁
  | error d r₁ =>
    rw [h] at hx
    cases hx with
    | error h₁ hd => exact .error h₁ hd

section Steps

variable {α : Type} {r : Reading} (hr : r.Over text)
include hr

theorem pure_landed (a : α) : Landed text ((pure a : Reader α) r) := .ok hr

theorem moveTo_landed {c : Cursor} (hc : c.Walked text {}) : Landed text (moveTo c r) :=
  .ok (hr.move hc)

theorem warn_landed {d : Diagnostic} (hd : d.Raised text) : Landed text (warn d r) := by
  refine .ok ⟨hr.cursor, fun w hw => ?_⟩
  rcases List.mem_append.mp hw with hw | hw
  · exact hr.warnings w hw
  · rw [List.mem_singleton.mp hw]
    exact hd

theorem throw_landed {d : Diagnostic} (hd : d.Raised text) :
    Landed text ((throw d : Reader α) r) :=
  .error hr hd

theorem scan_ok_landed {s : Cursor → Except Diagnostic (α × Cursor)} {a : α} {c : Cursor}
    (hs : s r.cursor = .ok (a, c)) (hc : c.Walked text {}) : Landed text (scan s r) := by
  unfold scan
  rw [hs]
  exact .ok (hr.move hc)

theorem scan_error_landed {s : Cursor → Except Diagnostic (α × Cursor)} {d : Diagnostic}
    (hs : s r.cursor = .error d) (hd : d.Raised text) : Landed text (scan s r) := by
  unfold scan
  rw [hs]
  exact .error hr hd

end Steps

section Scans

variable {c : Cursor} {w : List Diagnostic} (hr : Reading.Over text ⟨c, w⟩)
include hr

/-- Under a letter a name is read. -/
theorem identifier_landed (hl : Ascii.isLetter c.peek = true) :
    Landed text (scan Cursor.identifier ⟨c, w⟩) :=
  scan_ok_landed hr (Cursor.identifier_of_letter hl) (hr.cursor.skipWhile _)

/-- Under a digit a number is read, or one too large for 64 bits is blamed on its first byte. -/
theorem number_landed (hd : Ascii.isDigit c.peek = true) :
    Landed text (scan Cursor.number ⟨c, w⟩) := by
  have hne := Cursor.digitRun_ne_nil hd
  by_cases hv : Cursor.Fits64 (Cursor.signedValue c.ahead)
  · obtain ⟨x, -, hn⟩ := Cursor.number_of_fits hne hv
    exact scan_ok_landed hr hn (hr.cursor.forward _)
  · obtain ⟨msg, hn⟩ := Cursor.number_of_not_fits hne hv
    exact scan_error_landed hr hn (Diagnostic.raised_of_not_lexeme hr.cursor (by rfl) (by decide))

end Scans

open Formula.Cursor

section Readers

variable {expr : Reader Expr}

theorem closer_places (mode : Mode) (b : Bracket) (openAt : Nat) :
    Places text (closer mode b openAt) := by
  intro r hr
  simp only [closer, bind, blanks_bind, cursor_bind]
  split
  · exact moveTo_landed hr.skipBlanks hr.cursor.skipBlanks.advance
  · -- the complaint is made past the blanks, at the byte found in the closer's place
    cases mode with
    | strict =>
      exact throw_landed hr.skipBlanks
        (Diagnostic.raised_past_blanks hr.cursor rfl (by simp [Diagnostic.error]) ⟨_, rfl⟩)
    | lenient =>
      exact warn_landed hr.skipBlanks
        (Diagnostic.raised_past_blanks hr.cursor rfl (by simp [Diagnostic.warning]) trivial)

/-- The last step of the bracketed forms: the closer, then the node over the span read. -/
theorem close_places (mode : Mode) (b : Bracket) (openAt : Nat) (f : Cursor → Expr) :
    Places text (EStateM.bind (closer mode b openAt) fun _ =>
      EStateM.bind cursor fun c => pure (f c)) :=
  fun r hr => Landed.bind (closer_places mode b openAt r hr) fun _ _ h₁ => pure_landed h₁ _

theorem items_places (hx : Places text expr) (n : Nat) (acc : Array Expr) :
    Places text (items expr n acc) := by
  -- each comma costs one unit of `n`, which the induction follows
  induction n generalizing acc with
  | zero =>
    intro r hr
    rw [items]
    simp only [bind]
    refine Landed.bind (hx r hr) fun e r₁ h₁ => ?_
    exact pure_landed h₁.skipBlanks _
  | succ k ih =>
    intro r hr
    rw [items]
    simp only [bind]
    refine Landed.bind (hx r hr) fun e r₁ h₁ => ?_
    simp only [blanks_bind, cursor_bind]
    cases hd : r₁.cursor.skipBlanks.eat? ",".toUTF8 with
    | some d =>
      simp only [moveTo_bind]
      exact ih _ _ (h₁.move (h₁.cursor.skipBlanks.eat? hd))
    | none => exact pure_landed h₁.skipBlanks _

theorem primary_places (hx : Places text expr) (mode : Mode) : Places text (primary mode expr) := by
  intro r hr
  have hc := hr.cursor.skipBlanks
  simp only [primary, bind, blanks_bind, cursor_bind]
  -- a group, an array, a call, a number, a name, or a byte that starts none of them
  cases hg : r.cursor.skipBlanks.eat? "(".toUTF8 with
  | some d =>
    simp only [moveTo_bind]
    exact Landed.bind (hx _ (hr.move (hc.eat? hg))) fun inner r₁ h₁ =>
      close_places mode _ _ _ r₁ h₁
  | none =>
  cases ha : r.cursor.skipBlanks.eat? "[".toUTF8 with
  | some d =>
    simp only [moveTo_bind]
    exact Landed.bind (items_places hx _ _ _ (hr.move (hc.eat? ha))) fun elems r₁ h₁ =>
      close_places mode _ _ _ r₁ h₁
  | none =>
  dsimp only
  by_cases hcall : r.cursor.skipBlanks.opensCall = true
  · rw [if_pos hcall]
    refine Landed.bind (identifier_landed hr.skipBlanks ((opensCall_iff _).mp hcall).1)
      fun name r₁ h₁ => ?_
    simp only [cursor_bind, moveTo_bind]
    -- the arguments, unless the call closes at once
    have he : Reading.Over text ⟨r₁.cursor.advance.skipBlanks, r₁.warnings⟩ :=
      h₁.move h₁.cursor.advance.skipBlanks
    by_cases h41 : r₁.cursor.advance.skipBlanks.peek = 41
    · rw [if_pos h41]
      exact Landed.bind (pure_landed he _) fun args r₂ h₂ => close_places mode _ _ _ r₂ h₂
    · rw [if_neg h41]
      exact Landed.bind (items_places hx _ _ _ he) fun args r₂ h₂ => close_places mode _ _ _ r₂ h₂
  rw [if_neg hcall]
  by_cases hd : Ascii.isDigit r.cursor.skipBlanks.peek = true
  · rw [if_pos hd]
    exact Landed.bind (number_landed hr.skipBlanks hd) fun n r₁ h₁ => pure_landed h₁ _
  rw [if_neg hd]
  by_cases hl : Ascii.isLetter r.cursor.skipBlanks.peek = true
  · rw [if_pos hl]
    exact Landed.bind (identifier_landed hr.skipBlanks hl) fun n r₁ h₁ => pure_landed h₁ _
  · rw [if_neg hl]
    exact .error hr.skipBlanks
      (Diagnostic.raised_past_blanks hr.cursor rfl (by simp [Diagnostic.error]) rfl)

theorem unary_places (hx : Places text expr) (mode : Mode) : Places text (unary mode expr) := by
  intro r hr
  have hc := hr.cursor.skipBlanks
  simp only [unary, bind, blanks_bind, cursor_bind]
  cases hu : r.cursor.skipBlanks.unaryOp? with
  | some p =>
    obtain ⟨op, d⟩ := p
    simp only [moveTo_bind]
    refine Landed.bind (primary_places hx mode _ (hr.move (hc.operator? hu)))
      fun x r₁ h₁ => ?_
    exact pure_landed h₁ _
  | none =>
    refine Landed.bind (primary_places hx mode _ hr.skipBlanks) fun x r₁ h₁ => ?_
    simp only [cursor_bind]
    cases hp : r₁.cursor.postfixOp? with
    | some p =>
      obtain ⟨op, d⟩ := p
      simp only [moveTo_bind]
      exact pure_landed (h₁.move (h₁.cursor.operator? (postfixOp?_eq_some hp).1)) _
    | none => exact pure_landed h₁ _

theorem links_places {operand : Reader Expr} (ho : Places text operand) (n : Nat)
    (acc : Array Link) : Places text (links operand n acc) := by
  -- each operator costs one unit of `n`, which the induction follows
  induction n generalizing acc with
  | zero =>
    intro r hr
    rw [links]
    exact pure_landed hr _
  | succ n ih =>
    intro r hr
    rw [links]
    simp only [bind, cursor_bind]
    cases hb : r.cursor.binaryOp? with
    | none => exact pure_landed hr _
    | some p =>
      obtain ⟨op, d⟩ := p
      simp only [moveTo_bind]
      refine Landed.bind (ho _ (hr.move (hr.cursor.operator? hb))) fun u r₁ h₁ => ?_
      simp only [blanks_bind]
      exact ih _ _ h₁.skipBlanks

theorem level_places (hx : Places text expr) (mode : Mode) : Places text (level mode expr) := by
  intro r hr
  simp only [level, bind]
  refine Landed.bind (unary_places hx mode r hr) fun first r₁ h₁ => ?_
  simp only [blanks_bind, cursor_bind]
  refine Landed.bind (links_places (unary_places hx mode) _ _ _ h₁.skipBlanks) fun ls r₂ h₂ => ?_
  cases (Chain.mk first ls).assemble with
  | ok e => exact pure_landed h₂ _
  | error op =>
    -- a join too deep is blamed on its operator, found again by seeking back from the cursor
    simp only [cursor_bind]
    exact throw_landed h₂ (Diagnostic.raised_of_not_lexeme (h₂.cursor.seek _) rfl (by decide))

end Readers

theorem expression_places (mode : Mode) (budget : Nat) : Places text (expression mode budget) := by
  -- the budget counts the expressions that may still open, one per level
  induction budget with
  | zero =>
    intro r hr
    exact .error hr (Diagnostic.raised_of_not_lexeme hr.cursor rfl (by decide))
  | succ b ih => exact level_places ih mode

theorem document_places (mode : Mode) (budget : Nat) : Places text (document mode budget) := by
  intro r hr
  simp only [document, bind]
  refine Landed.bind (expression_places mode budget r hr) fun e r₁ h₁ => ?_
  simp only [blanks_bind, cursor_bind]
  by_cases he : r₁.cursor.skipBlanks.atEnd = true
  · rw [if_pos he]
    exact pure_landed h₁.skipBlanks _
  · rw [if_neg he]
    -- text after the expression is blamed past the blanks, on the byte it starts with
    cases mode with
    | strict =>
      exact .error h₁.skipBlanks
        (Diagnostic.raised_past_blanks h₁.cursor rfl (by simp [Diagnostic.error]) rfl)
    | lenient =>
      exact Landed.bind (warn_landed h₁.skipBlanks
        (Diagnostic.raised_past_blanks h₁.cursor rfl (by simp [Diagnostic.warning]) rfl))
        fun _ r₂ h₂ => pure_landed h₂ _

end Reader

/-- Every diagnostic of a reading, the warnings and the error alike, was raised at a cursor that
walked over the text. -/
theorem parseWithin_raised (budget : Nat) (text : ByteArray) (mode : Mode) :
    ∀ d ∈ (Expr.parseWithin budget text mode).diagnostics, d.Raised text := by
  have hl := Reader.document_places mode budget ⟨Cursor.start text, []⟩
    ⟨Cursor.start_walked text {}, nofun⟩
  unfold Expr.parseWithin EStateM.run
  cases h : Reader.document mode budget ⟨Cursor.start text, []⟩ with
  | ok e r' =>
    rw [h] at hl
    cases hl with
    | ok hr' => exact hr'.warnings
  | error d r' =>
    rw [h] at hl
    cases hl with
    | error hr' hd =>
      intro d' hd'
      simp only [Parsed.diagnostics, List.mem_append, List.mem_singleton] at hd'
      rcases hd' with hd' | rfl
      · exact hr'.warnings d' hd'
      · exact hd

/-- Every diagnostic of a reading stands at an offset of the text, with the line and column of
that offset, however the reading moved back and forth; none blames a name; and trouble at a
lexeme stands on no blank, its message naming the byte there or the end of input. -/
theorem parse_diagnostics_placed (text : ByteArray) (mode : Mode) :
    ∀ d ∈ (Expr.parse text mode).diagnostics, d.Placed text :=
  fun d hd => (parseWithin_raised nestingLimit text mode d hd).placed

/-- A group left open: past the line feed and the blanks the closer is missed at the end of input,
on the second line, two bytes in. -/
theorem parse_diagnostics_placed_unclosed :
    Diagnostic.error ⟨5, 2, 2⟩ "expected ')' to close '(' at offset 0 but found end of input"
        .unterminatedStructure ∈ (Expr.parse "(1\n  ".toUTF8 .strict).diagnostics ∧
      (Diagnostic.error ⟨5, 2, 2⟩ "expected ')' to close '(' at offset 0 but found end of input"
        .unterminatedStructure).Placed "(1\n  ".toUTF8 := by
  have h : (Expr.parse "(1\n  ".toUTF8 .strict).diagnostics = [Diagnostic.error ⟨5, 2, 2⟩
      "expected ')' to close '(' at offset 0 but found end of input" .unterminatedStructure] := by
    rfl
  have hm := h ▸ List.mem_singleton_self _
  exact ⟨hm, parse_diagnostics_placed _ _ _ hm⟩

end Formula
