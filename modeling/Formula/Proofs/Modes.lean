import Formula.Proofs.Reading

/-! Strict and lenient readings of one text go in step up to the first repair, where the strict
one fails with the same trouble at the same place (`parse_strict_of_lenient`). -/

namespace Formula

namespace Reader

/-- The state a reading step ends in, with a value or with an error. -/
def final {α : Type} : EStateM.Result Diagnostic Reading α → Reading
  | .ok _ r | .error _ r => r

/-- How the outcome of a lenient step stands to that of a strict step from the same state, `ws`
being the warnings issued before: the two are one run, or the lenient run repaired something and
the strict one failed there, with an error of the kind and at the place of the first new
warning. -/
inductive Agree {α : Type} (ws : List Diagnostic) :
    EStateM.Result Diagnostic Reading α → EStateM.Result Diagnostic Reading α → Prop
  | ok {a : α} {r : Reading} (quiet : r.warnings = ws) : Agree ws (.ok a r) (.ok a r)
  | error {d : Diagnostic} {r : Reading} (quiet : r.warnings = ws) (severe : d.severity = .error) :
      Agree ws (.error d r) (.error d r)
  | repaired {res : EStateM.Result Diagnostic Reading α} {d w : Diagnostic} {s : Reading}
      {more : List Diagnostic} (warned : (final res).warnings = ws ++ w :: more)
      (quiet : s.warnings = ws) (severe : d.severity = .error) (fault : d.fault = w.fault)
      (location : d.location = w.location) : Agree ws res (.error d s)

/-- A lenient reader and a strict one agree from every state. -/
def Agrees {α : Type} (lenient strict : Reader α) : Prop :=
  ∀ r, Agree r.warnings (lenient r) (strict r)

/-- A lenient step only adds warnings to those issued before it. -/
theorem Agree.warnings_extend {α : Type} {ws : List Diagnostic}
    {res res' : EStateM.Result Diagnostic Reading α} (h : Agree ws res res') :
    ∃ more, (final res).warnings = ws ++ more := by
  cases h with
  | ok quiet => exact ⟨[], by simp [final, quiet]⟩
  | error quiet => exact ⟨[], by simp [final, quiet]⟩
  | repaired warned => exact ⟨_, warned⟩

/-- Agreement goes through a bind: as long as the runs are one, both go on alike; once the strict
run has failed, the lenient one only adds warnings after the repair. -/
theorem Agree.bind {α β : Type} {x x' : Reader α} {f f' : α → Reader β} {r : Reading}
    (hx : Agree r.warnings (x r) (x' r)) (hf : ∀ a, Agrees (f a) (f' a)) :
    Agree r.warnings (EStateM.bind x f r) (EStateM.bind x' f' r) := by
  unfold EStateM.bind
  generalize x r = res at hx
  generalize x' r = res' at hx
  cases hx with
  | ok quiet =>
    rw [← quiet]
    exact hf _ _
  | error quiet severe => exact .error quiet severe
  | @repaired res d w s more warned quiet severe fault location =>
    cases res with
    | ok a r₁ =>
      -- the lenient run goes on after its repair and only adds warnings
      obtain ⟨more', hmore⟩ := (hf a r₁).warnings_extend
      refine @Agree.repaired _ _ _ _ _ _ (more ++ more') ?_ quiet severe fault location
      rw [hmore, show r₁.warnings = _ from warned]
      simp
    | error e r₁ => exact .repaired warned quiet severe fault location

theorem Agrees.bind {α β : Type} {x x' : Reader α} {f f' : α → Reader β} (hx : Agrees x x')
    (hf : ∀ a, Agrees (f a) (f' a)) : Agrees (x >>= f) (x' >>= f') :=
  fun _ => Agree.bind (hx _) hf

/-- A step that issues no warning and fails only with errors runs alike in both modes. -/
theorem Agrees.refl {α : Type} {x : Reader α}
    (h : ∀ r, (∃ a r', x r = .ok a r' ∧ r'.warnings = r.warnings) ∨
      (∃ d r', x r = .error d r' ∧ r'.warnings = r.warnings ∧ d.severity = .error)) :
    Agrees x x := by
  intro r
  rcases h r with ⟨a, r', hx, hw⟩ | ⟨d, r', hx, hw, hd⟩
  · rw [hx]
    exact .ok hw
  · rw [hx]
    exact .error hw hd

theorem pure_agrees {α : Type} (a : α) : Agrees (pure a : Reader α) (pure a) :=
  Agrees.refl fun _ => .inl ⟨a, _, rfl, rfl⟩

theorem blanks_agrees : Agrees blanks blanks :=
  Agrees.refl fun _ => .inl ⟨(), _, rfl, rfl⟩

theorem cursor_agrees : Agrees cursor cursor :=
  Agrees.refl fun _ => .inl ⟨_, _, rfl, rfl⟩

theorem moveTo_agrees (c : Cursor) : Agrees (moveTo c) (moveTo c) :=
  Agrees.refl fun _ => .inl ⟨(), _, rfl, rfl⟩

theorem failHere_agrees {α : Type} (message : String) (f : Fault) :
    Agrees (failHere message f : Reader α) (failHere message f) :=
  Agrees.refl fun _ => .inr ⟨_, _, rfl, rfl, rfl⟩

theorem throw_agrees {α : Type} {d : Diagnostic} (hd : d.severity = .error) :
    Agrees (throw d : Reader α) (throw d) :=
  Agrees.refl fun _ => .inr ⟨d, _, rfl, rfl, hd⟩

/-- A scanner whose failures are errors runs alike in both modes. -/
theorem scan_agrees {α : Type} {sc : Cursor → Except Diagnostic (α × Cursor)}
    (hs : ∀ c d, sc c = .error d → d.severity = .error) : Agrees (scan sc) (scan sc) := by
  refine Agrees.refl fun r => ?_
  unfold scan
  split
  · exact .inl ⟨_, _, rfl, rfl⟩
  · next d hd => exact .inr ⟨d, r, rfl, rfl, hs _ _ hd⟩

/-- The one place inside an expression where the modes part: a missing closer is repaired with a
warning, or fails with an error of the same kind at the same place. -/
theorem closer_agrees (b : Bracket) (openAt : Nat) :
    Agrees (closer .lenient b openAt) (closer .strict b openAt) := by
  unfold closer
  refine blanks_agrees.bind fun _ => cursor_agrees.bind fun c => ?_
  by_cases hc : c.peek = b.closer
  · simp only [hc, if_true]
    exact moveTo_agrees _
  · simp only [hc, if_false]
    intro r
    exact @Agree.repaired _ _ _ _ (.warning c.location _ .unterminatedStructure) _ [] rfl rfl rfl
      rfl rfl

theorem Cursor.number_severity {c : Cursor} {d : Diagnostic} (h : c.number = .error d) :
    d.severity = .error := by
  unfold Cursor.number at h
  dsimp only at h
  -- every failure of the scanner is built as an error
  split_ifs at h <;> cases h <;> rfl

theorem Cursor.identifier_severity {c : Cursor} {d : Diagnostic} (h : c.identifier = .error d) :
    d.severity = .error := by
  unfold Cursor.identifier at h
  split at h
  · cases h
  · cases h
    rfl

section Grammar

variable {exprL exprS : Reader Expr} (hx : Agrees exprL exprS)
include hx

theorem items_agrees : ∀ (n : Nat) (acc : Array Expr),
    Agrees (items exprL n acc) (items exprS n acc)
  | n, acc => by
    rw [items, items]
    refine hx.bind fun e => blanks_agrees.bind fun _ => cursor_agrees.bind fun c => ?_
    cases n with
    | zero => exact pure_agrees _
    | succ k =>
      -- both modes test the same cursor for a comma
      cases c.eat? ",".toUTF8 with
      | none => exact pure_agrees _
      | some d => exact (moveTo_agrees d).bind fun _ => items_agrees k _

theorem primary_agrees : Agrees (primary .lenient exprL) (primary .strict exprS) := by
  unfold primary
  refine blanks_agrees.bind fun _ => cursor_agrees.bind fun c => ?_
  -- each form is told apart by the same cursor in both modes
  cases c.eat? "(".toUTF8 with
  | some d =>
    exact (moveTo_agrees d).bind fun _ => hx.bind fun inner =>
      (closer_agrees .round _).bind fun _ => cursor_agrees.bind fun _ => pure_agrees _
  | none =>
  cases c.eat? "[".toUTF8 with
  | some d =>
    exact (moveTo_agrees d).bind fun _ => (items_agrees hx _ _).bind fun _ =>
      (closer_agrees .square _).bind fun _ => cursor_agrees.bind fun _ => pure_agrees _
  | none =>
  by_cases hcall : c.opensCall = true
  · simp only [hcall, if_true]
    refine (scan_agrees fun _ _ => Cursor.identifier_severity).bind fun name =>
      cursor_agrees.bind fun d => (moveTo_agrees _).bind fun _ => ?_
    -- the arguments, if any, are items up to the closer
    split
    · exact (pure_agrees _).bind fun _ => (closer_agrees .round _).bind fun _ =>
        cursor_agrees.bind fun _ => pure_agrees _
    · exact (items_agrees hx _ _).bind fun _ => (closer_agrees .round _).bind fun _ =>
        cursor_agrees.bind fun _ => pure_agrees _
  · simp only [hcall, Bool.false_eq_true, if_false]
    split
    · exact (scan_agrees fun _ _ => Cursor.number_severity).bind fun _ => pure_agrees _
    · split
      · exact (scan_agrees fun _ _ => Cursor.identifier_severity).bind fun _ => pure_agrees _
      · exact failHere_agrees _ _

theorem unary_agrees : Agrees (unary .lenient exprL) (unary .strict exprS) := by
  unfold unary
  refine blanks_agrees.bind fun _ => cursor_agrees.bind fun c => ?_
  cases c.unaryOp? with
  | some od =>
    exact (moveTo_agrees _).bind fun _ => (primary_agrees hx).bind fun _ =>
      cursor_agrees.bind fun _ => pure_agrees _
  | none =>
    refine (primary_agrees hx).bind fun x => cursor_agrees.bind fun d => ?_
    cases d.postfixOp? with
    | some od => exact (moveTo_agrees _).bind fun _ => pure_agrees _
    | none => exact pure_agrees _

theorem links_agrees : ∀ (n : Nat) (acc : Array Link),
    Agrees (links (unary .lenient exprL) n acc) (links (unary .strict exprS) n acc)
  | 0, _ => pure_agrees _
  | n + 1, acc => by
    rw [links, links]
    refine cursor_agrees.bind fun c => ?_
    cases c.binaryOp? with
    | none => exact pure_agrees _
    | some od =>
      exact (moveTo_agrees _).bind fun _ => (unary_agrees hx).bind fun _ =>
        blanks_agrees.bind fun _ => links_agrees n _

theorem level_agrees : Agrees (level .lenient exprL) (level .strict exprS) := by
  unfold level
  refine (unary_agrees hx).bind fun first => blanks_agrees.bind fun _ =>
    cursor_agrees.bind fun c => (links_agrees hx _ _).bind fun ls => ?_
  -- assembly looks at the operands alone, which both modes read alike
  cases (Chain.mk first ls).assemble with
  | ok e => exact pure_agrees _
  | error op => exact cursor_agrees.bind fun _ => throw_agrees rfl

end Grammar

theorem expression_agrees : ∀ b : Nat, Agrees (expression .lenient b) (expression .strict b)
  | 0 => failHere_agrees _ _
  | b + 1 => level_agrees (expression_agrees b)

/-- The whole text: the modes part once more where text follows the expression. -/
theorem document_agrees (b : Nat) : Agrees (document .lenient b) (document .strict b) := by
  unfold document
  refine (expression_agrees b).bind fun e => blanks_agrees.bind fun _ => ?_
  intro r
  simp only [bind, cursor_bind]
  by_cases hend : r.cursor.atEnd = true
  · simp only [hend, if_true]
    exact .ok rfl
  · simp only [hend, Bool.false_eq_true, if_false, failHere]
    exact @Agree.repaired _ _ _ _ (.warning r.cursor.location _ .trailingInput) _ [] rfl rfl rfl
      rfl rfl

end Reader

/-- A strict reading of a text succeeds exactly when the lenient reading succeeds without a
warning, and then both give the very same tree, spans included. Otherwise the strict reading
fails with one diagnostic, an error, whose kind and place are those of the first diagnostic of
the lenient reading: its first warning, or its error when it issued none. -/
theorem parse_strict_of_lenient (text : ByteArray) :
    (∀ e, (Expr.parse text .strict).result = .ok e ↔
      (Expr.parse text .lenient).result = .ok e ∧ (Expr.parse text .lenient).warnings = []) ∧
    ((¬ ∃ e, (Expr.parse text .lenient).result = .ok e ∧ (Expr.parse text .lenient).warnings = []) →
      ∃ d first, (Expr.parse text .strict).result = .error d ∧
        (Expr.parse text .strict).diagnostics = [d] ∧ d.severity = .error ∧
        (Expr.parse text .lenient).diagnostics.head? = some first ∧ d.fault = first.fault ∧
        d.location = first.location) := by
  have h : Reader.Agree [] (Reader.document .lenient nestingLimit ⟨Cursor.start text, []⟩)
      (Reader.document .strict nestingLimit ⟨Cursor.start text, []⟩) :=
    Reader.document_agrees nestingLimit ⟨Cursor.start text, []⟩
  simp only [Expr.parse, Expr.parseWithin, EStateM.run]
  generalize Reader.document .lenient nestingLimit ⟨Cursor.start text, []⟩ = lenient at h
  generalize Reader.document .strict nestingLimit ⟨Cursor.start text, []⟩ = strict at h
  cases h with
  | ok quiet =>
    -- one run, without warnings: the same tree
    refine ⟨fun e => ?_, fun hno => absurd ⟨_, rfl, quiet⟩ hno⟩
    simp [quiet]
  | error quiet severe =>
    -- one run that fails before any repair: the same error
    refine ⟨fun e => by simp, fun _ => ⟨_, _, rfl, ?_, severe, ?_, rfl, rfl⟩⟩ <;>
      simp [Parsed.diagnostics, quiet]
  | @repaired _ d w s more warned quiet severe fault location =>
    -- the strict run fails at the first repair of the lenient one
    refine ⟨fun e => ?_, fun _ => ⟨d, w, rfl, by simp [Parsed.diagnostics, quiet], severe, ?_,
      fault, location⟩⟩
    · cases lenient <;> simp_all [Reader.final]
    · cases lenient <;> simp_all [Reader.final, Parsed.diagnostics]

/-- An unclosed group: the lenient reading repairs it with a warning, and the strict one fails
there. -/
theorem parse_strict_of_lenient_unclosed :
    ∃ d first, (Expr.parse "(1 + 2".toUTF8 .strict).result = .error d ∧
      (Expr.parse "(1 + 2".toUTF8 .strict).diagnostics = [d] ∧ d.severity = .error ∧
      (Expr.parse "(1 + 2".toUTF8 .lenient).diagnostics.head? = some first ∧
      d.fault = first.fault ∧ d.location = first.location :=
  (parse_strict_of_lenient _).2 fun ⟨_, _, hw⟩ => by
    have hwarned : (Expr.parse "(1 + 2".toUTF8 .lenient).warnings.isEmpty = false := by
      decide +kernel
    rw [hw] at hwarned
    cases hwarned

end Formula
