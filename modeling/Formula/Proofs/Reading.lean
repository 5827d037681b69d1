import Formula.Proofs.Unread

/-! What each reader does when it succeeds, one lemma per reader, so that later proofs never open
its `do` block again. -/

namespace Formula

namespace Reader

theorem bind_eq_ok {ε σ α β : Type} {x : EStateM ε σ α} {f : α → EStateM ε σ β} {s : σ} {b : β}
    {s' : σ} : x.bind f s = .ok b s' ↔ ∃ a s₁, x s = .ok a s₁ ∧ f a s₁ = .ok b s' := by
  unfold EStateM.bind
  cases x s with
  | ok a s₁ => exact ⟨fun h => ⟨a, s₁, rfl, h⟩, fun ⟨_, _, he, h⟩ => by cases he; exact h⟩
  | error e s₁ => simp

@[simp] theorem blanks_bind {β : Type} (f : Unit → Reader β) (r : Reading) :
    EStateM.bind blanks f r = f () ⟨r.cursor.skipBlanks, r.warnings⟩ := rfl

@[simp] theorem cursor_bind {β : Type} (f : Cursor → Reader β) (r : Reading) :
    EStateM.bind cursor f r = f r.cursor r := rfl

@[simp] theorem moveTo_bind {β : Type} (c : Cursor) (f : Unit → Reader β) (r : Reading) :
    EStateM.bind (moveTo c) f r = f () ⟨c, r.warnings⟩ := rfl

@[simp] theorem pure_bind {α β : Type} (a : α) (f : α → Reader β) :
    EStateM.bind (pure a : Reader α) f = f a := rfl

@[simp] theorem pure_eq_ok {α : Type} {a b : α} {r r' : Reading} :
    (pure a : Reader α) r = .ok b r' ↔ a = b ∧ r = r' := by
  simp [pure, EStateM.pure]

theorem scan_eq_ok {α : Type} {sc : Cursor → Except Diagnostic (α × Cursor)} {r r' : Reading}
    {a : α} : scan sc r = .ok a r' ↔ ∃ c, sc r.cursor = .ok (a, c) ∧ r' = ⟨c, r.warnings⟩ := by
  unfold scan
  split
  · next a' c hs =>
    rw [hs]
    constructor
    · intro h
      cases h
      exact ⟨c, rfl, rfl⟩
    · rintro ⟨c', h, rfl⟩
      cases h
      rfl
  · next d hs =>
    rw [hs]
    constructor
    · intro h
      cases h
    · rintro ⟨c', h, -⟩
      cases h

/-- The common last step of the bracketed forms: the closer, then the node over the span read. -/
theorem close_eq_ok {mode : Mode} {b : Bracket} {openAt : Nat} {f : Cursor → Expr} {s r' : Reading}
    {e : Expr} :
    EStateM.bind (closer mode b openAt) (fun _ => EStateM.bind cursor fun c => pure (f c)) s =
      .ok e r' ↔ closer mode b openAt s = .ok () r' ∧ e = f r'.cursor := by
  rw [bind_eq_ok]
  constructor
  · rintro ⟨⟨⟩, s₁, h₁, h₂⟩
    simp only [cursor_bind, pure_eq_ok] at h₂
    obtain ⟨rfl, rfl⟩ := h₂
    exact ⟨h₁, rfl⟩
  · rintro ⟨h₁, rfl⟩
    exact ⟨(), r', h₁, by simp⟩

theorem primary_eq_ok {mode : Mode} {expr : Reader Expr} {r r' : Reading} {e : Expr} :
    primary mode expr r = .ok e r' ↔
      let c := r.cursor.skipBlanks
      (∃ d inner s, c.eat? "(".toUTF8 = some d ∧ expr ⟨d, r.warnings⟩ = .ok inner s ∧
        closer mode .round c.offset s = .ok () r' ∧ e = .group inner (r'.cursor.spanFrom c.offset)) ∨
      (c.eat? "(".toUTF8 = none ∧ ∃ d elems s, c.eat? "[".toUTF8 = some d ∧
        items expr d.unread #[] ⟨d, r.warnings⟩ = .ok elems s ∧
        closer mode .square c.offset s = .ok () r' ∧ e = .array elems (r'.cursor.spanFrom c.offset)) ∨
      (c.eat? "(".toUTF8 = none ∧ c.eat? "[".toUTF8 = none ∧ c.opensCall = true ∧
        ∃ name d args s, c.identifier = .ok (name, d) ∧
        (if d.advance.skipBlanks.peek = 41 then args = [] ∧ s = ⟨d.advance.skipBlanks, r.warnings⟩
          else items expr d.advance.skipBlanks.unread #[] ⟨d.advance.skipBlanks, r.warnings⟩ =
            .ok args s) ∧
        closer mode .round d.offset s = .ok () r' ∧ e = .call name args (r'.cursor.spanFrom c.offset)) ∨
      (c.eat? "(".toUTF8 = none ∧ c.eat? "[".toUTF8 = none ∧ c.opensCall = false ∧
        Ascii.isDigit c.peek = true ∧ ∃ n d, c.number = .ok (n, d) ∧ e = .num n.val n.span ∧
        r' = ⟨d, r.warnings⟩) ∨
      (c.eat? "(".toUTF8 = none ∧ c.eat? "[".toUTF8 = none ∧ c.opensCall = false ∧
        Ascii.isDigit c.peek = false ∧ Ascii.isLetter c.peek = true ∧ ∃ n d,
        c.identifier = .ok (n, d) ∧ e = .var n.val n.span ∧ r' = ⟨d, r.warnings⟩) := by
  simp only [primary, bind, blanks_bind, cursor_bind]
  rcases hp : r.cursor.skipBlanks.eat? "(".toUTF8 with _ | d
  · rcases hs : r.cursor.skipBlanks.eat? "[".toUTF8 with _ | d
    · by_cases hc : r.cursor.skipBlanks.opensCall = true
      · simp only [hc, if_true, bind_eq_ok, scan_eq_ok, moveTo_bind, cursor_bind]
        simp only [reduceCtorEq, false_and, exists_false, false_or, true_and, Bool.true_eq_false,
          or_false]
        constructor
        · rintro ⟨name, _, ⟨d, hi, rfl⟩, h⟩
          dsimp only at h
          by_cases h41 : d.advance.skipBlanks.peek = 41
          · rw [if_pos h41] at h
            simp only [pure_bind, close_eq_ok] at h
            exact ⟨name, d, [], _, hi, by rw [if_pos h41]; exact ⟨rfl, rfl⟩, h.1, h.2⟩
          · rw [if_neg h41, bind_eq_ok] at h
            obtain ⟨args, s, hs, h⟩ := h
            simp only [close_eq_ok] at h
            exact ⟨name, d, args, s, hi, by rw [if_neg h41]; exact hs, h.1, h.2⟩
        · rintro ⟨name, d, args, s, hi, hs, h⟩
          refine ⟨name, _, ⟨d, hi, rfl⟩, ?_⟩
          dsimp only
          by_cases h41 : d.advance.skipBlanks.peek = 41
          · rw [if_pos h41] at hs ⊢
            obtain ⟨rfl, rfl⟩ := hs
            simp only [pure_bind, close_eq_ok]
            exact h
          · rw [if_neg h41] at hs ⊢
            rw [bind_eq_ok]
            exact ⟨args, s, hs, close_eq_ok.mpr h⟩
      · simp only [hc, Bool.false_eq_true, if_false]
        simp only [reduceCtorEq, false_and, exists_false, false_or, true_and, and_false,
          Bool.not_eq_true] at hc ⊢
        by_cases hd : Ascii.isDigit r.cursor.skipBlanks.peek = true
        · simp only [hd, if_true, bind_eq_ok, scan_eq_ok, pure_eq_ok, true_and,
            Bool.true_eq_false, false_and, or_false]
          constructor
          · rintro ⟨n, _, ⟨d, hn, rfl⟩, rfl, rfl⟩
            exact ⟨n, d, hn, rfl, rfl⟩
          · rintro ⟨n, d, hn, rfl, rfl⟩
            exact ⟨n, _, ⟨d, hn, rfl⟩, rfl, rfl⟩
        · by_cases hl : Ascii.isLetter r.cursor.skipBlanks.peek = true
          · simp only [hd, hl, if_true, Bool.false_eq_true, if_false, bind_eq_ok, scan_eq_ok,
              pure_eq_ok, false_and, false_or, true_and]
            constructor
            · rintro ⟨n, _, ⟨d, hn, rfl⟩, rfl, rfl⟩
              exact ⟨n, d, hn, rfl, rfl⟩
            · rintro ⟨n, d, hn, rfl, rfl⟩
              exact ⟨n, _, ⟨d, hn, rfl⟩, rfl, rfl⟩
          · simp only [hd, hl, Bool.false_eq_true, if_false, failHere]
            simp
    · simp only [moveTo_bind]
      rw [bind_eq_ok]
      simp only [close_eq_ok]
      simp
  · simp only [moveTo_bind]
    rw [bind_eq_ok]
    simp only [close_eq_ok]
    simp

theorem closer_eq_ok {mode : Mode} {b : Bracket} {openAt : Nat} {r r' : Reading} :
    closer mode b openAt r = .ok () r' ↔
      (r.cursor.skipBlanks.peek = b.closer ∧ r' = ⟨r.cursor.skipBlanks.advance, r.warnings⟩) ∨
      (r.cursor.skipBlanks.peek ≠ b.closer ∧ mode = .lenient ∧ r' = ⟨r.cursor.skipBlanks,
        r.warnings ++ [.warning r.cursor.skipBlanks.location ("missing " ++ ("'" ++
          (String.singleton (Ascii.toChar b.closer)).push '\'' ++ " to close '" ++
          (String.singleton (Ascii.toChar b.opener)).push '\'' ++ " at offset " ++
          Ascii.natDecimal openAt)) .unterminatedStructure]⟩) := by
  simp only [closer, bind, blanks_bind, cursor_bind]
  by_cases h : r.cursor.skipBlanks.peek = b.closer
  · simp [h, moveTo, eq_comm]
  · cases mode <;> simp [h, throw, throwThe, MonadExceptOf.throw, EStateM.throw, warn, eq_comm]

theorem items_zero_eq_ok {expr : Reader Expr} {acc : Array Expr} {r r' : Reading}
    {es : List Expr} : items expr 0 acc r = .ok es r' ↔
      ∃ e s, expr r = .ok e s ∧ es = (acc.push e).toList ∧ r' = ⟨s.cursor.skipBlanks, s.warnings⟩ := by
  rw [items]
  simp only [bind, bind_eq_ok, blanks_bind, cursor_bind, pure_eq_ok]
  exact exists_congr fun e => exists_congr fun s => and_congr_right fun _ =>
    ⟨fun ⟨h₁, h₂⟩ => ⟨h₁.symm, h₂.symm⟩, fun ⟨h₁, h₂⟩ => ⟨h₁.symm, h₂.symm⟩⟩

theorem items_succ_eq_ok {expr : Reader Expr} {k : Nat} {acc : Array Expr} {r r' : Reading}
    {es : List Expr} : items expr (k + 1) acc r = .ok es r' ↔
      ∃ e s, expr r = .ok e s ∧
        ((∃ c, s.cursor.skipBlanks.eat? ",".toUTF8 = some c ∧
          items expr k (acc.push e) ⟨c, s.warnings⟩ = .ok es r') ∨
        (s.cursor.skipBlanks.eat? ",".toUTF8 = none ∧ es = (acc.push e).toList ∧
          r' = ⟨s.cursor.skipBlanks, s.warnings⟩)) := by
  rw [items]
  simp only [bind, bind_eq_ok, blanks_bind, cursor_bind]
  refine exists_congr fun e => exists_congr fun s => and_congr_right fun _ => ?_
  cases s.cursor.skipBlanks.eat? ",".toUTF8 with
  | none =>
    simp only [pure_eq_ok, reduceCtorEq, false_and, exists_false, true_and, false_or]
    exact ⟨fun ⟨h₁, h₂⟩ => ⟨h₁.symm, h₂.symm⟩, fun ⟨h₁, h₂⟩ => ⟨h₁.symm, h₂.symm⟩⟩
  | some c => simp

theorem unary_eq_ok {mode : Mode} {expr : Reader Expr} {r r' : Reading} {e : Expr} :
    unary mode expr r = .ok e r' ↔
      let c := r.cursor.skipBlanks
      (∃ op d x, c.unaryOp? = some (op, d) ∧ primary mode expr ⟨d, r.warnings⟩ = .ok x r' ∧
        e = .unary op .pre x (r'.cursor.spanFrom c.offset)) ∨
      (c.unaryOp? = none ∧ ∃ x s, primary mode expr ⟨c, r.warnings⟩ = .ok x s ∧
        ((∃ op d, s.cursor.postfixOp? = some (op, d) ∧
          e = .unary op .post x (d.spanFrom c.offset) ∧ r' = ⟨d, s.warnings⟩) ∨
        (s.cursor.postfixOp? = none ∧ e = x ∧ r' = s))) := by
  simp only [unary, bind, blanks_bind, cursor_bind]
  rcases hu : r.cursor.skipBlanks.unaryOp? with _ | ⟨op, d⟩
  · simp only [bind_eq_ok, cursor_bind]
    simp only [reduceCtorEq, false_and, exists_false, false_or, true_and]
    refine exists_congr fun x => exists_congr fun s => and_congr_right fun _ => ?_
    rcases s.cursor.postfixOp? with _ | ⟨o, d⟩
    · simp only [pure_eq_ok, reduceCtorEq, false_and, exists_false, true_and, false_or]
      exact ⟨fun ⟨h₁, h₂⟩ => ⟨h₁.symm, h₂.symm⟩, fun ⟨h₁, h₂⟩ => ⟨h₁.symm, h₂.symm⟩⟩
    · simp only [moveTo_bind, pure_eq_ok, Option.some.injEq, Prod.mk.injEq, reduceCtorEq,
        false_and, or_false]
      constructor
      · rintro ⟨rfl, rfl⟩
        exact ⟨o, d, ⟨rfl, rfl⟩, rfl, rfl⟩
      · rintro ⟨_, _, ⟨rfl, rfl⟩, rfl, rfl⟩
        exact ⟨rfl, rfl⟩
  · simp only [moveTo_bind, bind_eq_ok, cursor_bind, pure_eq_ok, Option.some.injEq, Prod.mk.injEq,
      reduceCtorEq, false_and, or_false]
    constructor
    · rintro ⟨x, _, hx, rfl, rfl⟩
      exact ⟨op, d, x, ⟨rfl, rfl⟩, hx, rfl⟩
    · rintro ⟨_, _, x, ⟨rfl, rfl⟩, hx, rfl⟩
      exact ⟨x, r', hx, rfl, rfl⟩

theorem links_zero_eq_ok {operand : Reader Expr} {acc : Array Link} {r r' : Reading}
    {ls : List Link} : links operand 0 acc r = .ok ls r' ↔ ls = acc.toList ∧ r' = r := by
  simp [links, eq_comm]

theorem links_succ_eq_ok {operand : Reader Expr} {n : Nat} {acc : Array Link} {r r' : Reading}
    {ls : List Link} : links operand (n + 1) acc r = .ok ls r' ↔
      (r.cursor.binaryOp? = none ∧ ls = acc.toList ∧ r' = r) ∨
      (∃ op d u s, r.cursor.binaryOp? = some (op, d) ∧ operand ⟨d, r.warnings⟩ = .ok u s ∧
        links operand n (acc.push ⟨op, u⟩) ⟨s.cursor.skipBlanks, s.warnings⟩ = .ok ls r') := by
  rw [links]
  simp only [bind, cursor_bind]
  rcases r.cursor.binaryOp? with _ | ⟨op, d⟩
  · simp only [pure_eq_ok, reduceCtorEq, false_and, exists_false, true_and, or_false]
    exact ⟨fun ⟨h₁, h₂⟩ => ⟨h₁.symm, h₂.symm⟩, fun ⟨h₁, h₂⟩ => ⟨h₁.symm, h₂.symm⟩⟩
  · simp only [moveTo_bind, bind_eq_ok, blanks_bind, Option.some.injEq, Prod.mk.injEq,
      reduceCtorEq, false_and, false_or]
    constructor
    · rintro ⟨u, s, hu, h⟩
      exact ⟨op, d, u, s, ⟨rfl, rfl⟩, hu, h⟩
    · rintro ⟨_, _, u, s, ⟨rfl, rfl⟩, hu, h⟩
      exact ⟨u, s, hu, h⟩

theorem level_eq_ok {mode : Mode} {expr : Reader Expr} {r r' : Reading} {e : Expr} :
    level mode expr r = .ok e r' ↔
      ∃ first s ls, unary mode expr r = .ok first s ∧
        links (unary mode expr) s.cursor.skipBlanks.unread #[] ⟨s.cursor.skipBlanks, s.warnings⟩ =
          .ok ls r' ∧ (Chain.mk first ls).assemble = .ok e := by
  simp only [level, bind, bind_eq_ok, blanks_bind, cursor_bind]
  constructor
  · rintro ⟨first, s, hf, ls, s', hl, h⟩
    cases ha : (Chain.mk first ls).assemble with
    | ok e' =>
      simp only [ha, pure_eq_ok] at h
      obtain ⟨rfl, rfl⟩ := h
      exact ⟨first, s, ls, hf, hl, ha⟩
    | error op => simp [ha, throw, throwThe, MonadExceptOf.throw, EStateM.throw] at h
  · rintro ⟨first, s, ls, hf, hl, ha⟩
    exact ⟨first, s, hf, ls, r', hl, by simp [ha]⟩

theorem expression_zero_ne_ok {mode : Mode} {r r' : Reading} {e : Expr} :
    expression mode 0 r ≠ .ok e r' := by
  simp [expression, failHere]

theorem document_eq_ok {mode : Mode} {b : Nat} {r r' : Reading} {e : Expr} :
    document mode b r = .ok e r' ↔
      ∃ s, expression mode b r = .ok e s ∧
        ((s.cursor.skipBlanks.atEnd = true ∧ r' = ⟨s.cursor.skipBlanks, s.warnings⟩) ∨
        (s.cursor.skipBlanks.atEnd = false ∧ mode = .lenient ∧ r' = ⟨s.cursor.skipBlanks,
          s.warnings ++ [.warning s.cursor.skipBlanks.location
            ("ignored trailing input starting at " ++ s.cursor.skipBlanks.describe)
            .trailingInput]⟩)) := by
  simp only [document, bind, bind_eq_ok, blanks_bind, cursor_bind]
  constructor
  · rintro ⟨x, s, hx, h⟩
    by_cases he : s.cursor.skipBlanks.atEnd = true
    · simp only [he, if_true, pure_eq_ok] at h
      obtain ⟨rfl, rfl⟩ := h
      exact ⟨s, hx, .inl ⟨he, rfl⟩⟩
    · simp only [he, Bool.false_eq_true, if_false] at h
      cases mode with
      | strict => simp [failHere] at h
      | lenient =>
        simp only [warn, bind_eq_ok, pure_eq_ok] at h
        obtain ⟨_, _, h₁, rfl, rfl⟩ := h
        cases h₁
        exact ⟨s, hx, .inr ⟨by simpa using he, rfl, rfl⟩⟩
  · rintro ⟨s, hx, ⟨he, rfl⟩ | ⟨he, rfl, rfl⟩⟩
    · exact ⟨e, s, hx, by simp [he]⟩
    · refine ⟨e, s, hx, ?_⟩
      simp only [he, Bool.false_eq_true, if_false, warn, bind_eq_ok, pure_eq_ok]
      exact ⟨(), _, rfl, trivial, rfl⟩

end Reader

/-- A text reads to a tree exactly when the document reader, started at its first byte with no
warnings, returns that tree. -/
theorem parseWithin_eq_ok {b : Nat} {text : ByteArray} {mode : Mode} {e : Expr} :
    (Expr.parseWithin b text mode).result = .ok e ↔
      ∃ r', Reader.document mode b ⟨Cursor.start text, []⟩ = .ok e r' := by
  unfold Expr.parseWithin
  cases h : (Reader.document mode b).run ⟨Cursor.start text, []⟩ with
  | ok e' r' =>
    simp only [EStateM.run] at h
    simp [h]
  | error d r' =>
    simp only [EStateM.run] at h
    simp [h]

end Formula
