import Formula.Proofs.Spacing

/-! Reading only moves on (`Reader.Forward`): the loops need no more fuel than there are unread
bytes, and the warnings of a reading come in order of offset (`parse_moves_forward`). -/

namespace Formula

namespace Cursor

theorem offset_le_advance (c : Cursor) : c.offset ≤ c.advance.offset := by
  unfold advance
  split <;> simp

theorem eat?_forward {c d : Cursor} {lit : ByteArray} (h : c.eat? lit = some d) :
    d.text = c.text ∧ c.offset + lit.size = d.offset := by
  obtain ⟨ht, ha⟩ := eat?_eq_some h
  refine ⟨ht, ?_⟩
  rw [offset_of_ahead ht ha]
  simp

theorem identifier_forward {c d : Cursor} {n : Spanned String} (h : c.identifier = .ok (n, d)) :
    d.text = c.text ∧ c.offset ≤ d.offset := by
  obtain ⟨-, rfl, -⟩ := identifier_eq_ok h
  exact ⟨skipWhile_text _ _, offset_le_skipWhile _ _⟩

/-- Cursor `d` stands on the text of `c` past an opener that the unread bytes of `c` begin with:
`(`, `[`, or a name and its `(`. -/
def PastOpener (c d : Cursor) : Prop :=
  d.text = c.text ∧ ∃ o : List UInt8, o <+: c.ahead ∧ c.offset + o.length ≤ d.offset ∧
    (o = [40] ∨ o = [91] ∨ ∃ b name, o = b :: name ++ [40] ∧ Ascii.isLetter b = true ∧
      ∀ x ∈ name, Ascii.isNameByte x = true)

theorem PastOpener.mono {c d e : Cursor} (h : c.PastOpener d) (ht : e.text = d.text)
    (ho : d.offset ≤ e.offset) : c.PastOpener e := by
  obtain ⟨hd, o, hp, hl, hk⟩ := h
  exact ⟨ht.trans hd, o, hp, hl.trans ho, hk⟩

/-- Past a bracket the cursor has eaten. -/
theorem pastOpener_eat {c d : Cursor} {lit : ByteArray}
    (hl : lit.data.toList = [40] ∨ lit.data.toList = [91]) (h : c.eat? lit = some d) :
    c.PastOpener d := by
  obtain ⟨ht, ha⟩ := eat?_eq_some h
  refine ⟨ht, lit.data.toList, ⟨d.ahead, ha.symm⟩, ?_, hl.imp_right .inl⟩
  rw [offset_of_ahead ht ha]

/-- Past the name and the parenthesis of a call. -/
theorem pastOpener_call {c : Cursor} (h : c.opensCall = true) :
    c.PastOpener (c.skipWhile Ascii.isNameByte).advance := by
  obtain ⟨hl, hp⟩ := (opensCall_iff c).mp h
  have hsplit := ahead_skipWhile Ascii.isNameByte c
  rw [ahead_of_peek hp (by decide)] at hsplit
  -- the unread bytes open with a letter, which the name takes first
  obtain ⟨b, bs, hc⟩ : ∃ b bs, c.ahead = b :: bs := by
    cases hc : c.ahead with
    | nil => rw [peek_eq, hc] at hl; exact absurd hl (by decide)
    | cons b bs => exact ⟨b, bs, rfl⟩
  rw [peek_eq, hc, List.headD_cons] at hl
  have hname : c.ahead.takeWhile Ascii.isNameByte = b :: bs.takeWhile Ascii.isNameByte := by
    rw [hc, List.takeWhile_cons_of_pos (Ascii.isNameByte_of_isLetter hl)]
  have ha : c.ahead = (c.ahead.takeWhile Ascii.isNameByte ++ [40]) ++
      (c.skipWhile Ascii.isNameByte).advance.ahead := by
    rw [List.append_assoc]
    exact hsplit
  refine ⟨by simp, _, ⟨_, ha.symm⟩, ?_, .inr (.inr ⟨b, bs.takeWhile Ascii.isNameByte,
    by rw [hname, List.cons_append], hl, fun x hx => (List.mem_takeWhile_imp hx)⟩)⟩
  rw [offset_of_ahead (by simp) ha]

end Cursor

/-- The warnings of a reading stand in order of offset, none beyond the cursor. -/
structure Reading.Ordered (r : Reading) : Prop where
  sorted : (r.warnings.map (·.location.offset)).Pairwise (· ≤ ·)
  behind : ∀ w ∈ r.warnings, w.location.offset ≤ r.cursor.offset

/-- A later reading of the same text: the cursor has not moved back, the warnings issued before
are still there, first, and warnings in order stay in order. -/
structure Reading.LeadsTo (r r' : Reading) : Prop where
  text_eq : r'.cursor.text = r.cursor.text
  offset_le : r.cursor.offset ≤ r'.cursor.offset
  warnings_prefix : r.warnings <+: r'.warnings
  ordered : r.Ordered → r'.Ordered

namespace Reading

theorem LeadsTo.refl (r : Reading) : r.LeadsTo r :=
  ⟨rfl, le_rfl, List.prefix_refl _, id⟩

theorem LeadsTo.trans {r r₁ r₂ : Reading} (h₁ : r.LeadsTo r₁) (h₂ : r₁.LeadsTo r₂) :
    r.LeadsTo r₂ :=
  ⟨h₂.text_eq.trans h₁.text_eq, h₁.offset_le.trans h₂.offset_le,
    h₁.warnings_prefix.trans h₂.warnings_prefix, h₂.ordered ∘ h₁.ordered⟩

/-- Moving the cursor on keeps the warnings, and their order. -/
theorem leadsTo_move {r : Reading} {c : Cursor} (ht : c.text = r.cursor.text)
    (ho : r.cursor.offset ≤ c.offset) : r.LeadsTo ⟨c, r.warnings⟩ :=
  ⟨ht, ho, List.prefix_refl _, fun h => ⟨h.sorted, fun w hw => (h.behind w hw).trans ho⟩⟩

theorem leadsTo_blanks (r : Reading) : r.LeadsTo ⟨r.cursor.skipBlanks, r.warnings⟩ :=
  leadsTo_move (Cursor.skipBlanks_text _) (Cursor.offset_le_skipBlanks _)

/-- A warning issued at the cursor comes after every warning before it. -/
theorem leadsTo_warn {r : Reading} {d : Diagnostic} (hd : d.location.offset = r.cursor.offset) :
    r.LeadsTo ⟨r.cursor, r.warnings ++ [d]⟩ := by
  refine ⟨rfl, le_rfl, List.prefix_append _ _, fun h => ⟨?_, ?_⟩⟩
  · rw [List.map_append, List.pairwise_append]
    refine ⟨h.sorted, by simp, fun a ha b hb => ?_⟩
    simp only [List.map_cons, List.map_nil, List.mem_singleton] at hb
    obtain ⟨w, hw, rfl⟩ := List.mem_map.mp ha
    rw [hb, hd]
    exact h.behind w hw
  · intro w hw
    rcases List.mem_append.mp hw with hw | hw
    · exact h.behind w hw
    · rw [List.mem_singleton.mp hw, hd]

/-- A later reading has no more bytes left to read. -/
theorem LeadsTo.unread_le {r r' : Reading} (h : r.LeadsTo r') :
    r'.cursor.unread ≤ r.cursor.unread := by
  have := h.offset_le
  simp only [Cursor.unread, h.text_eq]
  omega

end Reading

namespace Reader

open Formula.Cursor

/-- The outcome of a reading step from `r`: success or failure, at a reading that `r` leads
to. -/
inductive Onward {α : Type} (r : Reading) : EStateM.Result Diagnostic Reading α → Prop
  | ok {a : α} {r' : Reading} : r.LeadsTo r' → Onward r (.ok a r')
  | error {d : Diagnostic} {r' : Reading} : r.LeadsTo r' → Onward r (.error d r')

/-- A reading step that only moves on: from every reading it ends at one that the reading leads
to, whether it succeeds or fails. -/
def Forward {α : Type} (x : Reader α) : Prop := ∀ r, Onward r (x r)

theorem Onward.pre {α : Type} {r r₁ : Reading} {res : EStateM.Result Diagnostic Reading α}
    (h₁ : r.LeadsTo r₁) (h : Onward r₁ res) : Onward r res := by
  cases h with
  | ok h => exact .ok (h₁.trans h)
  | error h => exact .error (h₁.trans h)

theorem Onward.bind {α β : Type} {x : Reader α} {f : α → Reader β} {r : Reading}
    (hx : Onward r (x r)) (hf : ∀ a r₁, Onward r₁ (f a r₁)) :
    Onward r (EStateM.bind x f r) := by
  unfold EStateM.bind
  cases h : x r with
  | ok a r₁ =>
    rw [h] at hx
    cases hx with
    | ok h₁ => exact (hf a r₁).pre h₁
  | error d r₁ =>
    rw [h] at hx
    cases hx with
    | error h₁ => exact .error h₁

section Steps

variable {α : Type} {r : Reading}

theorem pure_onward (a : α) : Onward r ((pure a : Reader α) r) := .ok (.refl r)

theorem throw_onward (d : Diagnostic) : Onward r ((throw d : Reader α) r) := .error (.refl r)

theorem failHere_onward (message : String) (f : Fault) :
    Onward r ((failHere message f : Reader α) r) :=
  .error (.refl r)

theorem moveTo_onward {c : Cursor} (ht : c.text = r.cursor.text) (ho : r.cursor.offset ≤ c.offset) :
    Onward r (moveTo c r) :=
  .ok (Reading.leadsTo_move ht ho)

theorem scan_onward {s : Cursor → Except Diagnostic (α × Cursor)}
    (hs : ∀ a c, s r.cursor = .ok (a, c) → c.text = r.cursor.text ∧ r.cursor.offset ≤ c.offset) :
    Onward r (scan s r) := by
  unfold scan
  cases h : s r.cursor with
  | ok ac =>
    obtain ⟨ht, ho⟩ := hs ac.1 ac.2 h
    exact .ok (Reading.leadsTo_move ht ho)
  | error d => exact .error (.refl r)

end Steps

section Readers

variable {expr : Reader Expr}

theorem closer_forward (mode : Mode) (b : Bracket) (openAt : Nat) :
    Forward (closer mode b openAt) := by
  intro r
  refine Onward.pre (Reading.leadsTo_blanks r) ?_
  simp only [closer, bind, blanks_bind, cursor_bind]
  split
  · exact moveTo_onward (advance_text _) (offset_le_advance _)
  · -- the complaint is made where the closer should be
    cases mode with
    | strict => exact throw_onward _
    | lenient => exact .ok (Reading.leadsTo_warn rfl)

/-- The last step of the bracketed forms: the closer, then the node over the span read. -/
theorem close_forward (mode : Mode) (b : Bracket) (openAt : Nat) (f : Cursor → Expr) :
    Forward (EStateM.bind (closer mode b openAt) fun _ =>
      EStateM.bind cursor fun c => pure (f c)) :=
  fun r => (closer_forward mode b openAt r).bind fun _ _ => pure_onward _

theorem items_forward (hx : Forward expr) (n : Nat) (acc : Array Expr) :
    Forward (items expr n acc) := by
  -- each comma costs one unit of `n`, which the induction follows
  induction n generalizing acc with
  | zero =>
    intro r
    rw [items]
    simp only [bind]
    exact (hx r).bind fun e r₁ => .ok (Reading.leadsTo_blanks r₁)
  | succ k ih =>
    intro r
    rw [items]
    simp only [bind]
    refine (hx r).bind fun e r₁ => (Onward.pre (Reading.leadsTo_blanks r₁) ?_)
    simp only [blanks_bind, cursor_bind]
    cases hd : r₁.cursor.skipBlanks.eat? ",".toUTF8 with
    | some d =>
      simp only [moveTo_bind]
      obtain ⟨ht, ho⟩ := eat?_forward hd
      exact Onward.pre (Reading.leadsTo_move ht (by dsimp only; omega)) (ih _ _)
    | none => exact pure_onward _

theorem primary_forward (hx : Forward expr) (mode : Mode) : Forward (primary mode expr) := by
  intro r
  refine Onward.pre (Reading.leadsTo_blanks r) ?_
  simp only [primary, bind, blanks_bind, cursor_bind]
  -- a group, an array, a call, a number, a name, or a byte that starts none of them
  cases hg : r.cursor.skipBlanks.eat? "(".toUTF8 with
  | some d =>
    simp only [moveTo_bind]
    obtain ⟨ht, ho⟩ := eat?_forward hg
    exact Onward.pre (Reading.leadsTo_move ht (by dsimp only; omega))
      ((hx _).bind fun inner r₁ => close_forward mode _ _ _ r₁)
  | none =>
  cases ha : r.cursor.skipBlanks.eat? "[".toUTF8 with
  | some d =>
    simp only [moveTo_bind]
    obtain ⟨ht, ho⟩ := eat?_forward ha
    exact Onward.pre (Reading.leadsTo_move ht (by dsimp only; omega))
      ((items_forward hx _ _ _).bind fun elems r₁ => close_forward mode _ _ _ r₁)
  | none =>
  dsimp only
  by_cases hcall : r.cursor.skipBlanks.opensCall = true
  · rw [if_pos hcall]
    refine (scan_onward fun _ _ h => identifier_forward h).bind fun name r₁ => ?_
    simp only [cursor_bind, moveTo_bind]
    -- past the name, the parenthesis and the blanks, the arguments, unless the call closes at once
    refine Onward.pre (Reading.leadsTo_move (c := r₁.cursor.advance.skipBlanks) (by simp)
      ((offset_le_advance _).trans (offset_le_skipBlanks _))) ?_
    split
    · exact (pure_onward _).bind fun args r₂ => close_forward mode _ _ _ r₂
    · exact (items_forward hx _ _ _).bind fun args r₂ => close_forward mode _ _ _ r₂
  rw [if_neg hcall]
  by_cases hd : Ascii.isDigit r.cursor.skipBlanks.peek = true
  · rw [if_pos hd]
    refine (scan_onward fun n c h => ?_).bind fun n r₁ => pure_onward _
    obtain ⟨rfl, -, -⟩ := number_eq_ok hd h
    exact ⟨skipWhile_text _ _, offset_le_skipWhile _ _⟩
  rw [if_neg hd]
  by_cases hl : Ascii.isLetter r.cursor.skipBlanks.peek = true
  · rw [if_pos hl]
    exact (scan_onward fun _ _ h => identifier_forward h).bind fun n r₁ => pure_onward _
  · rw [if_neg hl]
    exact failHere_onward _ _

theorem unary_forward (hx : Forward expr) (mode : Mode) : Forward (unary mode expr) := by
  intro r
  refine Onward.pre (Reading.leadsTo_blanks r) ?_
  simp only [unary, bind, blanks_bind, cursor_bind]
  cases hu : r.cursor.skipBlanks.unaryOp? with
  | some p =>
    obtain ⟨op, d⟩ := p
    simp only [moveTo_bind]
    obtain ⟨-, ht, -, -, ho⟩ := unaryOp?_eq_some hu
    exact Onward.pre (Reading.leadsTo_move ht (by dsimp only; omega))
      ((primary_forward hx mode _).bind fun x r₁ => pure_onward _)
  | none =>
    refine (primary_forward hx mode _).bind fun x r₁ => ?_
    simp only [cursor_bind]
    cases hp : r₁.cursor.postfixOp? with
    | some p =>
      obtain ⟨op, d⟩ := p
      simp only [moveTo_bind]
      obtain ⟨-, ht, -, -, ho⟩ := unaryOp?_eq_some (postfixOp?_eq_some hp).1
      exact Onward.pre (Reading.leadsTo_move ht (by omega)) (pure_onward _)
    | none => exact pure_onward _

theorem links_forward {operand : Reader Expr} (ho : Forward operand) (n : Nat)
    (acc : Array Link) : Forward (links operand n acc) := by
  -- each operator costs one unit of `n`, which the induction follows
  induction n generalizing acc with
  | zero =>
    intro r
    rw [links]
    exact pure_onward _
  | succ n ih =>
    intro r
    rw [links]
    simp only [bind, cursor_bind]
    cases hb : r.cursor.binaryOp? with
    | none => exact pure_onward _
    | some p =>
      obtain ⟨op, d⟩ := p
      simp only [moveTo_bind]
      obtain ⟨-, ht, -, -, hd⟩ := binaryOp?_eq_some hb
      refine Onward.pre (Reading.leadsTo_move ht (by omega)) ((ho _).bind fun u r₁ => ?_)
      simp only [blanks_bind]
      exact Onward.pre (Reading.leadsTo_blanks r₁) (ih _ _)

theorem level_forward (hx : Forward expr) (mode : Mode) : Forward (level mode expr) := by
  intro r
  simp only [level, bind]
  refine (unary_forward hx mode r).bind fun first r₁ => ?_
  simp only [blanks_bind, cursor_bind]
  refine Onward.pre (Reading.leadsTo_blanks r₁)
    ((links_forward (unary_forward hx mode) _ _ _).bind fun ls r₂ => ?_)
  -- a join too deep is blamed on its operator, found by seeking back only to name the place
  cases (Chain.mk first ls).assemble with
  | ok e => exact pure_onward _
  | error op => exact throw_onward _

end Readers

theorem expression_forward (mode : Mode) (budget : Nat) : Forward (expression mode budget) := by
  -- the budget counts the expressions that may still open, one per level
  induction budget with
  | zero => exact fun r => failHere_onward _ _
  | succ b ih => exact level_forward ih mode

theorem document_forward (mode : Mode) (budget : Nat) : Forward (document mode budget) := by
  intro r
  simp only [document, bind]
  refine (expression_forward mode budget r).bind fun e r₁ => ?_
  simp only [blanks_bind, cursor_bind]
  refine Onward.pre (Reading.leadsTo_blanks r₁) ?_
  split
  · exact pure_onward _
  · -- text after the expression is reported where it starts
    cases mode with
    | strict => exact failHere_onward _ _
    | lenient => exact (Onward.ok (Reading.leadsTo_warn rfl)).bind fun _ _ => pure_onward _

/-- Two steps after a common one agree when they agree after each of its successes. -/
theorem bind_congr_right {α β : Type} {x : Reader α} {f g : α → Reader β} {r : Reading}
    (h : ∀ a r₁, x r = .ok a r₁ → f a r₁ = g a r₁) : EStateM.bind x f r = EStateM.bind x g r := by
  unfold EStateM.bind
  cases hx : x r with
  | ok a r₁ => exact h a r₁ hx
  | error e r₁ => rfl

/-- A step that ends where the reading leads to leaves no more bytes to read. -/
theorem unread_le_of_ok {α : Type} {x : Reader α} (hx : Forward x) {r r₁ : Reading} {a : α}
    (h : x r = .ok a r₁) : r₁.cursor.unread ≤ r.cursor.unread := by
  have hr := hx r
  rw [h] at hr
  cases hr with
  | ok h => exact h.unread_le

/-- With nothing left to read no operator follows, whatever the fuel. -/
theorem links_of_unread_zero {operand : Reader Expr} {r : Reading} (h : r.cursor.unread = 0)
    (n : Nat) (acc : Array Link) : links operand n acc r = .ok acc.toList r := by
  cases n with
  | zero => rfl
  | succ n =>
    rw [links]
    simp only [bind, cursor_bind, binaryOp?_of_unread_zero h]
    rfl

/-- The operator loop pays at least a byte for each round, so the unread bytes are fuel enough:
more changes nothing. -/
theorem links_fuel {operand : Reader Expr} (ho : Forward operand) :
    ∀ (n m : Nat) (acc : Array Link) (r : Reading), r.cursor.unread ≤ n → r.cursor.unread ≤ m →
      links operand n acc r = links operand m acc r
  | 0, m, acc, r, hn, _ => by
    rw [links_of_unread_zero (by omega), links_of_unread_zero (by omega)]
  | n + 1, 0, acc, r, _, hm => by
    rw [links_of_unread_zero (by omega), links_of_unread_zero (by omega)]
  | n + 1, m + 1, acc, r, hn, hm => by
    rw [links, links]
    simp only [bind, cursor_bind]
    cases hb : r.cursor.binaryOp? with
    | none => rfl
    | some p =>
      obtain ⟨op, d⟩ := p
      simp only [moveTo_bind]
      obtain ⟨-, -, ha, -, -⟩ := binaryOp?_eq_some hb
      have hd : d.unread + op.val.spelling.toUTF8.data.toList.length = r.cursor.unread :=
        unread_of_ahead ha
      have hpos := op.val.size_spelling_pos
      simp only [Array.length_toList, ByteArray.size_data] at hd
      refine bind_congr_right fun u s hu => ?_
      -- the operator took a byte, and neither the operand nor the blanks give one back
      have hs : s.cursor.unread ≤ d.unread := unread_le_of_ok ho hu
      have hb := unread_skipBlanks_le s.cursor
      simp only [blanks_bind]
      exact links_fuel ho n m _ _ (by dsimp only; omega) (by dsimp only; omega)

/-- The comma loop pays a byte for each comma, so the unread bytes are fuel enough: more
changes nothing. -/
theorem items_fuel {expr : Reader Expr} (hx : Forward expr) :
    ∀ (n m : Nat) (acc : Array Expr) (r : Reading), r.cursor.unread ≤ n → r.cursor.unread ≤ m →
      items expr n acc r = items expr m acc r := by
  intro n m acc r hn hm
  rw [items, items]
  simp only [bind]
  refine bind_congr_right fun e s he => ?_
  have hs := unread_le_of_ok hx he
  have hb := unread_skipBlanks_le s.cursor
  simp only [blanks_bind, cursor_bind]
  -- fuel runs out only where nothing is left, so no comma could follow
  have hend : s.cursor.skipBlanks.unread = 0 → s.cursor.skipBlanks.eat? ",".toUTF8 = none :=
    eat?_of_unread_zero
  cases n with
  | zero =>
    cases m with
    | zero => rfl
    | succ j => simp only [hend (by omega)]
  | succ k =>
    cases m with
    | zero => simp only [hend (by omega)]
    | succ j =>
      cases hc : s.cursor.skipBlanks.eat? ",".toUTF8 with
      | none => rfl
      | some c =>
        simp only [moveTo_bind]
        have hcu : c.unread + 1 = s.cursor.skipBlanks.unread :=
          unread_of_ahead (eat?_eq_some hc).2
        exact items_fuel hx k j _ _ (by dsimp only; omega) (by dsimp only; omega)

/-- A step run first by one of two readers that agree at the start. -/
theorem bind_congr_left {α β : Type} {x x' : Reader α} {f : α → Reader β} {r : Reading}
    (h : x r = x' r) : EStateM.bind x f r = EStateM.bind x' f r := by
  unfold EStateM.bind
  rw [h]

/-- Items read past an opener depend on the expression reader only past that opener. -/
theorem items_congr {expr expr' : Reader Expr} {c : Cursor} (hx : Forward expr)
    (he : ∀ r, c.PastOpener r.cursor → expr r = expr' r) :
    ∀ (n : Nat) (acc : Array Expr) (r : Reading), c.PastOpener r.cursor →
      items expr n acc r = items expr' n acc r := by
  intro n
  induction n with
  | zero =>
    intro acc r hr
    rw [items, items]
    exact bind_congr_left (he r hr)
  | succ k ih =>
    intro acc r hr
    rw [items, items]
    simp only [bind]
    refine (bind_congr_left (he r hr)).trans (bind_congr_right fun e s hs => ?_)
    -- the item ends no further back, so the next one still starts past the opener
    have hrs : r.LeadsTo s := by
      have h := hx r
      rw [he r hr, hs] at h
      cases h with
      | ok h => exact h
    have hs' := hr.mono hrs.text_eq hrs.offset_le
    simp only [blanks_bind, cursor_bind]
    cases hd : s.cursor.skipBlanks.eat? ",".toUTF8 with
    | none => rfl
    | some d =>
      simp only [moveTo_bind]
      obtain ⟨ht, ho⟩ := eat?_forward hd
      exact ih _ _ (hs'.mono (ht.trans (skipBlanks_text _))
        ((offset_le_skipBlanks _).trans (by dsimp only; omega)))

/-- A primary runs the expression reader only past an opener it has read: a group past its `(`,
an array past its `[`, a call past its name and `(`. -/
theorem primary_congr {expr expr' : Reader Expr} (mode : Mode) (hx : Forward expr) (r : Reading)
    (he : ∀ r', r.cursor.skipBlanks.PastOpener r'.cursor → expr r' = expr' r') :
    primary mode expr r = primary mode expr' r := by
  simp only [primary, bind, blanks_bind, cursor_bind]
  cases hg : r.cursor.skipBlanks.eat? "(".toUTF8 with
  | some d =>
    simp only [moveTo_bind]
    exact bind_congr_left (he _ (pastOpener_eat (.inl rfl) hg))
  | none =>
  cases ha : r.cursor.skipBlanks.eat? "[".toUTF8 with
  | some d =>
    simp only [moveTo_bind]
    exact bind_congr_left (items_congr hx he _ _ _ (pastOpener_eat (.inr rfl) ha))
  | none =>
  dsimp only
  by_cases hcall : r.cursor.skipBlanks.opensCall = true
  · rw [if_pos hcall, if_pos hcall]
    refine bind_congr_right fun name r₁ hr₁ => ?_
    obtain ⟨c', hc', rfl⟩ := scan_eq_ok.mp hr₁
    obtain ⟨-, rfl, -⟩ := identifier_eq_ok hc'
    simp only [cursor_bind, moveTo_bind]
    split
    · rfl
    · exact bind_congr_left (items_congr hx he _ _ _
        ((pastOpener_call hcall).mono (skipBlanks_text _) (offset_le_skipBlanks _)))
  · rw [if_neg hcall, if_neg hcall]

end Reader

/-- The warnings of a reading that starts at the first byte stand in order of offset. -/
theorem parseWithin_warnings_ordered (budget : Nat) (text : ByteArray) (mode : Mode) :
    ((Expr.parseWithin budget text mode).warnings.map (·.location.offset)).Pairwise (· ≤ ·) := by
  have h := Reader.document_forward mode budget ⟨Cursor.start text, []⟩
  have h₀ : Reading.Ordered ⟨Cursor.start text, []⟩ := ⟨List.Pairwise.nil, nofun⟩
  unfold Expr.parseWithin EStateM.run
  cases hd : Reader.document mode budget ⟨Cursor.start text, []⟩ with
  | ok e r' =>
    rw [hd] at h
    cases h with
    | ok h => exact (h.ordered h₀).sorted
  | error d r' =>
    rw [hd] at h
    cases h with
    | error h => exact (h.ordered h₀).sorted

/-- Reading a text, in either mode, only moves on. Every expression and the whole text end on the
same text, the cursor no further back, the warnings issued before still first. The operator and
comma loops pay a byte a round, so the unread bytes are all the fuel they take. A primary runs the
expression reader only past an opener it has read. And the warnings of the reading stand in
order of offset. -/
theorem parse_moves_forward (text : ByteArray) (mode : Mode) :
    (∀ b, Reader.Forward (Reader.expression mode b) ∧ Reader.Forward (Reader.document mode b)) ∧
    (∀ (b n m : Nat) (acc : Array Link) (r : Reading), r.cursor.unread ≤ n →
      r.cursor.unread ≤ m → Reader.links (Reader.unary mode (Reader.expression mode b)) n acc r =
        Reader.links (Reader.unary mode (Reader.expression mode b)) m acc r) ∧
    (∀ (b n m : Nat) (acc : Array Expr) (r : Reading), r.cursor.unread ≤ n →
      r.cursor.unread ≤ m → Reader.items (Reader.expression mode b) n acc r =
        Reader.items (Reader.expression mode b) m acc r) ∧
    (∀ (b : Nat) (expr' : Reader Expr) (r : Reading),
      (∀ r', r.cursor.skipBlanks.PastOpener r'.cursor → Reader.expression mode b r' = expr' r') →
      Reader.primary mode (Reader.expression mode b) r = Reader.primary mode expr' r) ∧
    ((Expr.parse text mode).warnings.map (·.location.offset)).Pairwise (· ≤ ·) :=
  ⟨fun b => ⟨Reader.expression_forward mode b, Reader.document_forward mode b⟩,
    fun b => Reader.links_fuel (Reader.unary_forward (Reader.expression_forward mode b) mode),
    fun b => Reader.items_fuel (Reader.expression_forward mode b),
    fun b _ r => Reader.primary_congr mode (Reader.expression_forward mode b) r,
    parseWithin_warnings_ordered nestingLimit text mode⟩

/-- In `[(1 ] x` read leniently, the group is closed at the `]`, offset 4, and the text after the
array is ignored from offset 6: the warnings come in that order. -/
theorem parse_moves_forward_repairs :
    (Expr.parse "[(1 ] x".toUTF8 .lenient).warnings.map (·.location.offset) = [4, 6] ∧
      ((Expr.parse "[(1 ] x".toUTF8 .lenient).warnings.map (·.location.offset)).Pairwise
        (· ≤ ·) :=
  ⟨by decide +kernel, (parse_moves_forward _ _).2.2.2.2⟩

end Formula
