import Formula.Proofs.Printing

/-! Reading a readable tree back from its source text, whatever may follow it at its place: every
returned tree prints to a source that the strict reading takes back (`parse_toSource`). -/

namespace Formula

/-- What may follow the source of a whole expression: nothing, or `)`, `,` or `]`. -/
def Closes (rest : List UInt8) : Prop := ∀ b ∈ rest.head?, b = 41 ∨ b = 44 ∨ b = 93

/-- What may follow the source of an operand `x` in a chain: the end of its expression, or a
binary operator between blanks that `x` does not clash with. -/
def FollowsOperand (x : Expr) (rest : List UInt8) : Prop :=
  Closes rest ∨ ∃ op more, rest = 32 :: op.spelling.toUTF8.data.toList ++ 32 :: more ∧
    x.clashes op = false

/-- What may follow the source of a primary: no byte of a name and no `(`. -/
def FollowsPrimary (rest : List UInt8) : Prop :=
  ∀ b ∈ rest.head?, Ascii.isNameByte b = false ∧ b ≠ 40

theorem BinaryOp.spelling_head (op : BinaryOp) : ∃ b bs, op.spelling.toUTF8.data.toList = b :: bs ∧
    Ascii.opensPrimary b = false ∧ Ascii.isBlank b = false := by
  cases op <;> exact ⟨_, _, (BinaryOp.spelling_bytes _).trans rfl, by decide, by decide⟩

theorem Closes.dropWhile_blank {rest : List UInt8} (h : Closes rest) :
    rest.dropWhile Ascii.isBlank = rest := by
  cases rest with
  | nil => rfl
  | cons b bs =>
    rcases h b rfl with rfl | rfl | rfl <;> rfl

theorem Closes.binaryAt {rest : List UInt8} (h : Closes rest) : binaryAt rest = none := by
  cases rest with
  | nil => rfl
  | cons b bs =>
    rcases h b rfl with rfl | rfl | rfl <;>
      simp [Formula.binaryAt, Cursor.firstOp, BinaryOp.all, BinaryOp.spelling_bytes, List.find?,
        List.isPrefixOf_cons_cons]

/-- After an operand stands a blank, a closer or nothing. -/
theorem FollowsOperand.head {x : Expr} {rest : List UInt8} (h : FollowsOperand x rest) :
    ∀ b ∈ rest.head?, b = 32 ∨ b = 41 ∨ b = 44 ∨ b = 93 := by
  rcases h with h | ⟨op, more, rfl, -⟩
  · intro b hb
    rcases h b hb with h | h | h <;> simp [h]
  · simp

theorem FollowsOperand.unaryAt {x : Expr} {rest : List UInt8} (h : FollowsOperand x rest) :
    unaryAt rest = none := by
  cases rest with
  | nil => rfl
  | cons b bs =>
    rcases h.head b rfl with rfl | rfl | rfl | rfl <;>
      simp [Formula.unaryAt, Cursor.firstOp, UnaryOp.all, UnaryOp.spelling_bytes, List.find?,
        List.isPrefixOf_cons_cons]

theorem FollowsOperand.primary {x : Expr} {rest : List UInt8} (h : FollowsOperand x rest) :
    FollowsPrimary rest := by
  intro b hb
  rcases h.head b hb with rfl | rfl | rfl | rfl <;> exact ⟨by decide, by decide⟩

theorem followsPrimary_spelling (op : UnaryOp) (rest : List UInt8) :
    FollowsPrimary (op.spelling.toUTF8.data.toList ++ rest) := by
  cases op <;> simp [FollowsPrimary, UnaryOp.spelling_bytes] <;> decide

theorem unaryAt_of_opensPrimary {b : UInt8} (bs : List UInt8) (h : Ascii.opensPrimary b = true) :
    unaryAt (b :: bs) = none := by
  have h43 : (43 == b) = false := beq_eq_false_iff_ne.mpr (by rintro rfl; exact absurd h (by decide))
  have h45 : (45 == b) = false := beq_eq_false_iff_ne.mpr (by rintro rfl; exact absurd h (by decide))
  have h33 : (33 == b) = false := beq_eq_false_iff_ne.mpr (by rintro rfl; exact absurd h (by decide))
  simp [Formula.unaryAt, Cursor.firstOp, UnaryOp.all, UnaryOp.spelling_bytes, List.find?,
    List.isPrefixOf_cons_cons, h43, h45, h33]

/-- A unary operator is read whole unless a `-` follows: `-` before `-` is `--`. -/
theorem unaryAt_spelling (op : UnaryOp) {rest : List UInt8} (h : rest.head? ≠ some 45) :
    unaryAt (op.spelling.toUTF8.data.toList ++ rest) = some op := by
  cases rest with
  | nil => cases op <;> rfl
  | cons b bs =>
    have hb : (45 == b) = false := beq_eq_false_iff_ne.mpr fun hb => h (by simp [hb])
    cases op <;> simp [Formula.unaryAt, Cursor.firstOp, UnaryOp.all, UnaryOp.spelling_bytes,
      List.find?, List.isPrefixOf_cons_cons, hb]

/-- Before a binary operator written between blanks, the blank is skipped and no more. -/
theorem dropWhile_blank_spelling (op : BinaryOp) (more : List UInt8) :
    (32 :: op.spelling.toUTF8.data.toList ++ 32 :: more).dropWhile Ascii.isBlank =
      op.spelling.toUTF8.data.toList ++ 32 :: more := by
  obtain ⟨b, bs, hb, -, hbl⟩ := op.spelling_head
  rw [List.cons_append, List.dropWhile_cons_of_pos (by decide), hb, List.cons_append,
    List.dropWhile_cons_of_neg (by simp [hbl])]

/-- Only `-` and `!=` among the binary operators start like a unary one. -/
theorem unaryAt_spelling_blank {op : BinaryOp} (h : op ≠ .sub ∧ op ≠ .ne) (more : List UInt8) :
    unaryAt (op.spelling.toUTF8.data.toList ++ 32 :: more) = none := by
  cases op <;> simp_all [Formula.unaryAt, Cursor.firstOp, UnaryOp.all, UnaryOp.spelling_bytes,
    BinaryOp.spelling_bytes, List.find?, List.isPrefixOf_cons_cons]

/-- Where a postfix operator's place lets it stand, no longer binary operator starts with it,
and only `-` is as long as the binary operator it starts. -/
theorem binaryLength_postfix (op : UnaryOp) {rest : List UInt8}
    (h : ∀ b ∈ rest.head?, b = 32 ∨ b = 41 ∨ b = 44 ∨ b = 93) :
    let n := ((binaryAt (op.spelling.toUTF8.data.toList ++ rest)).map
      (·.spelling.toUTF8.size)).getD 0
    n ≤ op.spelling.toUTF8.size ∧ (op ≠ .neg → n ≠ op.spelling.toUTF8.size) := by
  cases rest with
  | nil => cases op <;> decide
  | cons b bs =>
    rcases h b rfl with rfl | rfl | rfl | rfl <;> cases op <;>
      simp [Formula.binaryAt, Cursor.firstOp, BinaryOp.all, UnaryOp.spelling_bytes,
        BinaryOp.spelling_bytes, List.find?, List.isPrefixOf_cons_cons] <;> decide

/-- A postfix operator written where its operand's place lets it stand passes the guard. -/
theorem postfixOp?_of_follows {c : Cursor} {op : Spanned UnaryOp} {x : Expr} {s : Span}
    {rest : List UInt8} (hc : c.ahead = op.val.spelling.toUTF8.data.toList ++ rest)
    (hf : FollowsOperand (.unary op .post x s) rest) :
    ∃ o d, c.postfixOp? = some (o, d) ∧ o.val = op.val ∧ d.ahead = rest := by
  have hh := hf.head
  have h45 : rest.head? ≠ some 45 := fun h => by rcases hh 45 h with h | h | h | h <;> cases h
  obtain ⟨d, sp, hu, -, hd⟩ := Cursor.unaryOp?_of_unaryAt (hc ▸ unaryAt_spelling op.val h45)
  have hdr : d.ahead = rest := List.append_cancel_left (hd.symm.trans hc)
  obtain ⟨hle, hne⟩ := binaryLength_postfix op.val hh
  rw [← hc, ← Cursor.binaryLength_eq] at hle hne
  refine ⟨⟨op.val, sp⟩, d, Cursor.postfixOp?_of hu hle ?_ ?_, rfl, hdr⟩
  · rw [Cursor.peek_eq, Cursor.skipBlanks_ahead, hdr]
    rcases hf with hcl | ⟨bop, more, rfl, -⟩
    · rw [hcl.dropWhile_blank]
      cases rest with
      | nil => decide
      | cons b bs => rcases hcl b rfl with rfl | rfl | rfl <;> rfl
    · obtain ⟨b, bs, hb, ho, -⟩ := bop.spelling_head
      rw [dropWhile_blank_spelling, hb]
      exact ho
  · intro heq
    rw [Cursor.unaryOp?_eq_none, Cursor.skipBlanks_ahead, hdr]
    rcases hf with hcl | ⟨bop, more, rfl, hcl⟩
    · rw [hcl.dropWhile_blank]
      exact FollowsOperand.unaryAt (x := x) (.inl hcl)
    · by_cases hneg : op.val = .neg
      · have hb : bop ≠ .sub ∧ bop ≠ .ne := by
          constructor <;> rintro rfl <;> simp [Expr.clashes, hneg] at hcl
        rw [dropWhile_blank_spelling]
        exact unaryAt_spelling_blank hb more
      · exact absurd heq.symm (hne hneg)

theorem eq_of_bytes {s t : String} (h : s.toUTF8.data.toList = t.toUTF8.data.toList) : s = t := by
  simp only [String.toUTF8_eq_toByteArray] at h
  exact String.toByteArray_inj.mp (ByteArray.ext (Array.ext' h))

theorem eat?_byte (lit : ByteArray) {c : Cursor} {x : UInt8} {rest : List UInt8}
    (hl : lit.data.toList = [x]) (h : c.ahead = x :: rest) : ∃ d, c.eat? lit = some d ∧ d.ahead = rest := by
  have hne : 0 < lit.size := by
    rw [← ByteArray.size_data, ← Array.length_toList, hl]; exact Nat.one_pos
  obtain ⟨d, hd, -, hr⟩ := Cursor.eat?_of_prefix hne (by rw [h, hl]; rfl)
  exact ⟨d, hd, hr⟩

theorem eat?_byte_none {c : Cursor} {lit : ByteArray} {x : UInt8} (hl : lit.data.toList = [x])
    (h : c.ahead.head? ≠ some x) : c.eat? lit = none := by
  rw [Cursor.eat?_eq_none_iff, hl]
  rintro ⟨-, rest, hr⟩
  rw [← hr] at h
  exact h rfl

namespace Ascii

theorem isName_bytes {name : String} (h : isName name) :
    ∃ b bs, name.toUTF8.data.toList = b :: bs ∧ isLetter b ∧ ∀ c ∈ b :: bs, isNameByte c := by
  unfold isName at h
  split at h
  · rename_i b bs hb
    simp only [Bool.and_eq_true, List.all_eq_true] at h
    refine ⟨b, bs, hb, h.1, ?_⟩
    rintro c (_ | ⟨_, hc⟩)
    · exact isNameByte_of_isLetter h.1
    · exact h.2 c hc
  · cases h

/-- A name, and then a byte that no name has, splits there. -/
theorem split_name {bs rest : List UInt8} (hb : ∀ c ∈ bs, isNameByte c)
    (hr : ∀ c ∈ rest.head?, isNameByte c = false) :
    (bs ++ rest).takeWhile isNameByte = bs ∧ (bs ++ rest).dropWhile isNameByte = rest := by
  constructor
  · rw [List.takeWhile_append_of_pos hb]
    cases rest with
    | nil => simp
    | cons c cs => simp [hr c rfl]
  · rw [List.dropWhile_append_of_pos hb]
    cases rest with
    | nil => rfl
    | cons c cs => simp [hr c rfl]

/-- A decimal numeral, and then a byte that no name has, splits there. -/
theorem split_decimal (n : Nat) {rest : List UInt8} (hf : FollowsPrimary rest) :
    ((natDecimal n).toUTF8.data.toList ++ rest).takeWhile isDigit = (natDecimal n).toUTF8.data.toList ∧
      ((natDecimal n).toUTF8.data.toList ++ rest).dropWhile isDigit = rest := by
  have hd : ∀ c ∈ (natDecimal n).toUTF8.data.toList, isDigit c := fun c hc => isDigit_of_mem_decimal hc
  have hr : ∀ c ∈ rest.head?, isDigit c = false := fun c hc => by
    have := (hf c hc).1
    cases h : isDigit c
    · rfl
    · simp [isNameByte_of_isDigit h] at this
  constructor
  · rw [List.takeWhile_append_of_pos hd]
    cases rest with
    | nil => simp
    | cons c cs => simp [hr c rfl]
  · rw [List.dropWhile_append_of_pos hd]
    cases rest with
    | nil => rfl
    | cons c cs => simp [hr c rfl]

end Ascii

theorem Ascii.isDigit_of_isLetter {b : UInt8} (h : isLetter b = true) : isDigit b = false := by
  simp only [isLetter, Bool.or_eq_true, Bool.and_eq_true, decide_eq_true_eq] at h
  simp only [isDigit, Bool.and_eq_false_iff, decide_eq_false_iff_not, UInt8.not_le]
  grind

/-- A name written at the cursor is scanned whole, up to the byte after it. -/
theorem Cursor.identifier_of_name {c : Cursor} {name : String} {rest : List UInt8}
    (hn : Ascii.isName name) (hr : ∀ b ∈ rest.head?, Ascii.isNameByte b = false)
    (hc : c.ahead = name.toUTF8.data.toList ++ rest) :
    Ascii.isLetter c.peek = true ∧ ∃ n d, c.identifier = .ok (n, d) ∧ n.val = name ∧
      d = c.skipWhile Ascii.isNameByte ∧ d.ahead = rest := by
  obtain ⟨a, as, hab, hl, hall⟩ := Ascii.isName_bytes hn
  obtain ⟨htake, hdrop⟩ := Ascii.split_name hall hr
  have hpeek : c.peek = a := by rw [peek_eq, hc, hab]; rfl
  rw [← hpeek] at hl
  have hid := identifier_of_letter hl
  refine ⟨hl, _, _, hid, eq_of_bytes ?_, rfl, ?_⟩
  · rw [identifier_bytes hid, hc, hab, htake]
  · rw [skipWhile_ahead, hc, hab, hdrop]

/-- Reading the source of `x` back by `rule` gives a tree of the same shape and stops right
after it, in strict mode and without a warning; `rest` is what follows, as `x`'s place
allows. -/
def Rereads : Rule → Expr → Prop
  | .expression, e => ∀ (b : Nat) (r : Reading) (rest : List UInt8), e.depth < b →
      r.cursor.skipBlanks.ahead = e.sourceBytes ++ rest → Closes rest →
      ∃ e' c, Reader.expression .strict b r = .ok e' ⟨c, r.warnings⟩ ∧ c.ahead = rest ∧
        e.sameShape e' = true
  | .unary, x => ∀ (b : Nat) (r : Reading) (rest : List UInt8), x.depth ≤ b →
      r.cursor.skipBlanks.ahead = x.sourceBytes ++ rest → FollowsOperand x rest →
      ∃ x' c, Reader.unary .strict (Reader.expression .strict b) r = .ok x' ⟨c, r.warnings⟩ ∧
        c.ahead = rest ∧ x.sameShape x' = true
  | .primary, x => ∀ (b : Nat) (r : Reading) (rest : List UInt8), x.depth ≤ b →
      r.cursor.skipBlanks.ahead = x.sourceBytes ++ rest → FollowsPrimary rest →
      ∃ x' c, Reader.primary .strict (Reader.expression .strict b) r = .ok x' ⟨c, r.warnings⟩ ∧
        c.ahead = rest ∧ x.sameShape x' = true

/-- No bracket is eaten where a name or a number starts. -/
theorem eat?_bracket_none {c : Cursor} (h : (Ascii.isLetter c.peek || Ascii.isDigit c.peek) = true) :
    c.eat? "(".toUTF8 = none ∧ c.eat? "[".toUTF8 = none := by
  have hne : ∀ x : UInt8, (Ascii.isLetter x || Ascii.isDigit x) = false → c.ahead.head? ≠ some x := by
    intro x hx hh
    rw [Cursor.peek_eq, List.headD_eq_head?_getD, hh, Option.getD_some, hx] at h
    cases h
  exact ⟨eat?_byte_none (by decide) (hne 40 (by decide)),
    eat?_byte_none (by decide) (hne 91 (by decide))⟩

theorem var_rereads {name : String} {s : Span} (hn : Ascii.isName name) :
    Rereads .primary (.var name s) := by
  intro b r rest _ hc hf
  rw [Expr.sourceBytes] at hc
  obtain ⟨hl, n, d, hid, rfl, hd, hdr⟩ := Cursor.identifier_of_name hn (fun c hc => (hf c hc).1) hc
  have h40 : (d.peek = 40) = False := by
    rw [Cursor.peek_eq, hdr]
    cases rest with
    | nil => simp
    | cons c cs => simpa using (hf c rfl).2
  refine ⟨_, _, Reader.primary_eq_ok.mpr (.inr (.inr (.inr (.inr ⟨?_, ?_, ?_,
    Ascii.isDigit_of_isLetter hl, hl, n, d, hid, rfl, rfl⟩)))), hdr, by simp [Expr.sameShape]⟩
  · exact (eat?_bracket_none (by simp [hl])).1
  · exact (eat?_bracket_none (by simp [hl])).2
  · rw [Bool.eq_false_iff, ne_eq, Cursor.opensCall_iff, ← hd]
    simp [h40]

theorem Ascii.isLetter_of_isDigit {b : UInt8} (h : isDigit b = true) : isLetter b = false := by
  cases hl : isLetter b
  · rfl
  · simp [isDigit_of_isLetter hl] at h

theorem num_rereads {v : Int64} {s : Span} (hv : 0 ≤ v.toInt) : Rereads .primary (.num v s) := by
  intro b r rest _ hc hf
  have hdec : Ascii.intDecimal v.toInt = Ascii.natDecimal v.toInt.natAbs := by
    simp [Ascii.intDecimal, Int.not_lt.mpr hv]
  rw [Expr.sourceBytes, hdec] at hc
  obtain ⟨htake, hdrop⟩ := Ascii.split_decimal v.toInt.natAbs hf
  obtain ⟨a, as, hab⟩ := List.exists_cons_of_ne_nil (Ascii.decimal_ne_nil v.toInt.natAbs)
  have hdig : Ascii.isDigit r.cursor.skipBlanks.peek = true := by
    rw [Cursor.peek_eq, hc, hab]
    exact Ascii.isDigit_of_mem_decimal (hab ▸ List.mem_cons_self)
  have hval : Ascii.digitsValue (r.cursor.skipBlanks.takeWhile Ascii.isDigit).1 = v.toInt.natAbs := by
    rw [Ascii.digitsValue_eq, (Cursor.takeWhile_eq _ _).1, hc, htake, Ascii.decimal_value]
  obtain ⟨n, hn, hnv⟩ := Cursor.number_of_digit hdig (by
    have := Int64.toInt_lt v
    rw [hval]
    omega)
  have hnval : n.val = v := Int64.toInt_inj.mp (by rw [hnv, hval]; omega)
  have hletter := Ascii.isLetter_of_isDigit hdig
  refine ⟨_, _, Reader.primary_eq_ok.mpr (.inr (.inr (.inr (.inl ⟨?_, ?_, ?_, hdig, n, _, hn,
    rfl, rfl⟩)))), ?_, by simp [Expr.sameShape, hnval]⟩
  · exact (eat?_bracket_none (by simp [hdig])).1
  · exact (eat?_bracket_none (by simp [hdig])).2
  · rw [Bool.eq_false_iff, ne_eq, Cursor.opensCall_iff]
    simp [hletter]
  · rw [Cursor.skipWhile_ahead, hc, hdrop]

/-- A strict reading finds a closer written right where it should stand. -/
theorem closer_of_ahead {r : Reading} {b : Bracket} (openAt : Nat) {rest : List UInt8}
    (h : r.cursor.ahead = b.closer :: rest) :
    ∃ c, Reader.closer .strict b openAt r = .ok () ⟨c, r.warnings⟩ ∧ c.ahead = rest := by
  have hs : r.cursor.skipBlanks.ahead = b.closer :: rest := by
    rw [Cursor.skipBlanks_ahead, h, List.dropWhile_cons_of_neg (by cases b <;> decide)]
  refine ⟨_, Reader.closer_eq_ok.mpr (.inl ⟨?_, rfl⟩), ?_⟩
  · rw [Cursor.peek_eq, hs]
    rfl
  · rw [Cursor.advance_ahead, hs]
    rfl

theorem group_rereads {x : Expr} {s : Span} (hx : Readable .expression x)
    (ih : Rereads .expression x) : Rereads .primary (.group x s) := by
  intro b r rest hd hc _
  simp only [Expr.sourceBytes, List.cons_append, List.append_assoc, List.nil_append] at hc
  obtain ⟨d, hd1, hd2⟩ := eat?_byte "(".toUTF8 (by decide) hc
  obtain ⟨x', c, hx', hca, hsh⟩ := ih b ⟨d, r.warnings⟩ (41 :: rest)
    (by simp only [Expr.depth] at hd; omega)
    (by rw [Cursor.skipBlanks_ahead, hd2, hx.dropWhile_blank])
    (fun b hb => by simp only [List.head?_cons, Option.mem_def, Option.some.injEq] at hb; simp [← hb])
  obtain ⟨c', hcl, hc'⟩ := closer_of_ahead (b := .round) r.cursor.skipBlanks.offset
    (r := ⟨c, r.warnings⟩) hca
  exact ⟨_, c', Reader.primary_eq_ok.mpr (.inl ⟨d, x', _, hd1, hx', hcl, rfl⟩), hc',
    by simp [Expr.sameShape, hsh]⟩

theorem Expr.length_le_listBytes : ∀ es : List Expr, es.length ≤ (listBytes es).length + 1
  | [] | [_] => by simp [listBytes]
  | e :: e' :: es => by
    have := length_le_listBytes (e' :: es)
    simp only [listBytes, List.length_append, List.length_cons] at this ⊢
    omega

theorem Expr.listBytes_cons (e : Expr) (es : List Expr) :
    ∃ t, listBytes (e :: es) = e.sourceBytes ++ t := by
  cases es with
  | nil => exact ⟨[], by simp [listBytes]⟩
  | cons e' es => exact ⟨_, rfl⟩

/-- The source of a non-empty list of readable trees opens with a byte that begins an operand. -/
theorem listBytes_head {es : List Expr} (hne : es ≠ []) (h : ∀ x ∈ es, Readable .expression x) :
    ∃ b bs, Expr.listBytes es = b :: bs ∧ Ascii.opensOperand b = true := by
  obtain ⟨e, es, rfl⟩ := List.exists_cons_of_ne_nil hne
  obtain ⟨t, ht⟩ := Expr.listBytes_cons e es
  obtain ⟨b, bs, hb, ho⟩ := (h e List.mem_cons_self).sourceBytes_head
  exact ⟨b, bs ++ t, by rw [ht, hb, List.cons_append], ho⟩

theorem listBytes_dropWhile {es : List Expr} (hne : es ≠ []) (h : ∀ x ∈ es, Readable .expression x)
    (rest : List UInt8) :
    (Expr.listBytes es ++ rest).dropWhile Ascii.isBlank = Expr.listBytes es ++ rest := by
  obtain ⟨b, bs, hb, ho⟩ := listBytes_head hne h
  rw [hb, List.cons_append, List.dropWhile_cons_of_neg (by simp [Ascii.isBlank_of_opensOperand ho])]

theorem Expr.lt_of_depthList_le {es : List Expr} {b : Nat} (h : depthList es ≤ b) :
    ∀ x ∈ es, x.depth < b := by
  induction es with
  | nil => simp
  | cons e es ih =>
    simp only [depthList] at h
    rintro x (_ | ⟨_, hx⟩)
    · omega
    · exact ih (by omega) x hx

/-- The items of an array or the arguments of a call, read back from their source up to the
closer after them. -/
theorem items_rereads {b : Nat} : ∀ {es : List Expr} {n : Nat} (acc : Array Expr) {r : Reading}
    {rest : List UInt8}, es ≠ [] →
    (∀ x ∈ es, Readable .expression x ∧ Rereads .expression x ∧ x.depth < b) →
    es.length ≤ n + 1 → r.cursor.skipBlanks.ahead = Expr.listBytes es ++ rest →
    (∀ c ∈ rest.head?, c = 41 ∨ c = 93) →
    ∃ es' c, Reader.items (Reader.expression .strict b) n acc r =
      .ok (acc.toList ++ es') ⟨c, r.warnings⟩ ∧ c.ahead = rest ∧ Expr.sameShapeList es es' = true
  | [], _, _, _, _, hne, _, _, _, _ => absurd rfl hne
  | [x], n, acc, r, rest, _, hes, _, hc, hr => by
    obtain ⟨-, ih, hd⟩ := hes x List.mem_cons_self
    obtain ⟨x', c, hx', hca, hsh⟩ := ih b r rest hd (by simpa [Expr.listBytes] using hc)
      (fun c hc => by rcases hr c hc with h | h <;> simp [h])
    have hblank : c.skipBlanks.ahead = rest := by
      rw [Cursor.skipBlanks_ahead, hca]
      cases rest with
      | nil => rfl
      | cons c cs => rcases hr c rfl with rfl | rfl <;> rfl
    refine ⟨[x'], c.skipBlanks, ?_, hblank, by simp [Expr.sameShapeList, hsh]⟩
    cases n with
    | zero => exact Reader.items_zero_eq_ok.mpr ⟨x', _, hx', by simp, rfl⟩
    | succ k =>
      refine Reader.items_succ_eq_ok.mpr ⟨x', _, hx', .inr ⟨?_, by simp, rfl⟩⟩
      refine eat?_byte_none (x := 44) (by decide) ?_
      simp only [hblank]
      cases rest with
      | nil => simp
      | cons c cs => rcases hr c rfl with rfl | rfl <;> simp
  | x :: x' :: xs, n, acc, r, rest, _, hes, hlen, hc, hr => by
    obtain ⟨-, ih, hd⟩ := hes x List.mem_cons_self
    have hall : ∀ y ∈ x' :: xs, Readable .expression y := fun y hy =>
      (hes y (List.mem_cons_of_mem _ hy)).1
    obtain ⟨x'', c, hx', hca, hsh⟩ := ih b r (44 :: (Expr.listBytes (x' :: xs) ++ rest)) hd
      (by simpa [Expr.listBytes] using hc) (by simp [Closes])
    have hblank : c.skipBlanks.ahead = 44 :: (Expr.listBytes (x' :: xs) ++ rest) := by
      rw [Cursor.skipBlanks_ahead, hca]
      rfl
    obtain ⟨c₁, hc₁, hca₁⟩ := eat?_byte ",".toUTF8 (by decide) hblank
    obtain ⟨k, rfl⟩ : ∃ k, n = k + 1 := ⟨n - 1, by simp at hlen; omega⟩
    obtain ⟨es', c', hi, hca', hsh'⟩ := items_rereads (acc.push x'') (r := ⟨c₁, r.warnings⟩)
      (List.cons_ne_nil _ _) (fun y hy => hes y (List.mem_cons_of_mem _ hy))
      (by simp at hlen ⊢; omega)
      (by rw [Cursor.skipBlanks_ahead, hca₁, listBytes_dropWhile (List.cons_ne_nil _ _) hall]) hr
    refine ⟨x'' :: es', c', Reader.items_succ_eq_ok.mpr ⟨x'', _, hx', .inl ⟨c₁, hc₁, ?_⟩⟩, hca',
      by simp [Expr.sameShapeList, hsh, hsh']⟩
    simpa using hi

theorem array_rereads {es : List Expr} {s : Span} (hne : es ≠ [])
    (hes : ∀ x ∈ es, Readable .expression x) (ih : ∀ x ∈ es, Rereads .expression x) :
    Rereads .primary (.array es s) := by
  intro b r rest hd hc _
  simp only [Expr.sourceBytes, List.cons_append, List.append_assoc, List.nil_append] at hc
  simp only [Expr.depth] at hd
  obtain ⟨d, hd1, hd2⟩ := eat?_byte "[".toUTF8 (by decide) hc
  obtain ⟨es', c, hi, hca, hsh⟩ := items_rereads #[] (n := d.unread) (r := ⟨d, r.warnings⟩)
    hne (fun x hx => ⟨hes x hx, ih x hx, Expr.lt_of_depthList_le hd x hx⟩)
    (by
      have := Expr.length_le_listBytes es
      rw [← Cursor.length_ahead, hd2]
      simp only [List.length_append, List.length_cons]
      omega)
    (by rw [Cursor.skipBlanks_ahead, hd2, listBytes_dropWhile hne hes]) (by simp)
  obtain ⟨c', hcl, hc'⟩ := closer_of_ahead (b := .square) r.cursor.skipBlanks.offset
    (r := ⟨c, r.warnings⟩) hca
  refine ⟨_, c', Reader.primary_eq_ok.mpr (.inr (.inl ⟨?_, d, es', _, hd1, by simpa using hi, hcl,
    rfl⟩)), hc', by simp [Expr.sameShape, hsh]⟩
  exact eat?_byte_none (x := 40) (by decide) (by rw [hc]; simp)

theorem call_rereads {name : Spanned String} {args : List Expr} {s : Span}
    (hn : Ascii.isName name.val) (hes : ∀ x ∈ args, Readable .expression x)
    (ih : ∀ x ∈ args, Rereads .expression x) : Rereads .primary (.call name args s) := by
  intro b r rest hd hc _
  simp only [Expr.sourceBytes, List.append_assoc, List.cons_append] at hc
  simp only [Expr.depth] at hd
  obtain ⟨hl, n, d, hid, hval, hdw, hdr⟩ := Cursor.identifier_of_name hn (by simp; decide) hc
  have hopen : r.cursor.skipBlanks.opensCall = true := by
    rw [Cursor.opensCall_iff, ← hdw]
    exact ⟨hl, by rw [Cursor.peek_eq, hdr]; rfl⟩
  have hadv : d.advance.skipBlanks.ahead = Expr.listBytes args ++ 41 :: rest := by
    rw [Cursor.skipBlanks_ahead, Cursor.advance_ahead, hdr]
    by_cases hne : args = []
    · subst hne
      rfl
    · exact listBytes_dropWhile hne hes _
  -- the arguments, then the closer after them
  obtain ⟨args', st, hargs, hst, hsh⟩ : ∃ args' st,
      (if d.advance.skipBlanks.peek = 41 then args' = [] ∧ st = ⟨d.advance.skipBlanks, r.warnings⟩
        else Reader.items (Reader.expression .strict b) d.advance.skipBlanks.unread #[]
          ⟨d.advance.skipBlanks, r.warnings⟩ = .ok args' st) ∧
      (st.cursor.ahead = 41 :: rest ∧ st.warnings = r.warnings) ∧
        Expr.sameShapeList args args' = true := by
    by_cases hne : args = []
    · subst hne
      refine ⟨[], ⟨d.advance.skipBlanks, r.warnings⟩, ?_, ⟨hadv, rfl⟩, rfl⟩
      rw [if_pos (by rw [Cursor.peek_eq, hadv]; rfl)]
      exact ⟨rfl, rfl⟩
    · obtain ⟨b₀, bs, hb, ho⟩ := listBytes_head hne hes
      have h41 : d.advance.skipBlanks.peek ≠ 41 := by
        rw [Cursor.peek_eq, hadv, hb]
        intro h
        simp only [List.cons_append, List.headD_cons] at h
        subst h
        exact absurd ho (by decide)
      obtain ⟨es', c, hi, hca, hsh⟩ := items_rereads #[]
        (n := d.advance.skipBlanks.unread) (r := ⟨d.advance.skipBlanks, r.warnings⟩)
        hne (fun x hx => ⟨hes x hx, ih x hx, Expr.lt_of_depthList_le hd x hx⟩)
        (by
          have := Expr.length_le_listBytes args
          rw [← Cursor.length_ahead, hadv]
          simp only [List.length_append, List.length_cons]
          omega)
        (by rw [Cursor.skipBlanks_ahead, hadv, listBytes_dropWhile hne hes]) (by simp)
      exact ⟨es', ⟨c, r.warnings⟩, by rw [if_neg h41]; simpa using hi, ⟨hca, rfl⟩, hsh⟩
  obtain ⟨c', hcl, hc'⟩ := closer_of_ahead (b := .round) d.offset (r := st) hst.1
  have hw := hst.2
  rw [hw] at hcl
  have hbr := eat?_bracket_none (c := r.cursor.skipBlanks) (by simp [hl])
  exact ⟨_, c', Reader.primary_eq_ok.mpr (.inr (.inr (.inl ⟨hbr.1, hbr.2, hopen, n, d, args', st,
    hid, hargs, hcl, rfl⟩))), hc', by simp [Expr.sameShape, hval, hsh]⟩

theorem plain_rereads {x : Expr} (hx : Readable .primary x) (ih : Rereads .primary x) :
    Rereads .unary x := by
  intro b r rest hd hc hf
  obtain ⟨a, as, hab, ho⟩ := hx.primary_bytes
  have hnone : r.cursor.skipBlanks.unaryOp? = none := by
    rw [Cursor.unaryOp?_eq_none, hc, hab, List.cons_append]
    exact unaryAt_of_opensPrimary _ ho
  obtain ⟨x', c, hx', hca, hsh⟩ := ih b ⟨r.cursor.skipBlanks, r.warnings⟩ rest hd
    (by rw [Cursor.skipBlanks_ahead, hc, hx.dropWhile_blank]) hf.primary
  have hpost : c.postfixOp? = none :=
    Cursor.postfixOp?_of_unaryAt_none (by rw [hca]; exact hf.unaryAt)
  exact ⟨x', c, Reader.unary_eq_ok.mpr (.inr ⟨hnone, x', ⟨c, r.warnings⟩, hx',
    .inr ⟨hpost, rfl, rfl⟩⟩), hca, hsh⟩

theorem affixed_rereads {op : Spanned UnaryOp} {affix : Affix} {x : Expr} {s : Span}
    (hx : Readable .primary x) (ih : Rereads .primary x) :
    Rereads .unary (.unary op affix x s) := by
  intro b r rest hd hc hf
  simp only [Expr.depth] at hd
  obtain ⟨a, as, hab, ho⟩ := hx.primary_bytes
  cases affix with
  | pre =>
    simp only [Expr.sourceBytes, List.append_assoc] at hc
    have h45 : (x.sourceBytes ++ rest).head? ≠ some 45 := by
      rw [hab]
      intro h
      simp only [List.cons_append, List.head?_cons, Option.some.injEq] at h
      subst h
      exact absurd ho (by decide)
    obtain ⟨d, sp, hu, -, hd'⟩ := Cursor.unaryOp?_of_unaryAt (by rw [hc]; exact unaryAt_spelling op.val h45)
    have hda : d.ahead = x.sourceBytes ++ rest := List.append_cancel_left (hd'.symm.trans hc)
    obtain ⟨x', c, hx', hca, hsh⟩ := ih b ⟨d, r.warnings⟩ rest hd
      (by rw [Cursor.skipBlanks_ahead, hda, hx.dropWhile_blank]) hf.primary
    exact ⟨_, c, Reader.unary_eq_ok.mpr (.inl ⟨_, d, x', hu, hx', rfl⟩), hca,
      by simp [Expr.sameShape, hsh]⟩
  | post =>
    simp only [Expr.sourceBytes, List.append_assoc] at hc
    have hnone : r.cursor.skipBlanks.unaryOp? = none := by
      rw [Cursor.unaryOp?_eq_none, hc, hab, List.cons_append]
      exact unaryAt_of_opensPrimary _ ho
    obtain ⟨x', c, hx', hca, hsh⟩ := ih b ⟨r.cursor.skipBlanks, r.warnings⟩
      (op.val.spelling.toUTF8.data.toList ++ rest) hd
      (by rw [Cursor.skipBlanks_ahead, hc, hx.dropWhile_blank]) (followsPrimary_spelling op.val rest)
    obtain ⟨o, d, hp, hov, hdr⟩ := postfixOp?_of_follows hca hf
    exact ⟨_, d, Reader.unary_eq_ok.mpr (.inr ⟨hnone, x', ⟨c, r.warnings⟩, hx',
      .inl ⟨o, d, hp, rfl, rfl⟩⟩), hdr, by simp [Expr.sameShape, hov, hsh]⟩

theorem Chain.length_le_linkBytes : ∀ ls : List Link, ls.length ≤ (linkBytes ls).length
  | [] => by simp
  | l :: ls => by
    have := length_le_linkBytes ls
    simp only [linkBytes, List.length_append, List.length_cons] at this ⊢
    omega

/-- The links are fewer than the bytes left after the blank before them, so the bytes left are
fuel enough to read them all. -/
theorem Chain.length_le_dropWhile (ls : List Link) (rest : List UInt8) :
    ls.length ≤ ((linkBytes ls ++ rest).dropWhile Ascii.isBlank).length := by
  cases ls with
  | nil => simp
  | cons l ls =>
    have := length_le_linkBytes ls
    have h := dropWhile_blank_spelling l.op.val (l.operand.sourceBytes ++ linkBytes ls ++ rest)
    simp only [linkBytes, List.cons_append, List.append_assoc] at h ⊢
    rw [h]
    simp only [List.length_append, List.length_cons, List.length_cons]
    omega

/-- Before the links of a guarded chain, an operand stands in its place. -/
theorem followsOperand_links {x : Expr} {ls : List Link} {rest : List UInt8}
    (hg : Link.guardedAfter x ls = true) (hr : Closes rest) :
    FollowsOperand x (Chain.linkBytes ls ++ rest) := by
  cases ls with
  | nil => exact .inl hr
  | cons l ls =>
    simp only [Link.guardedAfter, Bool.and_eq_true, Bool.not_eq_true'] at hg
    exact .inr ⟨l.op.val, l.operand.sourceBytes ++ Chain.linkBytes ls ++ rest,
      by simp [Chain.linkBytes], hg.1⟩

/-- The links of a guarded chain, read back from their source up to the end of the expression. -/
theorem links_rereads {b : Nat} : ∀ {ls : List Link} {x : Expr} {n : Nat} (acc : Array Link)
    {r : Reading} {rest : List UInt8},
    (∀ l ∈ ls, Readable .unary l.operand ∧ Rereads .unary l.operand ∧ l.operand.depth ≤ b) →
    Link.guardedAfter x ls = true → ls.length ≤ n →
    r.cursor.ahead = (Chain.linkBytes ls ++ rest).dropWhile Ascii.isBlank → Closes rest →
    ∃ ls' c, Reader.links (Reader.unary .strict (Reader.expression .strict b)) n acc r =
      .ok (acc.toList ++ ls') ⟨c, r.warnings⟩ ∧ c.ahead = rest ∧ List.Forall₂ Link.Alike ls ls'
  | [], _, n, acc, r, rest, _, _, _, hc, hr => by
    have hca : r.cursor.ahead = rest := by
      rw [hc, Chain.linkBytes, List.nil_append, hr.dropWhile_blank]
    refine ⟨[], r.cursor, ?_, hca, .nil⟩
    cases n with
    | zero => exact Reader.links_zero_eq_ok.mpr ⟨by simp, rfl⟩
    | succ k =>
      exact Reader.links_succ_eq_ok.mpr
        (.inl ⟨by rw [Cursor.binaryOp?_eq, hca, hr.binaryAt]; rfl, by simp, rfl⟩)
  | l :: ls, x, n, acc, r, rest, hls, hg, hlen, hc, hr => by
    obtain ⟨hu, ih, hd⟩ := hls l List.mem_cons_self
    simp only [Link.guardedAfter, Bool.and_eq_true, Bool.not_eq_true'] at hg
    obtain ⟨k, rfl⟩ : ∃ k, n = k + 1 := ⟨n - 1, by simp at hlen; omega⟩
    have hca : r.cursor.ahead = l.op.val.spelling.toUTF8.data.toList ++
        32 :: (l.operand.sourceBytes ++ (Chain.linkBytes ls ++ rest)) := by
      have h := dropWhile_blank_spelling l.op.val (l.operand.sourceBytes ++ (Chain.linkBytes ls ++ rest))
      simp only [Chain.linkBytes, List.cons_append, List.append_assoc] at h hc ⊢
      rw [hc, h]
    obtain ⟨d, sp, hb, -, hd'⟩ := Cursor.binaryOp?_of_binaryAt
      (by rw [hca]; exact binaryAt_spelling_blank _ _)
    have hda : d.ahead = 32 :: (l.operand.sourceBytes ++ (Chain.linkBytes ls ++ rest)) :=
      List.append_cancel_left (hd'.symm.trans hca)
    -- the operand, then the links after it from the next blank on
    obtain ⟨u', c, hu', hcu, hsh⟩ := ih b ⟨d, r.warnings⟩ (Chain.linkBytes ls ++ rest) hd
      (by rw [Cursor.skipBlanks_ahead, hda, List.dropWhile_cons_of_pos (by decide),
        hu.dropWhile_blank])
      (followsOperand_links hg.2 hr)
    obtain ⟨ls', c', hl, hcl, hal⟩ := links_rereads (acc.push ⟨⟨l.op.val, sp⟩, u'⟩)
      (r := ⟨c.skipBlanks, r.warnings⟩) (fun l' hl' => hls l' (List.mem_cons_of_mem _ hl')) hg.2
      (by simp at hlen; omega) (by rw [Cursor.skipBlanks_ahead, hcu]) hr
    refine ⟨⟨⟨l.op.val, sp⟩, u'⟩ :: ls', c', Reader.links_succ_eq_ok.mpr
      (.inr ⟨_, d, u', ⟨c, r.warnings⟩, hb, hu', by simpa using hl⟩), hcl, .cons ⟨rfl, hsh⟩ hal⟩

/-- A readable chain is read back whole: its first operand, then its links, assembled into a
tree of the same shape. -/
theorem chain_rereads {e : Expr} (hops : ∀ x ∈ e.spine.operands, Readable .unary x)
    (hg : Link.guardedAfter e.spine.first e.spine.links = true) (ha : e.spine.assemble = .ok e)
    (ih : ∀ x ∈ e.spine.operands, Rereads .unary x) : Rereads .expression e := by
  intro b r rest hd hc hr
  obtain ⟨k, rfl⟩ : ∃ k, b = k + 1 := ⟨b - 1, by omega⟩
  have hdep : ∀ x ∈ e.spine.operands, x.depth ≤ k := fun x hx =>
    Nat.le_trans (Expr.depth_le_of_mem_spine hx) (by omega)
  rw [← Expr.sourceBytes_spine] at hc
  generalize e.spine = ch at hops hg ha ih hdep hc
  obtain ⟨first, ls⟩ := ch
  simp only [Chain.sourceBytes] at hc
  have hmem : first ∈ (Chain.mk first ls).operands := List.mem_cons_self
  obtain ⟨first', c₁, hf, hc₁, hsh⟩ := ih first hmem k r (Chain.linkBytes ls ++ rest)
    (hdep first hmem) (by rw [hc, List.append_assoc]) (followsOperand_links hg hr)
  have hlinks : ∀ l ∈ ls, Readable .unary l.operand ∧ Rereads .unary l.operand ∧
      l.operand.depth ≤ k := fun l hl =>
    have hm : l.operand ∈ (Chain.mk first ls).operands :=
      List.mem_cons_of_mem _ (List.mem_map_of_mem hl)
    ⟨hops _ hm, ih _ hm, hdep _ hm⟩
  obtain ⟨ls', c₂, hl, hc₂, hal⟩ := links_rereads #[] (n := c₁.skipBlanks.unread)
    (r := ⟨c₁.skipBlanks, r.warnings⟩) hlinks hg
    (by rw [← Cursor.length_ahead, Cursor.skipBlanks_ahead, hc₁]; exact Chain.length_le_dropWhile ls rest)
    (by rw [Cursor.skipBlanks_ahead, hc₁]) hr
  obtain ⟨e', ha', hsh'⟩ := @Chain.assemble_congr ⟨first, ls⟩ ⟨first', ls'⟩ e hsh hal ha
  exact ⟨e', c₂, Reader.level_eq_ok.mpr ⟨first', ⟨c₁, r.warnings⟩, ls', hf, by simpa using hl, ha'⟩,
    hc₂, hsh'⟩

/-- Every readable tree is read back from its source by the strict reader, in the same shape,
whenever its place lets it stand and the budget covers the expressions it opens. -/
theorem Readable.rereads {rule : Rule} {x : Expr} (h : Readable rule x) : Rereads rule x := by
  induction h with
  | group hx ih => exact group_rereads hx ih
  | array hne hes ih => exact array_rereads hne hes ih
  | call hn hes ih => exact call_rereads hn hes ih
  | num hv => exact num_rereads hv
  | var hn => exact var_rereads hn
  | plain hx ih => exact plain_rereads hx ih
  | affixed hx ih => exact affixed_rereads hx ih
  | chain hops hg ha ih => exact chain_rereads hops hg ha ih

/-! ### The printed source of a returned tree -/

theorem Cursor.start_ahead (text : ByteArray) : (Cursor.start text).ahead = text.data.toList := by
  simp [Cursor.ahead, Cursor.start]

/-- The strict reading of the source of a readable tree that opens fewer expressions than the
budget gives back a tree of the same shape. -/
theorem parseWithin_sourceBytes {b : Nat} {e : Expr} (he : Readable .expression e)
    (hd : e.depth < b) :
    ∃ e', (Expr.parseWithin b e.toSource.toUTF8 .strict).result = .ok e' ∧
      e.sameShape e' = true := by
  have hstart : (Cursor.start e.toSource.toUTF8).skipBlanks.ahead = e.sourceBytes ++ [] := by
    rw [Cursor.skipBlanks_ahead, Cursor.start_ahead, Expr.toSource_bytes]
    simpa using he.dropWhile_blank []
  obtain ⟨e', c, he', hc, hsh⟩ :=
    he.rereads b ⟨Cursor.start e.toSource.toUTF8, []⟩ [] hd hstart (by simp [Closes])
  have hend : c.skipBlanks.atEnd = true := by
    rw [Cursor.atEnd_iff, Cursor.skipBlanks_ahead, hc]
    rfl
  exact ⟨e', parseWithin_eq_ok.mpr ⟨_, Reader.document_eq_ok.mpr ⟨_, he', .inl ⟨hend, rfl⟩⟩⟩, hsh⟩

/-- Every tree a reading returns, strict or lenient, prints to a source that the strict reading
takes back to a tree of the same shape. -/
theorem parse_toSource {text : ByteArray} {mode : Mode} {e : Expr}
    (h : (Expr.parse text mode).result = .ok e) :
    ∃ e', (Expr.parse e.toSource.toUTF8 .strict).result = .ok e' ∧ e.sameShape e' = true := by
  obtain ⟨hread, hdepth⟩ := parseWithin_sound h
  exact parseWithin_sourceBytes hread hdepth

/-- A lenient reading that closes a group the text left open prints a source that reads back. -/
theorem parse_toSource_repaired :
    ∃ e', (Expr.parse (Expr.group (.var "a" ⟨1, 2⟩) ⟨0, 2⟩).toSource.toUTF8 .strict).result =
      .ok e' ∧ (Expr.group (.var "a" ⟨1, 2⟩) ⟨0, 2⟩).sameShape e' = true :=
  parse_toSource (show (Expr.parse "(a".toUTF8 .lenient).result =
    .ok (Expr.group (.var "a" ⟨1, 2⟩) ⟨0, 2⟩) by rfl)

end Formula
