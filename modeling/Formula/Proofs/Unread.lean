import Mathlib
import Formula.Parse.Grammar

/-! The unread bytes of a cursor, seen as a list, and what every move and scanner does to
them. Moves never change the text; they drop bytes from the front of the unread list. -/

namespace Formula

theorem foldl_bytes {β : Type} (f : β → UInt8 → β) (init : β)
    (bs : ByteArray) : bs.foldl f init = bs.data.toList.foldl f init := by
  simp only [ByteArray.foldl, ByteArray.foldlM, Nat.le_refl, dite_true, Nat.sub_zero]
  -- the loop counter bounds the bytes left, so the loop walks the whole list
  suffices ∀ i j b, bs.size - j ≤ i →
      ByteArray.foldlM.loop (m := Id) (fun b a => pure (f b a)) bs bs.size (Nat.le_refl _) i j b =
        (bs.data.toList.drop j).foldl f b from this _ 0 init (Nat.le_refl _)
  intro i
  induction i with
  | zero =>
    intro j b h
    unfold ByteArray.foldlM.loop
    have : bs.data.toList.drop j = [] := by simp; omega
    split <;> simp [this] <;> rfl
  | succ i ih =>
    intro j b h
    unfold ByteArray.foldlM.loop
    split
    · rw [List.drop_eq_getElem_cons (i := j) (by simp; omega), List.foldl_cons,
        ← ih (j + 1) _ (by omega)]
      simp [ByteArray.getElem_eq_getElem_data]
    · have : bs.data.toList.drop j = [] := by simp; omega
      simp [this]
      rfl

namespace Ascii

theorem lt_of_isNameByte {b : UInt8} (h : isNameByte b = true) : b < 128 := by
  simp only [isNameByte, isAlnum, isLetter, isDigit, Bool.or_eq_true, Bool.and_eq_true,
    decide_eq_true_eq, beq_iff_eq] at h
  grind

theorem isNameByte_of_isDigit {b : UInt8} (h : isDigit b = true) : isNameByte b = true := by
  simp [isNameByte, isAlnum, h]

theorem isNameByte_of_isLetter {b : UInt8} (h : isLetter b = true) : isNameByte b = true := by
  simp [isNameByte, isAlnum, h]

theorem toChar_bytes {b : UInt8} (h : b < 128) : [toChar b].utf8Encode.data.toList = [b] := by
  have hb : b.toNat < 128 := h
  have hv : (toChar b).val.toNat = b.toNat := by
    simp only [toChar, Char.ofNat, Char.ofNatAux, Nat.isValidChar]
    rw [dif_pos (by omega)]
    simp
  rw [List.utf8Encode_singleton, String.utf8EncodeChar_eq_singleton]
  · simp only [List.data_toByteArray, List.toList_toArray, List.cons.injEq, and_true]
    apply UInt8.toNat_inj.mp
    simp only [UInt32.toNat_toUInt8, hv]
    omega
  · have : (toChar b).val ≤ 127 := by
      rw [UInt32.le_iff_toNat_le, hv]; simp; omega
    simp [Char.utf8Size, this]

/-- The text of ASCII bytes is encoded as those very bytes. -/
theorem toText_bytes {bs : ByteArray} (h : ∀ b ∈ bs.data.toList, b < 128) :
    (toText bs).toUTF8.data.toList = bs.data.toList := by
  suffices ∀ (l : List UInt8) (s : String), (∀ b ∈ l, b < 128) →
      (l.foldl (fun s b => s.push (toChar b)) s).toUTF8.data.toList = s.toUTF8.data.toList ++ l by
    simpa [toText, foldl_bytes] using this _ "" h
  intro l
  induction l with
  | nil => simp
  | cons b l ih =>
    intro s hl
    rw [List.foldl_cons, ih _ (fun x hx => hl x (List.mem_cons_of_mem _ hx))]
    simp [String.toByteArray_push, ByteArray.data_append, toChar_bytes (hl b List.mem_cons_self)]

theorem digitsValue_eq (bs : ByteArray) :
    digitsValue bs = bs.data.toList.foldl (fun n b => 10 * n + (b.toNat - 48)) 0 :=
  foldl_bytes _ _ _

end Ascii

namespace Cursor

/-- The bytes not yet read. -/
def ahead (c : Cursor) : List UInt8 := c.text.data.toList.drop c.offset

theorem length_ahead (c : Cursor) : c.ahead.length = c.unread := by
  simp [ahead, unread]

theorem offset_eq (c : Cursor) : c.offset = c.text.size - c.ahead.length := by
  have := c.offset_le
  simp [ahead]
  omega

theorem peek?_eq (c : Cursor) : c.peek? = c.ahead.head? := by
  simp only [peek?, ahead, List.head?_drop, Array.getElem?_toList]
  by_cases h : c.offset < c.text.size
  · rw [Array.getElem?_eq_getElem (by simpa using h)]
    simp [h, ByteArray.getElem_eq_getElem_data]
  · rw [Array.getElem?_eq_none (by simpa using h)]
    simp [h]

theorem peek_eq (c : Cursor) : c.peek = c.ahead.headD 0 := by
  simp [peek, peek?_eq, List.headD_eq_head?_getD]

theorem atEnd_iff (c : Cursor) : c.atEnd = true ↔ c.ahead = [] := by
  have := c.offset_le
  simp [atEnd, ahead]

@[simp] theorem advance_text (c : Cursor) : c.advance.text = c.text := by
  unfold advance
  split <;> rfl

theorem advance_ahead (c : Cursor) : c.advance.ahead = c.ahead.tail := by
  unfold advance
  split
  · simp [ahead, List.tail_drop]
  · have : c.ahead = [] := by simp [ahead]; omega
    simp [this]

@[simp] theorem forward_text (n : Nat) (c : Cursor) : (c.forward n).text = c.text := by
  induction n generalizing c with
  | zero => rfl
  | succ n ih => simp [forward, ih]

theorem forward_ahead (n : Nat) (c : Cursor) : (c.forward n).ahead = c.ahead.drop n := by
  induction n generalizing c with
  | zero => rfl
  | succ n ih => simp only [forward, ih, advance_ahead, List.drop_tail]

/-- Seeking forward drops the bytes in between. -/
theorem seek_of_le (c : Cursor) {t : Nat} (h : c.offset ≤ t) :
    (c.seek t).text = c.text ∧ (c.seek t).ahead = c.ahead.drop (t - c.offset) := by
  have hle := c.offset_le
  simp only [seek, Nat.le_min.mpr ⟨h, hle⟩, if_true, forward_text, forward_ahead, true_and]
  by_cases ht : t ≤ c.text.size
  · rw [Nat.min_eq_left ht]
  · have : c.ahead.length ≤ min t c.text.size - c.offset := by
      simp [ahead]; omega
    rw [List.drop_of_length_le this, List.drop_of_length_le (by simp [ahead] at this ⊢; omega)]

@[simp] theorem skipWhile_text (p : UInt8 → Bool) (c : Cursor) : (c.skipWhile p).text = c.text := by
  suffices ∀ n c, (skipWhile.go p n c).text = c.text from this _ c
  intro n
  induction n with
  | zero => intro c; rfl
  | succ n ih =>
    intro c
    simp only [skipWhile.go]
    split
    · split
      · rw [ih, advance_text]
      · rfl
    · rfl

theorem skipWhile_ahead (p : UInt8 → Bool) (c : Cursor) :
    (c.skipWhile p).ahead = c.ahead.dropWhile p := by
  -- the fuel `unread` is the length of the unread list, so it never runs out first
  suffices ∀ n c, c.ahead.length ≤ n → (skipWhile.go p n c).ahead = c.ahead.dropWhile p from
    this _ c (Nat.le_of_eq (length_ahead c))
  intro n
  induction n with
  | zero =>
    intro c h
    have : c.ahead = [] := List.eq_nil_of_length_eq_zero (by omega)
    simp [skipWhile.go, this]
  | succ n ih =>
    intro c h
    simp only [skipWhile.go, peek?_eq]
    rcases hc : c.ahead with _ | ⟨b, bs⟩
    · simp [hc]
    · by_cases hp : p b
      · simp only [List.head?_cons, hp, if_true, List.dropWhile_cons_of_pos hp]
        rw [ih _ (by rw [advance_ahead, hc]; simp [hc] at h; simpa using h), advance_ahead, hc]
        rfl
      · simp [hp, List.dropWhile_cons_of_neg hp, hc]

theorem skipBlanks_ahead (c : Cursor) : c.skipBlanks.ahead = c.ahead.dropWhile Ascii.isBlank :=
  skipWhile_ahead _ c

@[simp] theorem skipBlanks_text (c : Cursor) : c.skipBlanks.text = c.text :=
  skipWhile_text _ c

/-- A cursor that has read `x` more than `c`, over the same text, stands `x.length` bytes
further on. -/
theorem offset_of_ahead {c d : Cursor} {x : List UInt8} (ht : d.text = c.text)
    (h : c.ahead = x ++ d.ahead) : d.offset = c.offset + x.length := by
  have hc := offset_eq c
  have hd := offset_eq d
  have hl := congrArg List.length h
  have hs : c.ahead.length ≤ c.text.size := by simp [ahead]
  simp only [List.length_append] at hl
  rw [ht] at hd
  omega

/-- The bytes between two such cursors are `x`. -/
theorem extract_of_ahead {c d : Cursor} {x : List UInt8} (ht : d.text = c.text)
    (h : c.ahead = x ++ d.ahead) : (c.text.extract c.offset d.offset).data.toList = x := by
  rw [offset_of_ahead ht h]
  simp only [ByteArray.data_extract, Array.toList_extract, List.extract_eq_take_drop,
    Nat.add_sub_cancel_left]
  rw [← ahead, h, List.take_left]

theorem takeWhile_eq (p : UInt8 → Bool) (c : Cursor) :
    (c.takeWhile p).1.data.toList = c.ahead.takeWhile p ∧ (c.takeWhile p).2 = c.skipWhile p := by
  refine ⟨extract_of_ahead (skipWhile_text p c) ?_, rfl⟩
  rw [skipWhile_ahead, List.takeWhile_append_dropWhile]

theorem startsWith_eq (c : Cursor) (lit : ByteArray) :
    c.startsWith lit = (decide (0 < lit.size) && lit.data.toList.isPrefixOf c.ahead) := by
  simp only [startsWith]
  congr 1
  have hx : (c.text.extract c.offset (c.offset + lit.size)).data.toList = c.ahead.take lit.size := by
    simp [List.extract_eq_take_drop, ahead]
  have hb : (c.text.extract c.offset (c.offset + lit.size) == lit) =
      ((c.text.extract c.offset (c.offset + lit.size)).data == lit.data) := rfl
  apply Bool.eq_iff_iff.mpr
  rw [hb, beq_iff_eq, ← Array.toList_inj, hx, List.isPrefixOf_iff_prefix, List.prefix_iff_eq_take,
    Array.length_toList, ByteArray.size_data]
  exact eq_comm

theorem eat?_eq_some {c d : Cursor} {lit : ByteArray} (h : c.eat? lit = some d) :
    d.text = c.text ∧ c.ahead = lit.data.toList ++ d.ahead := by
  unfold eat? at h
  split at h
  · rename_i hs
    cases h
    rw [startsWith_eq] at hs
    simp only [Bool.and_eq_true, decide_eq_true_eq, List.isPrefixOf_iff_prefix] at hs
    obtain ⟨rest, hr⟩ := hs.2
    have hl : lit.size ≤ c.ahead.length := by
      rw [← hr, List.length_append, Array.length_toList, ByteArray.size_data]; omega
    obtain ⟨ht, hd⟩ := seek_of_le c (Nat.le_add_right c.offset lit.size)
    refine ⟨ht, ?_⟩
    rw [hd, Nat.add_sub_cancel_left, ← hr]
    simp
  · cases h

theorem eat?_of_prefix {c : Cursor} {lit : ByteArray} {rest : List UInt8} (hne : 0 < lit.size)
    (h : c.ahead = lit.data.toList ++ rest) :
    ∃ d, c.eat? lit = some d ∧ d.text = c.text ∧ d.ahead = rest := by
  have hs : c.startsWith lit = true := by
    simp [startsWith_eq, hne, h]
  obtain ⟨ht, hd⟩ := seek_of_le c (Nat.le_add_right c.offset lit.size)
  refine ⟨_, if_pos hs, ht, ?_⟩
  rw [hd, Nat.add_sub_cancel_left, h]
  simp

theorem eat?_eq_none_iff {c : Cursor} {lit : ByteArray} :
    c.eat? lit = none ↔ ¬ (0 < lit.size ∧ lit.data.toList <+: c.ahead) := by
  unfold eat?
  split <;> rename_i hs <;> rw [startsWith_eq] at hs <;> simp_all

theorem consume?_eq_some {c d : Cursor} {b : UInt8} :
    c.consume? b = some d ↔ c.ahead.head? = some b ∧ d = c.advance := by
  unfold consume?
  rw [peek?_eq]
  split <;> simp_all [eq_comm]

/-- The first operator of `ops` whose spelling the bytes begin with. -/
def firstOp {α : Type} (spelling : α → String) (ops : List α) (bytes : List UInt8) : Option α :=
  ops.find? (fun op => (spelling op).toUTF8.data.toList.isPrefixOf bytes)

theorem operator?_eq {α : Type} (spelling : α → String) (c : Cursor) (ops : List α)
    (hne : ∀ op ∈ ops, 0 < (spelling op).toUTF8.size) :
    c.operator? spelling ops = (firstOp spelling ops c.ahead).map (fun op =>
      (⟨op, (c.seek (c.offset + (spelling op).toUTF8.size)).spanFrom c.offset⟩,
        c.seek (c.offset + (spelling op).toUTF8.size))) := by
  induction ops with
  | nil => rfl
  | cons op ops ih =>
    simp only [operator?, eat?, startsWith_eq, hne op List.mem_cons_self, decide_true,
      Bool.true_and, firstOp, List.find?_cons]
    cases (spelling op).toUTF8.data.toList.isPrefixOf c.ahead
    · simpa [firstOp] using ih (fun o ho => hne o (List.mem_cons_of_mem _ ho))
    · rfl

end Cursor

/-- The binary operator that the bytes begin with, the first in scanning order. -/
def binaryAt (bytes : List UInt8) : Option BinaryOp :=
  Cursor.firstOp BinaryOp.spelling BinaryOp.all bytes

/-- The unary operator that the bytes begin with, the first in scanning order. -/
def unaryAt (bytes : List UInt8) : Option UnaryOp :=
  Cursor.firstOp UnaryOp.spelling UnaryOp.all bytes

theorem BinaryOp.spelling_bytes (op : BinaryOp) : op.spelling.toByteArray.data.toList = match op with
    | add => [43] | sub => [45] | mul => [42] | div => [47] | pow => [94] | eq => [61, 61]
    | assign => [61] | ne => [33, 61] | le => [60, 61] | ge => [62, 61] | lt => [60]
    | gt => [62] | and => [38, 38] | or => [124, 124] := by
  cases op <;> rfl

theorem UnaryOp.spelling_bytes (op : UnaryOp) : op.spelling.toByteArray.data.toList = match op with
    | inc => [43, 43] | dec => [45, 45] | not => [33] | neg => [45] := by
  cases op <;> rfl

theorem BinaryOp.size_spelling_pos (op : BinaryOp) : 0 < op.spelling.toUTF8.size := by
  cases op <;> decide

theorem UnaryOp.size_spelling_pos (op : UnaryOp) : 0 < op.spelling.toUTF8.size := by
  cases op <;> decide

namespace Cursor

theorem binaryOp?_eq (c : Cursor) : c.binaryOp? = (binaryAt c.ahead).map (fun op =>
    (⟨op, (c.seek (c.offset + op.spelling.toUTF8.size)).spanFrom c.offset⟩,
      c.seek (c.offset + op.spelling.toUTF8.size))) :=
  operator?_eq _ c _ (fun op _ => op.size_spelling_pos)

theorem unaryOp?_eq (c : Cursor) : c.unaryOp? = (unaryAt c.ahead).map (fun op =>
    (⟨op, (c.seek (c.offset + op.spelling.toUTF8.size)).spanFrom c.offset⟩,
      c.seek (c.offset + op.spelling.toUTF8.size))) :=
  operator?_eq _ c _ (fun op _ => op.size_spelling_pos)

theorem binaryLength_eq (c : Cursor) :
    c.binaryLength = ((binaryAt c.ahead).map (·.spelling.toUTF8.size)).getD 0 := by
  have : BinaryOp.all.find? (fun op => c.startsWith op.spelling.toUTF8) = binaryAt c.ahead := by
    simp only [binaryAt, firstOp, startsWith_eq, BinaryOp.size_spelling_pos, decide_true,
      Bool.true_and]
  simp only [binaryLength, this]
  cases binaryAt c.ahead <;> rfl

theorem identifier_of_letter {c : Cursor} (h : Ascii.isLetter c.peek = true) :
    c.identifier = .ok (⟨Ascii.toText (c.takeWhile Ascii.isNameByte).1,
      (c.skipWhile Ascii.isNameByte).spanFrom c.offset⟩, c.skipWhile Ascii.isNameByte) := by
  simp only [identifier, h, if_true]
  rfl

theorem identifier_eq_ok {c d : Cursor} {n : Spanned String} (h : c.identifier = .ok (n, d)) :
    Ascii.isLetter c.peek = true ∧ d = c.skipWhile Ascii.isNameByte ∧
      n = ⟨Ascii.toText (c.takeWhile Ascii.isNameByte).1, d.spanFrom c.offset⟩ := by
  by_cases hl : Ascii.isLetter c.peek = true
  · rw [identifier_of_letter hl] at h
    cases h
    exact ⟨hl, rfl, rfl⟩
  · simp [identifier, hl] at h

theorem consume?_minus_of_digit {c : Cursor} (hd : Ascii.isDigit c.peek = true) :
    c.consume? 45 = none := by
  rw [peek_eq] at hd
  unfold consume?
  rw [peek?_eq]
  cases hc : c.ahead with
  | nil => simp
  | cons b bs =>
    simp only [hc, List.headD_cons] at hd
    have : b ≠ 45 := by
      simp only [Ascii.isDigit, Bool.and_eq_true, decide_eq_true_eq] at hd; grind
    simp [this]

theorem number_eq_ok {c d : Cursor} {n : Spanned Int64} (hd : Ascii.isDigit c.peek = true)
    (h : c.number = .ok (n, d)) : d = c.skipWhile Ascii.isDigit ∧
      n.val.toInt = Ascii.digitsValue (c.takeWhile Ascii.isDigit).1 ∧ n.span = d.spanFrom c.offset := by
  simp only [number, consume?_minus_of_digit hd, Option.getD_none, Option.isSome_none,
    Bool.false_eq_true, if_false] at h
  split at h
  · cases h
  · split at h
    · cases h
      exact ⟨rfl, by simp, rfl⟩
    · cases h

theorem number_of_digit {c : Cursor} (hd : Ascii.isDigit c.peek = true)
    (hv : Ascii.digitsValue (c.takeWhile Ascii.isDigit).1 < 2 ^ 63) :
    ∃ n : Spanned Int64, c.number = .ok (n, c.skipWhile Ascii.isDigit) ∧
      n.val.toInt = Ascii.digitsValue (c.takeWhile Ascii.isDigit).1 := by
  have hne : (c.takeWhile Ascii.isDigit).1.size ≠ 0 := by
    rw [← ByteArray.size_data, ← Array.length_toList, (takeWhile_eq _ c).1]
    rw [peek_eq] at hd
    cases hc : c.ahead with
    | nil => simp only [hc, List.headD_nil] at hd; exact absurd hd (by decide)
    | cons b bs => simp_all
  have hr : Int64.minValue.toInt ≤ (Ascii.digitsValue (c.takeWhile Ascii.isDigit).1 : Int) ∧
      (Ascii.digitsValue (c.takeWhile Ascii.isDigit).1 : Int) ≤ Int64.maxValue.toInt := by
    simp only [Int64.toInt_minValue, Int64.toInt_maxValue]
    omega
  simp only [number, consume?_minus_of_digit hd, Option.getD_none, Option.isSome_none,
    Bool.false_eq_true, if_false, hne, dif_pos hr]
  exact ⟨_, rfl, by simp⟩

theorem opensCall_iff (c : Cursor) : c.opensCall = true ↔
    Ascii.isLetter c.peek = true ∧ (c.skipWhile Ascii.isNameByte).peek = 40 := by
  by_cases hl : Ascii.isLetter c.peek = true
  · simp [opensCall, hl, identifier_of_letter hl]
  · simp [opensCall, hl]

theorem firstOp_eq_some {α : Type} {spelling : α → String} {ops : List α} {bytes : List UInt8}
    {op : α} (h : firstOp spelling ops bytes = some op) :
    (spelling op).toUTF8.data.toList <+: bytes := by
  have := List.find?_some h
  simpa using this

/-- An operator scanned at `c` is followed by the rest of the unread bytes. -/
theorem operator?_eq_some {α : Type} {spelling : α → String} {ops : List α} {c d : Cursor}
    {op : Spanned α} (hne : ∀ o ∈ ops, 0 < (spelling o).toUTF8.size)
    (h : c.operator? spelling ops = some (op, d)) :
    firstOp spelling ops c.ahead = some op.val ∧ d.text = c.text ∧
      c.ahead = (spelling op.val).toUTF8.data.toList ++ d.ahead ∧ op.span = d.spanFrom c.offset ∧
      d.offset = c.offset + (spelling op.val).toUTF8.size := by
  rw [operator?_eq _ _ _ hne] at h
  obtain ⟨o, ho, he⟩ := Option.map_eq_some_iff.mp h
  cases he
  obtain ⟨rest, hr⟩ := firstOp_eq_some ho
  obtain ⟨ht, hd⟩ := seek_of_le c (Nat.le_add_right c.offset (spelling o).toUTF8.size)
  have hd' : (c.seek (c.offset + (spelling o).toUTF8.size)).ahead = rest := by
    rw [hd, Nat.add_sub_cancel_left, ← hr]; simp
  refine ⟨ho, ht, by rw [hd', hr], rfl, ?_⟩
  rw [offset_of_ahead ht (by rw [hd', hr])]
  simp

theorem unaryOp?_eq_some {c d : Cursor} {op : Spanned UnaryOp} (h : c.unaryOp? = some (op, d)) :
    unaryAt c.ahead = some op.val ∧ d.text = c.text ∧
      c.ahead = op.val.spelling.toUTF8.data.toList ++ d.ahead ∧ op.span = d.spanFrom c.offset ∧
      d.offset = c.offset + op.val.spelling.toUTF8.size :=
  operator?_eq_some (fun o _ => o.size_spelling_pos) h

theorem binaryOp?_eq_some {c d : Cursor} {op : Spanned BinaryOp} (h : c.binaryOp? = some (op, d)) :
    binaryAt c.ahead = some op.val ∧ d.text = c.text ∧
      c.ahead = op.val.spelling.toUTF8.data.toList ++ d.ahead ∧ op.span = d.spanFrom c.offset ∧
      d.offset = c.offset + op.val.spelling.toUTF8.size :=
  operator?_eq_some (fun o _ => o.size_spelling_pos) h

/-- Whenever the unread bytes begin with a unary operator, it can be scanned. -/
theorem unaryOp?_of_unaryAt {c : Cursor} {op : UnaryOp} (h : unaryAt c.ahead = some op) :
    ∃ d sp, c.unaryOp? = some (⟨op, sp⟩, d) ∧ d.text = c.text ∧
      c.ahead = op.spelling.toUTF8.data.toList ++ d.ahead := by
  cases hu : c.unaryOp? with
  | none => simp [unaryOp?_eq, h] at hu
  | some p =>
    obtain ⟨o, d⟩ := p
    obtain ⟨ho, ht, hd, -⟩ := unaryOp?_eq_some hu
    rw [h] at ho
    cases ho
    exact ⟨d, o.span, rfl, ht, hd⟩

/-- Whenever the unread bytes begin with a binary operator, it can be scanned. -/
theorem binaryOp?_of_binaryAt {c : Cursor} {op : BinaryOp} (h : binaryAt c.ahead = some op) :
    ∃ d sp, c.binaryOp? = some (⟨op, sp⟩, d) ∧ d.text = c.text ∧
      c.ahead = op.spelling.toUTF8.data.toList ++ d.ahead := by
  cases hb : c.binaryOp? with
  | none => simp [binaryOp?_eq, h] at hb
  | some p =>
    obtain ⟨o, d⟩ := p
    obtain ⟨ho, ht, hd, -⟩ := binaryOp?_eq_some hb
    rw [h] at ho
    cases ho
    exact ⟨d, o.span, rfl, ht, hd⟩

theorem unaryOp?_eq_none {c : Cursor} : c.unaryOp? = none ↔ unaryAt c.ahead = none := by
  simp [unaryOp?_eq]

theorem postfixOp?_of_unaryAt_none {c : Cursor} (h : unaryAt c.ahead = none) :
    c.postfixOp? = none := by
  simp [postfixOp?, unaryOp?_eq_none.mpr h]

/-- What a postfix operator that was accepted guarantees about the text after it. -/
theorem postfixOp?_eq_some {c d : Cursor} {op : Spanned UnaryOp} (h : c.postfixOp? = some (op, d)) :
    c.unaryOp? = some (op, d) ∧ c.binaryLength ≤ op.val.spelling.toUTF8.size ∧
      Ascii.opensPrimary d.skipBlanks.peek = false ∧
      (op.val.spelling.toUTF8.size = c.binaryLength → d.skipBlanks.unaryOp? = none) := by
  unfold postfixOp? at h
  split at h
  · cases h
  · rename_i o e hu
    obtain ⟨-, -, -, -, hoff⟩ := unaryOp?_eq_some hu
    rw [hoff, Nat.add_sub_cancel_left] at h
    dsimp only at h
    split at h
    · cases h
    · split at h
      · cases h
      · rename_i hlt hg
        cases h
        simp only [Bool.or_eq_true, not_or] at hg
        refine ⟨hu, Nat.le_of_not_lt hlt, by simpa using hg.1, fun heq => ?_⟩
        cases hx : d.skipBlanks.unaryOp? with
        | none => rfl
        | some _ =>
          simp only [hx, Option.isSome_some, Bool.and_true, beq_iff_eq] at hg
          exact absurd heq hg.2

/-- The conditions under which the guard accepts a postfix operator. -/
theorem postfixOp?_of {c d : Cursor} {op : Spanned UnaryOp} (hu : c.unaryOp? = some (op, d))
    (hb : c.binaryLength ≤ op.val.spelling.toUTF8.size)
    (hp : Ascii.opensPrimary d.skipBlanks.peek = false)
    (hn : op.val.spelling.toUTF8.size = c.binaryLength → d.skipBlanks.unaryOp? = none) :
    c.postfixOp? = some (op, d) := by
  obtain ⟨-, -, -, -, hoff⟩ := unaryOp?_eq_some hu
  have hlt : ¬ op.val.spelling.toUTF8.size < c.binaryLength := Nat.not_lt.mpr hb
  have hg : ¬ (Ascii.opensPrimary d.skipBlanks.peek = true ∨
      (op.val.spelling.toUTF8.size = c.binaryLength ∧ d.skipBlanks.unaryOp?.isSome = true)) := by
    rintro (h | ⟨heq, h⟩)
    · simp [hp] at h
    · simp [hn heq] at h
  simp only [postfixOp?, hu, hoff, Nat.add_sub_cancel_left, hlt, if_false]
  rw [if_neg]
  simpa using hg

end Cursor

/-- A `-` or a `!` starts a unary operator, whatever follows. -/
theorem unaryAt_minus (rest : List UInt8) : (unaryAt (45 :: rest)).isSome := by
  simp only [unaryAt, Cursor.firstOp, UnaryOp.all, String.toUTF8_eq_toByteArray,
    UnaryOp.spelling_bytes, List.find?, List.isPrefixOf_cons_cons, List.isPrefixOf_nil_left]
  cases List.isPrefixOf [45] rest <;> rfl

theorem unaryAt_bang (rest : List UInt8) : (unaryAt (33 :: rest)).isSome := by
  simp [unaryAt, Cursor.firstOp, UnaryOp.all, UnaryOp.spelling_bytes, List.find?,
    List.isPrefixOf_cons_cons]

/-- A binary operator followed by a blank is read as itself: no longer spelling extends it. -/
theorem binaryAt_spelling_blank (op : BinaryOp) (rest : List UInt8) :
    binaryAt (op.spelling.toUTF8.data.toList ++ 32 :: rest) = some op := by
  cases op <;> simp [binaryAt, Cursor.firstOp, BinaryOp.all, BinaryOp.spelling_bytes, List.find?,
    List.isPrefixOf_cons_cons]

/-- Where the text goes on with `-` or `!=`, a unary operator starts too. -/
theorem unaryAt_of_binaryAt {bytes : List UInt8} {op : BinaryOp} (h : binaryAt bytes = some op)
    (hop : op = .sub ∨ op = .ne) : (unaryAt bytes).isSome := by
  obtain ⟨rest, hr⟩ := Cursor.firstOp_eq_some h
  rcases hop with rfl | rfl
  · simp only [String.toUTF8_eq_toByteArray, BinaryOp.spelling_bytes, List.cons_append,
      List.nil_append] at hr
    rw [← hr]
    exact unaryAt_minus rest
  · simp only [String.toUTF8_eq_toByteArray, BinaryOp.spelling_bytes, List.cons_append,
      List.nil_append] at hr
    rw [← hr]
    exact unaryAt_bang _

end Formula